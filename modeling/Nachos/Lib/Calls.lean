import Mathlib.Data.List.Basic

/-!
# Objects and what they answer

An object is a state with calls that answer and change it; a call that stops the program is `none`.
`Refines` says that an object answers every allowed call as a simpler one does, in states related by
`R`; by induction it then does so over every sequence of calls (`Refines.run`).
-/

namespace Calls

variable {σ τ ω α : Type*}

/-- The answers to a list of calls, and the state after it. -/
def run (call : σ → ω → Option (α × σ)) : σ → List ω → Option (List α × σ)
  | s, [] => some ([], s)
  | s, c :: cs =>
    (call s c).bind fun r => (run call r.2 cs).map fun rs => (r.1 :: rs.1, rs.2)

/-- The same, for an object whose calls never stop the program. -/
def runSpec (spec : τ → ω → α × τ) : τ → List ω → List α × τ
  | t, [] => ([], t)
  | t, c :: cs => ((spec t c).1 :: (runSpec spec (spec t c).2 cs).1, (runSpec spec (spec t c).2 cs).2)

/-- Every allowed call is answered as by `spec`, and keeps `R`. -/
def Refines (call : σ → ω → Option (α × σ)) (spec : τ → ω → α × τ) (allowed : ω → Prop)
    (R : σ → τ → Prop) : Prop :=
  ∀ s t c, allowed c → R s t → ∃ s', call s c = some ((spec t c).1, s') ∧ R s' (spec t c).2

variable {call : σ → ω → Option (α × σ)} {spec : τ → ω → α × τ} {allowed : ω → Prop}
  {R : σ → τ → Prop}

theorem Refines.run (h : Refines call spec allowed R) {s : σ} {t : τ} (cs : List ω)
    (hallowed : ∀ c ∈ cs, allowed c) (hR : R s t) :
    ∃ s', Calls.run call s cs = some ((runSpec spec t cs).1, s') ∧ R s' (runSpec spec t cs).2 := by
  induction cs generalizing s t with
  | nil => exact ⟨s, rfl, hR⟩
  | cons c cs ih =>
    obtain ⟨s₁, hcall, hR₁⟩ := h s t c (hallowed c List.mem_cons_self) hR
    obtain ⟨s₂, hrun, hR₂⟩ := ih (fun c' hc' => hallowed c' (List.mem_cons_of_mem c hc')) hR₁
    refine ⟨s₂, ?_, hR₂⟩
    rw [Calls.run, hcall, Option.bind_some, hrun, Option.map_some, runSpec]

end Calls
