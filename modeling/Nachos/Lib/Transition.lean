import Mathlib.Logic.Function.Iterate
import Mathlib.Logic.Relation

/-!
# Labelled transition systems

`System σ α` is a set of initial states with a labelled step relation.  `Reachable` closes the
initial states under steps (a `Relation.ReflTransGen`), and `Reachable.invariant` is the one
induction over runs that every safety result below goes through: an invariant holds initially, is
preserved by a step, hence holds in every reachable state.

`restrict` keeps the steps that meet a condition on the state before the step, so that "in every
run whose steps all meet the condition" is reachability in the restricted system.
-/

namespace Transition

/-- Initial states and labelled steps. -/
structure System (σ α : Type*) where
  /-- The states a run may start in. -/
  init : σ → Prop
  /-- `step s a s'`: the system can move from `s` to `s'` by the action `a`. -/
  step : σ → α → σ → Prop

namespace System

variable {σ α : Type*} (S : System σ α)

/-- One step, whatever its label. -/
def Next (s s' : σ) : Prop := ∃ a, S.step s a s'

/-- The states some run from an initial state leads to. -/
def Reachable (s : σ) : Prop := ∃ s₀, S.init s₀ ∧ Relation.ReflTransGen S.Next s₀ s

/-- The steps of `S` whose label meets `G` in the state before the step. -/
def restrict (G : σ → α → Prop) : System σ α where
  init := S.init
  step s a s' := G s a ∧ S.step s a s'

variable {S} {s s' : σ} {as : List α}

theorem Reachable.of_init {s : σ} (h : S.init s) : S.Reachable s :=
  ⟨s, h, Relation.ReflTransGen.refl⟩

theorem Reachable.tail {a : α} (h : S.Reachable s) (hstep : S.step s a s') : S.Reachable s' := by
  obtain ⟨s₀, h₀, hrun⟩ := h
  exact ⟨s₀, h₀, hrun.tail ⟨a, hstep⟩⟩

/-- **The invariant rule**: what holds initially and is preserved by every step holds in every
reachable state. -/
theorem Reachable.invariant {Inv : σ → Prop} {s : σ} (h : S.Reachable s)
    (hinit : ∀ s, S.init s → Inv s) (hstep : ∀ s a s', Inv s → S.step s a s' → Inv s') : Inv s := by
  obtain ⟨s₀, h₀, hrun⟩ := h
  induction hrun with
  | refl => exact hinit s₀ h₀
  | tail _ hnext ih =>
    obtain ⟨a, ha⟩ := hnext
    exact hstep _ a _ ih ha

/-- A run whose steps meet a condition is a run. -/
theorem Reachable.of_restrict {G : σ → α → Prop} {s : σ} (h : (S.restrict G).Reachable s) :
    S.Reachable s := by
  apply h.invariant
  · intro s hs
    exact .of_init hs
  · intro s a s' hs hstep
    exact hs.tail hstep.2

/-- A run from `s` to `s'` with the labels `as`. -/
inductive Run (S : System σ α) : σ → List α → σ → Prop where
  | nil (s : σ) : Run S s [] s
  | cons {s s' s'' : σ} {a : α} {as : List α} (hstep : S.step s a s') (h : Run S s' as s'') :
      Run S s (a :: as) s''

theorem Run.trans {s s' s'' : σ} {as bs : List α} (h : S.Run s as s') (h' : S.Run s' bs s'') :
    S.Run s (as ++ bs) s'' := by
  induction h with
  | nil s => exact h'
  | cons hstep _ ih => exact .cons hstep (ih h')

theorem Run.reachable (h : S.Run s as s') (hs : S.Reachable s) : S.Reachable s' := by
  induction h with
  | nil s => exact hs
  | cons hstep _ ih => exact ih (hs.tail hstep)

theorem Run.concat_cases {s s'' : σ} {a : α} (h : S.Run s (as ++ [a]) s'') :
    ∃ s', S.Run s as s' ∧ S.step s' a s'' := by
  induction as generalizing s with
  | nil =>
    cases h with
    | cons hstep hrest =>
      cases hrest
      exact ⟨s, .nil s, hstep⟩
  | cons b as ih =>
    cases h with
    | cons hstep hrest =>
      obtain ⟨s', hrun, hlast⟩ := ih hrest
      exact ⟨s', .cons hstep hrun, hlast⟩

/-- Running a partial function of state and label whose every move is a step. -/
theorem Run.of_foldlM {f : σ → α → Option σ} (hf : ∀ s a s', f s a = some s' → S.step s a s')
    (h : as.foldlM f s = some s') : S.Run s as s' := by
  induction as generalizing s with
  | nil =>
    cases h
    exact .nil _
  | cons a as ih =>
    rw [List.foldlM_cons] at h
    obtain ⟨s₁, hstep, hrest⟩ := Option.bind_eq_some_iff.1 h
    exact .cons (hf s a s₁ hstep) (ih hrest)

/-- **The simulation rule**: when every step is, under `f`, a step of `T` with the same label, every
run is a run of `T`. -/
theorem Run.simulation {τ : Type*} {T : System τ α} {Inv : σ → Prop} {f : σ → τ} (h : S.Run s as s')
    (hs : Inv s) (hstep : ∀ s a s', Inv s → S.step s a s' → Inv s' ∧ T.step (f s) a (f s')) :
    Inv s' ∧ T.Run (f s) as (f s') := by
  induction h with
  | nil s => exact ⟨hs, .nil _⟩
  | cons hfirst _ ih =>
    obtain ⟨hs', hnext⟩ := hstep _ _ _ hs hfirst
    obtain ⟨hlast, hrun⟩ := ih hs'
    exact ⟨hlast, .cons hnext hrun⟩

/-- Running a partial function whose every move is a step. -/
theorem Reachable.iterate {f : σ → Option σ} (hf : ∀ s s', f s = some s' → S.Next s s') (n : ℕ)
    (h : S.Reachable s) (hn : (fun o => o.bind f)^[n] (some s) = some s') : S.Reachable s' := by
  induction n generalizing s' with
  | zero =>
    rw [Function.iterate_zero, id, Option.some.injEq] at hn
    exact hn ▸ h
  | succ n ih =>
    rw [Function.iterate_succ_apply', Option.bind_eq_some_iff] at hn
    obtain ⟨s₁, hrun, hlast⟩ := hn
    obtain ⟨a, ha⟩ := hf s₁ s' hlast
    exact (ih hrun).tail ha

end System

/-- Every run from `a` goes through `b`, or has not got there yet. -/
def Inevitable {σ : Type*} (r : σ → σ → Prop) (a b : σ) : Prop :=
  Relation.ReflTransGen r a b ∧
    ∀ c, Relation.ReflTransGen r a c → Relation.ReflTransGen r c b ∨ Relation.ReflTransGen r b c

theorem Inevitable.refl {σ : Type*} (r : σ → σ → Prop) (a : σ) : Inevitable r a a :=
  ⟨.refl, fun _ h => Or.inr h⟩

/-- A step that is the only one possible. -/
theorem Inevitable.head {σ : Type*} {r : σ → σ → Prop} {a b c : σ} (hstep : ∀ x, r a x ↔ x = b)
    (h : Inevitable r b c) : Inevitable r a c := by
  have hab : r a b := (hstep b).2 rfl
  refine ⟨h.1.head hab, ?_⟩
  intro x hx
  rcases hx.cases_head with rfl | ⟨y, hy, hyx⟩
  · exact Or.inl (h.1.head hab)
  · rw [(hstep y).1 hy] at hyx
    exact h.2 x hyx

end Transition
