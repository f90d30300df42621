import Mathlib.Data.Finset.Card
import Mathlib.Data.Fintype.Basic

/-!
# Processes at control points

A concurrent program is often described by a map `pc` from processes to control points, and its
invariants by how many processes stand at which points.  `procs P pc` is the set of processes whose
control point satisfies `P`; a step moves one process, i.e. updates `pc` at one place, and
`procs_update_pos`, `procs_update_neg` and `card_procs_update` say what that does to the set and
to its size.
-/

namespace Control

variable {τ ρ : Type*} [Fintype τ]

/-- The processes whose control point satisfies `P`. -/
def procs (P : ρ → Prop) [DecidablePred P] (pc : τ → ρ) : Finset τ :=
  Finset.univ.filter fun t => P (pc t)

variable {P : ρ → Prop} [DecidablePred P] {pc : τ → ρ} {t : τ} {b : ρ}

@[simp]
theorem mem_procs : t ∈ procs P pc ↔ P (pc t) := by
  simp [procs]

/-- Some process is at `P` exactly when the count is positive. -/
theorem card_procs_pos : 0 < (procs P pc).card ↔ ∃ t, P (pc t) := by
  rw [Finset.card_pos]
  constructor
  · rintro ⟨t, ht⟩
    exact ⟨t, mem_procs.mp ht⟩
  · rintro ⟨t, ht⟩
    exact ⟨t, mem_procs.mpr ht⟩

/-- Maps that a class of points `f` does not tell apart have the same processes in it. -/
theorem procs_class (f : ρ → Bool) {pc' : τ → ρ} (h : ∀ t, f (pc' t) = f (pc t)) :
    procs (fun p => f p) pc' = procs (fun p => f p) pc := by
  ext t
  simp [h t]

variable [DecidableEq τ]

omit [Fintype τ] in
/-- Moving a process between points that `f` does not tell apart is invisible to `f`. -/
theorem apply_update_eq {β : Type*} (f : ρ → β) (h : f b = f (pc t)) (u : τ) :
    f (Function.update pc t b u) = f (pc u) := by
  by_cases hu : u = t
  · rw [hu, Function.update_self, h]
  · rw [Function.update_of_ne hu]

/-- Moving a process to a point in `P` adds it. -/
theorem procs_update_pos (hb : P b) : procs P (Function.update pc t b) = insert t (procs P pc) := by
  ext u
  by_cases hu : u = t
  · subst hu; simp [hb]
  · simp [hu]

/-- Moving a process to a point outside `P` removes it. -/
theorem procs_update_neg (hb : ¬ P b) : procs P (Function.update pc t b) = (procs P pc).erase t := by
  ext u
  by_cases hu : u = t
  · subst hu; simp [hb]
  · simp [hu]

/-- A move of one process changes the count by the difference of the two points.  Stated as an
equation of sums, so that `omega` needs no truncated subtraction. -/
theorem card_procs_update (pc : τ → ρ) (t : τ) (b : ρ) :
    (procs P (Function.update pc t b)).card + (if P (pc t) then 1 else 0)
      = (procs P pc).card + (if P b then 1 else 0) := by
  by_cases hb : P b
  · rw [procs_update_pos hb, if_pos hb]
    by_cases ht : P (pc t)
    · rw [Finset.insert_eq_of_mem (by simpa using ht), if_pos ht]
    · rw [Finset.card_insert_of_notMem (by simpa using ht), if_neg ht]
  · rw [procs_update_neg hb, if_neg hb]
    by_cases ht : P (pc t)
    · rw [if_pos ht, Finset.card_erase_add_one (mem_procs.mpr ht), Nat.add_zero]
    · rw [Finset.erase_eq_of_notMem (by simpa using ht), if_neg ht]

theorem card_procs_enter (pc : τ → ρ) (b : ρ) (f : ρ → Bool) (ht : f (pc t) = false)
    (hb : f b = true) :
    (procs (fun p => f p) (Function.update pc t b)).card = (procs (fun p => f p) pc).card + 1 := by
  simpa [ht, hb] using card_procs_update (P := fun p => f p = true) pc t b

theorem card_procs_leave (pc : τ → ρ) (b : ρ) (f : ρ → Bool) (ht : f (pc t) = true)
    (hb : f b = false) :
    (procs (fun p => f p) (Function.update pc t b)).card + 1 = (procs (fun p => f p) pc).card := by
  simpa [ht, hb] using card_procs_update (P := fun p => f p = true) pc t b

end Control
