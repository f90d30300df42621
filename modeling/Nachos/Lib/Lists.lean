import Mathlib.Data.List.GetD
import Mathlib.Data.List.Nodup
import Mathlib.Data.Nat.Notation
import Mathlib.Order.Defs.PartialOrder

/-!
# Lists and results

Elements by position with a default, updates one after the other, and the results of `Except`.
-/

namespace List

variable {α : Type} {l : List α} {a : α}

theorem getD_mem_of_lt {j : ℕ} (hj : j < l.length) : l.getD j a ∈ l := by
  rw [getD_eq_getElem _ _ hj]
  exact l.getElem_mem hj

theorem getD_inj_of_nodup (hnd : l.Nodup) {j k : ℕ} (hj : j < l.length) (hk : k < l.length)
    (heq : l.getD j a = l.getD k a) : j = k := by
  rw [getD_eq_getElem _ _ hj, getD_eq_getElem _ _ hk] at heq
  exact hnd.getElem_inj_iff.mp heq

/-- The first `n` elements of an increasing list are below `c` when it has `n` elements below
`c`. -/
theorem getD_lt_iff_of_sorted [Preorder α] [DecidableLT α] (hl : l.Pairwise (· < ·)) {n : ℕ} {c : α}
    (hn : n < l.length) : l.getD n a < c ↔ n + 1 ≤ (l.filter (· < c)).length := by
  induction l generalizing n with
  | nil => simp at hn
  | cons b l ih =>
    obtain ⟨hb, hl'⟩ := pairwise_cons.mp hl
    by_cases hbc : b < c
    · rw [filter_cons_of_pos (by simpa using hbc), length_cons]
      cases n with
      | zero => simpa using hbc
      | succ n =>
        rw [getD_cons_succ, ih hl' (by simpa using hn)]
        omega
    · -- nothing behind `b` is smaller
      have hge : ∀ x ∈ b :: l, ¬ x < c := by
        intro x hx
        rcases mem_cons.mp hx with rfl | hx
        · exact hbc
        · exact fun hxc => hbc (lt_trans (hb x hx) hxc)
      have hnone : (b :: l).filter (· < c) = [] := by
        rw [filter_eq_nil_iff]
        simpa using hge
      rw [hnone, length_nil]
      exact iff_of_false (hge _ (getD_mem_of_lt hn)) (by omega)

theorem foldl_update_apply {ι β : Type} [DecidableEq ι] (l : List ι) (f g : ι → β) (j : ι) :
    l.foldl (fun u i => Function.update u i (f i)) g j = if j ∈ l then f j else g j := by
  induction l generalizing g with
  | nil => rfl
  | cons i l ih =>
    rw [foldl_cons, ih]
    by_cases hl : j ∈ l
    · simp [hl]
    · by_cases hj : j = i
      · subst hj
        simp [hl]
      · simp [hl, hj]

end List

namespace Except

variable {ε α β : Type} {x : Except ε α}

theorem map_eq_ok {f : α → β} {b : β} : x.map f = .ok b ↔ ∃ a, x = .ok a ∧ f a = b := by
  cases x with
  | error e => simp [Except.map]
  | ok a => simp [Except.map]

theorem exists_ok (h : x.toOption.isSome) : ∃ a, x = .ok a := by
  cases x with
  | error e => cases h
  | ok a => exact ⟨a, rfl⟩

end Except
