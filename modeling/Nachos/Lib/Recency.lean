import Mathlib.Data.List.Basic

/-!
# Which was used longest ago

A history lists what has been used, the latest first.  Among things never used, those of higher rank
count as older.  `age` turns the order into a number that grows by one with every use of something
else.
-/

namespace Recency

variable {α : Type*} [DecidableEq α]

/-- The last use of `a` lies further in the past than that of `b`. -/
def Older (rank : α → ℕ) (history : List α) (a b : α) : Prop :=
  if a ∈ history then b ∈ history ∧ history.idxOf b < history.idxOf a
  else b ∈ history ∨ rank b < rank a

def age (rank : α → ℕ) (history : List α) (a : α) : ℕ :=
  if a ∈ history then history.idxOf a else history.length + rank a

variable {rank : α → ℕ} {history : List α} {a b : α}

theorem age_nil : age rank [] a = rank a := by
  simp [age]

theorem age_cons_self : age rank (a :: history) a = 0 := by
  simp [age]

theorem age_cons_of_ne (h : b ≠ a) : age rank (a :: history) b = age rank history b + 1 := by
  unfold age
  by_cases hb : b ∈ history
  · simp [hb, List.idxOf_cons_ne history (Ne.symm h)]
  · rw [if_neg (by simp [h, hb]), if_neg hb, List.length_cons]
    omega

theorem older_iff : Older rank history a b ↔ age rank history b < age rank history a := by
  unfold Older age
  by_cases ha : a ∈ history
  · have hlt := List.idxOf_lt_length_iff.2 ha
    rw [if_pos ha, if_pos ha]
    by_cases hb : b ∈ history
    · rw [if_pos hb]
      exact and_iff_right hb
    · rw [if_neg hb]
      constructor
      · exact fun h => absurd h.1 hb
      · omega
  · rw [if_neg ha, if_neg ha]
    by_cases hb : b ∈ history
    · have hlt := List.idxOf_lt_length_iff.2 hb
      rw [if_pos hb]
      exact iff_of_true (Or.inl hb) (by omega)
    · rw [if_neg hb, or_iff_right hb, Nat.add_lt_add_iff_left]

/-- Different things have different ages. -/
theorem age_inj (hrank : Function.Injective rank) (h : age rank history a = age rank history b) :
    a = b := by
  unfold age at h
  by_cases ha : a ∈ history
  · have hlt := List.idxOf_lt_length_iff.2 ha
    by_cases hb : b ∈ history
    · rw [if_pos ha, if_pos hb] at h
      exact (List.idxOf_inj ha).1 h
    · rw [if_pos ha, if_neg hb] at h
      omega
  · by_cases hb : b ∈ history
    · have hlt := List.idxOf_lt_length_iff.2 hb
      rw [if_neg ha, if_pos hb] at h
      omega
    · rw [if_neg ha, if_neg hb] at h
      exact hrank (Nat.add_left_cancel h)

end Recency
