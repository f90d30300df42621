import Mathlib.Data.Finmap

/-!
# Bounded maps and tables of slots

A finite map that holds at most `n` keys, with calls that say whether they have done anything; and a
table of `n` slots that stores such a map in any order (`Stores`).  A key is added in a free slot and
removed by freeing its slot; a slot is free exactly when the map is not full.
-/

namespace BoundedMap

variable {κ ν : Type*} [DecidableEq κ]

/-- A new key is added when there is room. -/
def add (n : ℕ) (m : Finmap fun _ : κ => ν) (k : κ) (v : ν) : Bool × Finmap fun _ : κ => ν :=
  if k ∈ m ∨ n ≤ m.keys.card then (false, m) else (true, m.insert k v)

def remove (m : Finmap fun _ : κ => ν) (k : κ) : Bool × Finmap fun _ : κ => ν :=
  if k ∈ m then (true, m.erase k) else (false, m)

/-- The first `n` slots hold the entries of `m`, each key in one slot. -/
structure Stores (n : ℕ) (slot : ℕ → Option (κ × ν)) (m : Finmap fun _ : κ => ν) : Prop where
  lookup_iff : ∀ k v, m.lookup k = some v ↔ ∃ i < n, slot i = some (k, v)
  distinct : ∀ i < n, ∀ j < n, ∀ k v w, slot i = some (k, v) → slot j = some (k, w) → i = j

namespace Stores

variable {n : ℕ} {slot : ℕ → Option (κ × ν)} {m : Finmap fun _ : κ => ν} {i : ℕ} {k : κ} {v : ν}

theorem empty (h : ∀ i < n, slot i = none) : Stores n slot ∅ where
  lookup_iff k v := by
    rw [Finmap.lookup_empty]
    constructor
    · intro hlookup
      cases hlookup
    · rintro ⟨i, hi, hslot⟩
      rw [h i hi] at hslot
      cases hslot
  distinct i hi _ _ _ _ _ hslot := by
    rw [h i hi] at hslot
    cases hslot

theorem mem_iff (h : Stores n slot m) : k ∈ m ↔ ∃ i < n, ∃ v, slot i = some (k, v) := by
  rw [Finmap.mem_iff]
  constructor
  · rintro ⟨v, hv⟩
    obtain ⟨i, hi, hslot⟩ := (h.lookup_iff k v).1 hv
    exact ⟨i, hi, v, hslot⟩
  · rintro ⟨i, hi, v, hslot⟩
    exact ⟨v, (h.lookup_iff k v).2 ⟨i, hi, hslot⟩⟩

theorem insert (h : Stores n slot m) (hi : i < n) (hfree : slot i = none) (hk : k ∉ m) :
    Stores n (Function.update slot i (some (k, v))) (m.insert k v) where
  lookup_iff k' v' := by
    by_cases hkk : k' = k
    · subst hkk
      rw [Finmap.lookup_insert]
      constructor
      · rintro ⟨⟩
        exact ⟨i, hi, Function.update_self _ _ _⟩
      · rintro ⟨j, hj, hslot⟩
        by_cases hji : j = i
        · subst hji
          rw [Function.update_self] at hslot
          cases hslot
          rfl
        · rw [Function.update_of_ne hji] at hslot
          exact absurd (h.mem_iff.2 ⟨j, hj, v', hslot⟩) hk
    · rw [Finmap.lookup_insert_of_ne _ hkk, h.lookup_iff]
      apply exists_congr
      intro j
      by_cases hji : j = i
      · subst hji
        rw [Function.update_self, hfree]
        simp [Ne.symm hkk]
      · rw [Function.update_of_ne hji]
  distinct := by
    -- the key of slot `i` is in no other slot
    have hnew : ∀ j < n, ∀ w, j ≠ i → Function.update slot i (some (k, v)) j ≠ some (k, w) := by
      intro j hj w hji hslot
      rw [Function.update_of_ne hji] at hslot
      exact hk (h.mem_iff.2 ⟨j, hj, w, hslot⟩)
    intro j hj j' hj' k' v' w hslot hslot'
    by_cases hji : j = i
    · by_contra hne
      subst hji
      rw [Function.update_self] at hslot
      cases hslot
      exact hnew j' hj' w (Ne.symm hne) hslot'
    · by_cases hji' : j' = i
      · subst hji'
        rw [Function.update_self] at hslot'
        cases hslot'
        exact absurd hslot (hnew j hj v' hji)
      · rw [Function.update_of_ne hji] at hslot
        rw [Function.update_of_ne hji'] at hslot'
        exact h.distinct j hj j' hj' k' v' w hslot hslot'

theorem erase (h : Stores n slot m) (hi : i < n) (hslot : slot i = some (k, v)) :
    Stores n (Function.update slot i none) (m.erase k) where
  lookup_iff k' v' := by
    by_cases hkk : k' = k
    · subst hkk
      rw [Finmap.lookup_erase]
      constructor
      · intro hlookup
        cases hlookup
      · rintro ⟨j, hj, hslot'⟩
        by_cases hji : j = i
        · subst hji
          rw [Function.update_self] at hslot'
          cases hslot'
        · rw [Function.update_of_ne hji] at hslot'
          exact absurd (h.distinct j hj i hi k' v' v hslot' hslot) hji
    · rw [Finmap.lookup_erase_ne hkk, h.lookup_iff]
      apply exists_congr
      intro j
      by_cases hji : j = i
      · subst hji
        rw [Function.update_self, hslot]
        simp [Ne.symm hkk]
      · rw [Function.update_of_ne hji]
  distinct := by
    have hold : ∀ j p, Function.update slot i none j = some p → slot j = some p := by
      intro j p hj
      by_cases hji : j = i
      · subst hji
        rw [Function.update_self] at hj
        cases hj
      · rwa [Function.update_of_ne hji] at hj
    intro j hj j' hj' k' v' w hslot' hslot''
    exact h.distinct j hj j' hj' k' v' w (hold _ _ hslot') (hold _ _ hslot'')

/-- As many keys as slots in use. -/
theorem card_eq (h : Stores n slot m) :
    m.keys.card = ((Finset.range n).filter fun i => (slot i).isSome).card := by
  symm
  apply Finset.card_bij (fun i hi => ((slot i).get (Finset.mem_filter.1 hi).2).1)
  · intro i hi
    obtain ⟨hin, hsome⟩ := Finset.mem_filter.1 hi
    rw [Finmap.mem_keys, h.mem_iff]
    exact ⟨i, Finset.mem_range.1 hin, _, (Option.some_get hsome).symm⟩
  · intro i hi j hj heq
    obtain ⟨hin, hsome⟩ := Finset.mem_filter.1 hi
    obtain ⟨hjn, hsome'⟩ := Finset.mem_filter.1 hj
    obtain ⟨⟨k, v⟩, hslot⟩ := Option.isSome_iff_exists.1 hsome
    obtain ⟨⟨k', w⟩, hslot'⟩ := Option.isSome_iff_exists.1 hsome'
    simp only [hslot, hslot', Option.get_some] at heq
    subst heq
    exact h.distinct i (Finset.mem_range.1 hin) j (Finset.mem_range.1 hjn) k v w hslot hslot'
  · intro k hk
    obtain ⟨i, hi, v, hslot⟩ := h.mem_iff.1 (Finmap.mem_keys.1 hk)
    refine ⟨i, Finset.mem_filter.2 ⟨Finset.mem_range.2 hi, by rw [hslot]; rfl⟩, ?_⟩
    simp only [hslot, Option.get_some]

theorem card_le (h : Stores n slot m) : m.keys.card ≤ n := by
  rw [h.card_eq]
  exact (Finset.card_filter_le _ _).trans_eq (Finset.card_range n)

theorem card_lt_of_free (h : Stores n slot m) (hi : i < n) (hfree : slot i = none) :
    m.keys.card < n := by
  rw [h.card_eq]
  apply lt_of_lt_of_eq _ (Finset.card_range n)
  apply Finset.card_lt_card
  apply Finset.filter_ssubset.2
  exact ⟨i, Finset.mem_range.2 hi, by simp [hfree]⟩

theorem le_card_of_full (h : Stores n slot m) (hfull : ∀ i < n, slot i ≠ none) :
    n ≤ m.keys.card := by
  rw [h.card_eq, Finset.filter_true_of_mem, Finset.card_range]
  intro i hi
  exact Option.isSome_iff_ne_none.2 (hfull i (Finset.mem_range.1 hi))

end Stores

end BoundedMap
