import Nachos.Threads.GlobalThreadManager

/-!
# Slots of the table of threads

How many slots hold a given thread, after a thread is added and after one is removed.
-/

namespace Nachos.GlobalThreadManager

variable {τ : Type} [DecidableEq τ] {m m' : GlobalThreadManager τ}

/-- How many slots hold the thread. -/
def slots (m : GlobalThreadManager τ) (t : τ) : ℕ := m.globalThreadList.count (some t)

theorem holds_iff (t : τ) : m.Holds t ↔ 0 < m.slots t := List.count_pos_iff.symm

theorem slots_new (t : τ) : (new : GlobalThreadManager τ).slots t = 0 := by
  unfold slots new
  rw [List.count_replicate]
  simp

theorem slots_add {t : τ} {pid : ℕ} (h : m.addNewThreadtoList t = some (m', pid)) (u : τ) :
    m'.slots u = m.slots u + if u = t then 1 else 0 := by
  obtain ⟨i, hfind, hset⟩ := Option.map_eq_some_iff.1 h
  obtain ⟨rfl, -⟩ := Prod.mk.inj hset
  obtain ⟨hlt, hnone, -⟩ := List.findIdx?_eq_some_iff_getElem.1 hfind
  rw [Option.isNone_iff_eq_none] at hnone
  unfold slots set
  rw [List.count_set hlt, hnone]
  by_cases hut : u = t
  · simp [hut]
  · simp [hut, Ne.symm hut]

theorem slots_remove (t u : τ) :
    (m.removeThreadFromList t).slots u = m.slots u - if u = t then 1 else 0 := by
  unfold removeThreadFromList
  split
  · rename_i i hfind
    obtain ⟨hlt, hheld, -⟩ := List.findIdx?_eq_some_iff_getElem.1 hfind
    rw [beq_iff_eq] at hheld
    unfold slots set
    rw [List.count_set hlt, hheld]
    by_cases hut : u = t
    · simp [hut]
    · simp [hut, Ne.symm hut]
  · rename_i hfind
    -- the thread has no slot
    rw [List.findIdx?_eq_none_iff] at hfind
    by_cases hut : u = t
    · subst hut
      have hzero : m.slots u = 0 := by
        apply List.count_eq_zero_of_not_mem
        intro hmem
        simpa using hfind _ hmem
      rw [hzero]
      simp
    · rw [if_neg hut, Nat.sub_zero]

/-- A thread without a slot is not removed. -/
theorem remove_of_slots_eq_zero {t : τ} (h : m.slots t = 0) : m.removeThreadFromList t = m := by
  have hfind : m.globalThreadList.findIdx? (· == some t) = none := by
    rw [List.findIdx?_eq_none_iff]
    intro x hx
    rw [beq_eq_false_iff_ne]
    rintro rfl
    exact List.count_eq_zero.1 h hx
  unfold removeThreadFromList
  rw [hfind]

/-! ### Which slot -/

omit [DecidableEq τ] in
/-- The new thread takes a slot that nobody had. -/
theorem getElem?_add {t : τ} {pid : ℕ} (h : m.addNewThreadtoList t = some (m', pid)) :
    m.globalThreadList[pid]? = some none ∧
      ∀ i, m'.globalThreadList[i]? = if i = pid then some (some t) else m.globalThreadList[i]? := by
  obtain ⟨i, hfind, hset⟩ := Option.map_eq_some_iff.1 h
  cases hset
  obtain ⟨hlt, hnone, -⟩ := List.findIdx?_eq_some_iff_getElem.1 hfind
  rw [Option.isNone_iff_eq_none] at hnone
  refine ⟨List.getElem?_eq_some_iff.2 ⟨hlt, hnone⟩, ?_⟩
  intro i
  unfold set
  rw [List.getElem?_set]
  by_cases hi : i = pid
  · subst hi
    simp [hlt]
  · simp [hi, Ne.symm hi]

/-- The other threads keep their slots. -/
theorem getElem?_remove {t u : τ} {i : ℕ} (hi : m.globalThreadList[i]? = some (some u))
    (hut : u ≠ t) : (m.removeThreadFromList t).globalThreadList[i]? = some (some u) := by
  unfold removeThreadFromList
  split
  · rename_i j hfind
    obtain ⟨hlt, hheld, -⟩ := List.findIdx?_eq_some_iff_getElem.1 hfind
    rw [beq_iff_eq] at hheld
    have hij : j ≠ i := by
      rintro rfl
      rw [List.getElem?_eq_getElem hlt, hheld] at hi
      cases hi
      exact hut rfl
    unfold set
    rw [List.getElem?_set_ne hij]
    exact hi
  · exact hi

end Nachos.GlobalThreadManager
