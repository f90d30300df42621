import Nachos.Machine.Equiv.Machine
import Nachos.Userprog.Exception

/-!
# What the page fault handler does

The first half maps a frame that was free, for a page the thread did not have, and keeps everything
else mapped as it was.  The second half fills the frame.
-/

namespace Nachos.Machine

open Memory

variable {m m' : Machine} {pid : ℤ} {a : CInt} {f : ℕ}

theorem allocatePage_eq (h : m.allocatePage pid a = some (f, m')) :
    f < m.memoryMap.numBits ∧ m.memoryMap.bit f = false ∧
      m' = { m with
        memoryMap := m.memoryMap.setBit f
        pageTable := Function.update m.pageTable f { m.pageTable f with
          virtualPage := vpn a, physicalPage := int f, valid := true, thread := pid } } := by
  unfold allocatePage at h
  cases hclears : m.memoryMap.clears with
  | nil =>
    rw [BitMap.find_of_full hclears] at h
    cases h
  | cons i l =>
    have hmem : i ∈ m.memoryMap.clears := by simp [hclears]
    obtain ⟨hi, hbit⟩ := BitMap.mem_clears.1 hmem
    rw [BitMap.find_of_clears hclears] at h
    dsimp only at h
    rw [if_neg (by omega), Int.toNat_natCast] at h
    cases h
    exact ⟨hi, hbit, rfl⟩

theorem exists_allocatePage (pid : ℤ) (a : CInt) {j : ℕ} (hj : j < m.memoryMap.numBits)
    (hfree : m.memoryMap.bit j = false) : ∃ f m', m.allocatePage pid a = some (f, m') := by
  have hmem : j ∈ m.memoryMap.clears := BitMap.mem_clears.2 ⟨hj, hfree⟩
  obtain ⟨i, l, hclears⟩ := List.exists_cons_of_ne_nil (List.ne_nil_of_mem hmem)
  unfold allocatePage
  rw [BitMap.find_of_clears hclears]
  dsimp only
  rw [if_neg (by omega)]
  exact ⟨_, _, rfl⟩

/-- A page is mapped to the new frame, and to no other. -/
theorem fits_allocatePage (h : m.allocatePage pid a = some (f, m')) (pid' : ℤ) (v : CInt) (j : ℕ) :
    m'.fits pid' v j = if j = f then decide (v = vpn a ∧ pid' = pid) else m.fits pid' v j := by
  obtain ⟨-, -, rfl⟩ := allocatePage_eq h
  unfold fits
  by_cases hj : j = f
  · subst hj
    simp [eq_comm]
  · simp [hj]

theorem WellMapped.allocatePage (h : m.WellMapped) (hnone : m.entryFor pid (vpn a) = none)
    (halloc : m.allocatePage pid a = some (f, m')) : m'.WellMapped := by
  obtain ⟨hf, hbit, hm'⟩ := allocatePage_eq halloc
  rw [h.numBits] at hf
  have hself : m'.pageTable f = { m.pageTable f with
      virtualPage := vpn a, physicalPage := int f, valid := true, thread := pid } := by
    rw [hm']
    exact Function.update_self _ _ _
  have hother : ∀ j, j ≠ f → m'.pageTable j = m.pageTable j := by
    intro j hj
    rw [hm']
    exact Function.update_of_ne hj _ _
  -- no other entry maps the page
  have hfresh : ∀ j < NumPhysPages, j ≠ f → (m'.pageTable j).valid = true →
      (m'.pageTable j).thread = pid → (m'.pageTable j).virtualPage ≠ vpn a := by
    intro j hj hjf hvalid hthread hpage
    rw [hother j hjf] at hvalid hthread hpage
    have hfits := entryFor_eq_none hnone hj
    rw [fits_iff.2 ⟨hpage, hvalid, hthread⟩] at hfits
    cases hfits
  refine ⟨?_, ?_, ?_, ?_, ?_⟩
  · rw [hm']
    exact h.numBits
  · intro j hj
    have hset : m'.memoryMap.bit j = (decide (j = f) || m.memoryMap.bit j) := by
      rw [hm']
      exact BitMap.bit_setBit _ _ _
    rw [hset]
    by_cases hjf : j = f
    · subst hjf
      rw [hself]
      simp
    · rw [hother j hjf]
      simpa [hjf] using h.valid_iff j hj
  · intro j hj hvalid
    by_cases hjf : j = f
    · subst hjf
      rw [hself]
      exact toNat_int_natCast (hj.trans (by decide))
    · rw [hother j hjf] at hvalid ⊢
      exact h.physical j hj hvalid
  · intro i hi j hj hvi hvj hthread hpage
    by_cases hif : i = f
    · by_cases hjf : j = f
      · rw [hif, hjf]
      · rw [hif, hself] at hthread hpage
        exact absurd hpage.symm (hfresh j hj hjf hvj hthread.symm)
    · by_cases hjf : j = f
      · rw [hjf, hself] at hthread hpage
        exact absurd hpage (hfresh i hi hif hvi hthread)
      · rw [hother i hif, hother j hjf] at hthread hpage
        rw [hother i hif] at hvi
        rw [hother j hjf] at hvj
        exact h.unique i hi j hj hvi hvj hthread hpage
  · intro j hj
    by_cases hjf : j = f
    · subst hjf
      rw [hself]
      exact h.writable j hj
    · rw [hother j hjf]
      exact h.writable j hj

/-- Filling the frame leaves the page table alone. -/
theorem loadPage_eq {file : File} (h : m.loadPage file f a = some m') :
    m' = { m with mainMemory := m'.mainMemory } := by
  unfold loadPage at h
  obtain ⟨into, -, hinto⟩ := Option.bind_eq_some_iff.1 h
  cases hinto
  rfl

end Nachos.Machine
