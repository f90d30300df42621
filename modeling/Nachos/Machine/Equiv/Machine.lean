import Nachos.Machine.Machine
import Nachos.Userprog.Equiv.Bitmap

/-!
# Address translation

`WellMapped` is what the constructor establishes, and the page fault handler keeps: the valid entries
are those of the frames in use, each maps its own frame, and no two map the same page of a thread.
The loop of `Translate` then finds the one entry there is, and `translate_eq` says what the rest makes
of it.
-/

namespace Nachos.Machine

variable {m : Machine} {pid : ℤ} {v : CInt} {a : CInt} {j : ℕ}

structure WellMapped (m : Machine) : Prop where
  numBits : m.memoryMap.numBits = NumPhysPages
  valid_iff : ∀ j < NumPhysPages, (m.pageTable j).valid = true ↔ m.memoryMap.bit j = true
  physical : ∀ j < NumPhysPages, (m.pageTable j).valid = true →
    (m.pageTable j).physicalPage.toNat = j
  unique : ∀ i < NumPhysPages, ∀ j < NumPhysPages, (m.pageTable i).valid = true →
    (m.pageTable j).valid = true → (m.pageTable i).thread = (m.pageTable j).thread →
    (m.pageTable i).virtualPage = (m.pageTable j).virtualPage → i = j
  writable : ∀ j < NumPhysPages, (m.pageTable j).readOnly = false

theorem WellMapped.new (garbage : ℕ → BitVec 32) : WellMapped (new garbage) := by
  refine ⟨BitMap.numBits_new _ _, ?_, ?_, ?_, fun _ _ => rfl⟩
  · intro j hj
    rw [show (Machine.new garbage).memoryMap = BitMap.new garbage NumPhysPages from rfl,
      BitMap.bit_new garbage hj]
    exact Iff.rfl
  · intro j _ hvalid
    cases hvalid
  · intro i _ j _ hvalid
    cases hvalid

/-! ### The loop of `Translate` -/

theorem fits_iff : m.fits pid v j = true ↔ (m.pageTable j).virtualPage = v ∧
    (m.pageTable j).valid = true ∧ (m.pageTable j).thread = pid := by
  unfold fits
  exact decide_eq_true_iff

theorem foldl_last_mem (p : ℕ → Bool) (l : List ℕ) (start : Option ℕ) {j : ℕ}
    (h : l.foldl (fun entry j => if p j then some j else entry) start = some j) :
    start = some j ∨ j ∈ l ∧ p j = true := by
  induction l generalizing start with
  | nil => exact Or.inl h
  | cons i l ih =>
    rcases ih (if p i then some i else start) h with hstart | ⟨hmem, hp⟩
    · split_ifs at hstart with hi
      · cases hstart
        exact Or.inr ⟨List.mem_cons_self, hi⟩
      · exact Or.inl hstart
    · exact Or.inr ⟨List.mem_cons_of_mem _ hmem, hp⟩

theorem foldl_last_isSome (p : ℕ → Bool) (l : List ℕ) (start : Option ℕ)
    (h : start.isSome = true ∨ ∃ j ∈ l, p j = true) :
    (l.foldl (fun entry j => if p j then some j else entry) start).isSome = true := by
  induction l generalizing start with
  | nil => simpa using h
  | cons i l ih =>
    apply ih
    by_cases hi : p i = true
    · simp [hi]
    · rcases h with hstart | ⟨j, hj, hp⟩
      · simp [hi, hstart]
      · rcases List.mem_cons.1 hj with rfl | hj
        · exact absurd hp hi
        · exact Or.inr ⟨j, hj, hp⟩

theorem entryFor_eq_some (h : m.entryFor pid v = some j) :
    j < NumPhysPages ∧ m.fits pid v j = true := by
  rcases foldl_last_mem _ _ _ h with hnone | ⟨hmem, hfits⟩
  · cases hnone
  · exact ⟨List.mem_range.1 hmem, hfits⟩

theorem entryFor_eq_none (h : m.entryFor pid v = none) {j : ℕ} (hj : j < NumPhysPages) :
    m.fits pid v j = false := by
  rw [← Bool.not_eq_true]
  intro hfits
  have hsome := foldl_last_isSome (m.fits pid v) (List.range NumPhysPages) none
    (Or.inr ⟨j, List.mem_range.2 hj, hfits⟩)
  rw [show (List.range NumPhysPages).foldl _ none = _ from h] at hsome
  cases hsome

theorem WellMapped.entryFor_iff (h : m.WellMapped) :
    m.entryFor pid v = some j ↔ j < NumPhysPages ∧ m.fits pid v j = true := by
  constructor
  · exact entryFor_eq_some
  · rintro ⟨hj, hfits⟩
    cases hentry : m.entryFor pid v with
    | none =>
      rw [entryFor_eq_none hentry hj] at hfits
      cases hfits
    | some i =>
      obtain ⟨hi, hfits'⟩ := entryFor_eq_some hentry
      obtain ⟨hv, hvalid, hpid⟩ := fits_iff.1 hfits
      obtain ⟨hv', hvalid', hpid'⟩ := fits_iff.1 hfits'
      rw [h.unique i hi j hj hvalid' hvalid (hpid'.trans hpid.symm) (hv'.trans hv.symm)]

/-! ### Addresses -/

theorem toNat_vpn (a : CInt) : (vpn a).toNat = a.toNat / PageSize := BitVec.toNat_udiv

theorem toNat_offset (a : CInt) : (offset a).toNat = a.toNat % PageSize := BitVec.toNat_umod

/-- An access of an accepted size that is aligned stays within its page. -/
theorem offset_add_size_le {size : ℕ} (hsize : size = 1 ∨ size = 2 ∨ size = 4)
    (haligned : misaligned a size = false) : a.toNat % PageSize + size ≤ PageSize := by
  rw [misaligned, decide_eq_false_iff_not, not_or] at haligned
  show a.toNat % 128 + size ≤ 128
  rcases hsize with rfl | rfl | rfl
  · omega
  · have hand : a &&& 0x1 = 0 := by
      by_contra hne
      exact haligned.2 ⟨rfl, hne⟩
    have hmod : a.toNat % 2 = 0 := by
      have hnat := congrArg BitVec.toNat hand
      rwa [BitVec.toNat_and, show (0x1 : CInt).toNat = 2 ^ 1 - 1 from rfl,
        Nat.and_two_pow_sub_one_eq_mod] at hnat
    omega
  · have hand : a &&& 0x3 = 0 := by
      by_contra hne
      exact haligned.1 ⟨rfl, hne⟩
    have hmod : a.toNat % 4 = 0 := by
      have hnat := congrArg BitVec.toNat hand
      rwa [BitVec.toNat_and, show (0x3 : CInt).toNat = 2 ^ 2 - 1 from rfl,
        Nat.and_two_pow_sub_one_eq_mod] at hnat
    omega

/-- Page number and offset determine the address. -/
theorem eq_of_vpn_of_offset {a b : CInt} (hvpn : vpn a = vpn b)
    (hoffset : a.toNat % PageSize = b.toNat % PageSize) : a = b := by
  have hnat := congrArg BitVec.toNat hvpn
  rw [toNat_vpn, toNat_vpn] at hnat
  apply BitVec.eq_of_toNat_eq
  rw [← Nat.div_add_mod a.toNat PageSize, hnat, hoffset, Nat.div_add_mod]

/-- **Address translation**, for accesses of the accepted sizes: the exceptions left are those for
misaligned addresses and page faults, and the `ASSERT` does not fail. -/
theorem WellMapped.translate_eq (h : m.WellMapped) {size : ℕ} {writing : Bool}
    (hsize : size = 1 ∨ size = 2 ∨ size = 4) :
    m.translate pid a size writing =
      if misaligned a size then some (.error .addressErrorException)
      else match m.entryFor pid (vpn a) with
        | none => some (.error .pageFaultException)
        | some j => some (.ok (j * PageSize + a.toNat % PageSize, m.touch j writing)) := by
  unfold translate
  by_cases haligned : misaligned a size = true
  · rw [if_pos haligned, if_pos haligned]
  rw [if_neg haligned, if_neg haligned]
  rw [Bool.not_eq_true] at haligned
  cases hentry : m.entryFor pid (vpn a) with
  | none => rfl
  | some j =>
    obtain ⟨hj, hfits⟩ := entryFor_eq_some hentry
    have hphysical := h.physical j hj (fits_iff.1 hfits).2.1
    have hle := offset_add_size_le hsize haligned
    dsimp only
    rw [if_neg (by simp [h.writable j hj]), hphysical, if_neg (by omega), toNat_offset, if_pos]
    show j * 128 + a.toNat % 128 + size ≤ 32 * 128
    have hj' : j < 32 := hj
    have hle' : a.toNat % 128 + size ≤ 128 := hle
    omega

/-! ### Use and dirty bits -/

theorem pageTable_touch (i : ℕ) (writing : Bool) (j : ℕ) :
    ((m.touch i writing).pageTable j).valid = (m.pageTable j).valid ∧
      ((m.touch i writing).pageTable j).physicalPage = (m.pageTable j).physicalPage ∧
      ((m.touch i writing).pageTable j).thread = (m.pageTable j).thread ∧
      ((m.touch i writing).pageTable j).virtualPage = (m.pageTable j).virtualPage ∧
      ((m.touch i writing).pageTable j).readOnly = (m.pageTable j).readOnly := by
  unfold Machine.touch
  by_cases hij : j = i
  · subst hij
    simp
  · simp [Function.update_of_ne hij]

theorem fits_touch (i : ℕ) (writing : Bool) : (m.touch i writing).fits pid v j = m.fits pid v j := by
  obtain ⟨hvalid, -, hthread, hpage, -⟩ := @pageTable_touch m i writing j
  unfold fits
  rw [hvalid, hthread, hpage]

theorem WellMapped.touch (h : m.WellMapped) (i : ℕ) (writing : Bool) :
    (m.touch i writing).WellMapped := by
  have hentry := @pageTable_touch m i writing
  refine ⟨h.numBits, ?_, ?_, ?_, ?_⟩
  · intro j hj
    rw [(hentry j).1]
    exact h.valid_iff j hj
  · intro j hj hvalid
    rw [(hentry j).1] at hvalid
    rw [(hentry j).2.1]
    exact h.physical j hj hvalid
  · intro i' hi j hj hvi hvj hthread hpage
    rw [(hentry _).1] at hvi hvj
    rw [(hentry _).2.2.1, (hentry _).2.2.1] at hthread
    rw [(hentry _).2.2.2.1, (hentry _).2.2.2.1] at hpage
    exact h.unique i' hi j hj hvi hvj hthread hpage
  · intro j hj
    rw [(hentry j).2.2.2.2]
    exact h.writable j hj

theorem entryFor_touch (i : ℕ) (writing : Bool) :
    (m.touch i writing).entryFor pid v = m.entryFor pid v := by
  unfold entryFor
  simp only [fits_touch]

end Nachos.Machine
