import Mathlib.Tactic.Ring
import Nachos.Userprog.Equiv.Paging
import Nachos.Userprog.FlatMemory

/-!
# Demand paging refines flat memory

A page fault changes nothing that can be seen: the page had the bytes of the file before, as it was
not mapped, and has them while it is being loaded.  Loading puts the same bytes into the frame, which
was zero, where the file has ended.  After that an access works on the frame, and frames of different
pages are different.
-/

namespace Nachos

open Memory

namespace Machine

variable {m m' : Machine} {pid : ℤ} {a : CInt} {f p size : ℕ} {file : File}

/-- The bytes of a word in memory are those of its value. -/
theorem byteOf_eq (v : CInt) (k : ℕ) : byteOf v k = BitVec.ofNat 8 (v.toNat / 2 ^ (8 * k)) := by
  apply BitVec.eq_of_toNat_eq
  rw [byteOf, BitVec.extractLsb'_toNat, Nat.shiftRight_eq_div_pow, BitVec.toNat_ofNat]

theorem toNat_append_byte {w : ℕ} (x : BitVec w) (y : Byte) :
    (x ++ y).toNat = y.toNat + 2 ^ 8 * x.toNat := by
  rw [BitVec.toNat_append, ← Nat.shiftLeft_add_eq_or_of_lt y.isLt, Nat.shiftLeft_eq]
  ring

/-- `ReadMem` returns the value of the bytes at the physical address. -/
theorem readValue_eq (m : Machine) (p size : ℕ) :
    m.readValue p size = FlatMemory.value m.mainMemory p size := by
  unfold readValue FlatMemory.value
  match size with
  | 0 => rfl
  | 1 => rfl
  | 2 =>
    apply congrArg some
    apply BitVec.eq_of_toNat_eq
    rw [BitVec.toNat_setWidth, toNat_append_byte, BitVec.toNat_ofNat]
  | 3 => rfl
  | 4 =>
    apply congrArg some
    apply BitVec.eq_of_toNat_eq
    rw [toNat_append_byte, toNat_append_byte, toNat_append_byte, BitVec.toNat_ofNat,
      Nat.mod_eq_of_lt]
    · ring
    · have h₀ := (m.mainMemory p).isLt
      have h₁ := (m.mainMemory (p + 1)).isLt
      have h₂ := (m.mainMemory (p + 2)).isLt
      have h₃ := (m.mainMemory (p + 3)).isLt
      omega
  | n + 5 => rfl

theorem value_congr {mem mem' : Buf} {a a' size : ℕ} (h : ∀ k < size, mem (a + k) = mem' (a' + k)) :
    FlatMemory.value mem a size = FlatMemory.value mem' a' size := by
  unfold FlatMemory.value
  split
  · rw [show mem a = mem' a' from h 0 (by omega)]
  · rw [show mem a = mem' a' from h 0 (by omega), h 1 (by omega)]
  · rw [show mem a = mem' a' from h 0 (by omega), h 1 (by omega), h 2 (by omega), h 3 (by omega)]
  · rfl

/-- `WriteMem` stores the bytes of the value at the physical address. -/
theorem writeValue_eq {v : CInt} (h : m.writeValue p v size = some m') :
    (size = 1 ∨ size = 2 ∨ size = 4) ∧
      m' = { m with mainMemory := FlatMemory.store m.mainMemory p size v } := by
  unfold writeValue at h
  split_ifs at h with hsize
  refine ⟨hsize, ?_⟩
  cases h
  congr 1
  funext x
  unfold Bytes.copy FlatMemory.store
  rw [byteOf_eq]

theorem codePos_eq (h : a.toNat < 2 ^ 31) : codePos a = (a.toNat / PageSize * PageSize : ℕ) := by
  have hle : a.toNat / PageSize * PageSize ≤ a.toNat := Nat.div_mul_le_self _ _
  have hnat : (vpn a * BitVec.ofNat 32 PageSize).toNat = a.toNat / PageSize * PageSize := by
    rw [BitVec.toNat_mul, toNat_vpn]
    exact Nat.mod_eq_of_lt (by show a.toNat / PageSize * PageSize < 2 ^ 32; omega)
  rw [codePos, BitVec.toInt_eq_toNat_of_lt (by omega), hnat]

/-- The page that is loaded into a frame of zeros. -/
theorem loadPage_mainMemory (hload : m.loadPage file f a = some m') (ha : a.toNat < 2 ^ 31)
    (hf : (m.pageTable f).physicalPage.toNat = f)
    (hzero : ∀ k < PageSize, m.mainMemory (f * PageSize + k) = 0) (x : ℕ) :
    m'.mainMemory x = if f * PageSize ≤ x ∧ x < f * PageSize + PageSize then
      file.byteAt (a.toNat / PageSize * PageSize + (x - f * PageSize)) else m.mainMemory x := by
  unfold loadPage at hload
  rw [hf, codePos_eq ha] at hload
  obtain ⟨into, hinto, hm'⟩ := Option.bind_eq_some_iff.1 hload
  cases hm'
  show Bytes.copy into m.mainMemory (f * PageSize) PageSize x = _
  unfold Bytes.copy
  split_ifs with hx
  · have hk : x - f * PageSize < PageSize := by omega
    rw [File.readAt_apply hinto hk, File.byteAt]
    split_ifs
    · rfl
    · exact hzero _ hk
  · rfl

end Machine

namespace Paging

open Machine

variable {file : File} {s s' : State} {m m' m₁ m₂ : Machine} {serving : ℤ → Option (Access × ℕ)}
  {pid : ℤ} {access : Access} {result : Option CInt} {a : CInt} {f j k p size x : ℕ}

/-! ### Pages -/

theorem vpn_eq_iff (hx : x < 2 ^ 31) :
    vpn (BitVec.ofNat 32 x) = vpn a ↔ x / PageSize = a.toNat / PageSize := by
  rw [← BitVec.toNat_inj, toNat_vpn, toNat_vpn, BitVec.toNat_ofNat, Nat.mod_eq_of_lt (by omega)]

/-- The bytes of an access are in one page. -/
theorem vpn_add (ha : a.toNat < 2 ^ 31) (hk : a.toNat % PageSize + k < PageSize) :
    a.toNat + k < 2 ^ 31 ∧ (a.toNat + k) % PageSize = a.toNat % PageSize + k ∧
      vpn (BitVec.ofNat 32 (a.toNat + k)) = vpn a := by
  have hk' : a.toNat % 128 + k < 128 := hk
  have hlt : a.toNat + k < 2 ^ 31 := by omega
  refine ⟨hlt, ?_, (vpn_eq_iff hlt).2 ?_⟩
  · show (a.toNat + k) % 128 = a.toNat % 128 + k
    omega
  · show (a.toNat + k) / 128 = a.toNat / 128
    omega

/-- What the thread sees in a frame that is filled. -/
theorem view_of_entryFor (hentry : s.machine.entryFor pid (vpn (BitVec.ofNat 32 x)) = some j)
    (hx : x < 2 ^ 31) (hfilled : ¬ s.Loading pid j) :
    s.view file pid x = s.machine.mainMemory (j * PageSize + x % PageSize) := by
  unfold State.view
  rw [hentry]
  exact if_pos ⟨hx, hfilled⟩

/-- Before a page has a frame, and until the frame is filled, the thread sees the file. -/
theorem view_eq_byteAt (h : ∀ j, s.machine.entryFor pid (vpn (BitVec.ofNat 32 x)) = some j →
    s.Loading pid j) : s.view file pid x = file.byteAt x := by
  unfold State.view
  split
  · rename_i j hentry
    exact if_neg (fun hseen => hseen.2 (h j hentry))
  · rfl

theorem view_congr (hentry : s'.machine.entryFor pid (vpn (BitVec.ofNat 32 x)) =
      s.machine.entryFor pid (vpn (BitVec.ofNat 32 x)))
    (hframe : x < 2 ^ 31 → ∀ j, s.machine.entryFor pid (vpn (BitVec.ofNat 32 x)) = some j →
      (s'.Loading pid j ↔ s.Loading pid j) ∧
        s'.machine.mainMemory (j * PageSize + x % PageSize) =
          s.machine.mainMemory (j * PageSize + x % PageSize)) :
    s'.view file pid x = s.view file pid x := by
  unfold State.view
  rw [hentry]
  cases hj : s.machine.entryFor pid (vpn (BitVec.ofNat 32 x)) with
  | none => rfl
  | some j =>
    by_cases hx : x < 2 ^ 31
    · obtain ⟨hloading, hmemory⟩ := hframe hx j hj
      simp only [hloading, hmemory]
    · simp only [hx, false_and, if_false]

theorem not_loading (hidle : serving pid = none) : ¬ (State.mk m serving).Loading pid j := by
  show (serving pid).map Prod.snd ≠ some j
  rw [hidle]
  nofun

/-- The use and dirty bits cannot be seen. -/
theorem view_touch (i : ℕ) (writing : Bool) :
    State.view file ⟨m.touch i writing, serving⟩ = State.view file ⟨m, serving⟩ := by
  funext pid' x
  unfold State.view
  dsimp only
  rw [entryFor_touch]
  rfl

/-! ### Accesses -/

section Access

variable (h : m.WellMapped) (hj : j < NumPhysPages) (hfits : m.fits pid (vpn a) j = true)
  (ha : a.toNat < 2 ^ 31) (hidle : serving pid = none)

include h hj hfits ha hidle

/-- The bytes of an access are where the thread sees them. -/
theorem view_add (hk : a.toNat % PageSize + k < PageSize) :
    State.view file ⟨m, serving⟩ pid (a.toNat + k) =
      m.mainMemory (j * PageSize + a.toNat % PageSize + k) := by
  obtain ⟨hlt, hmod, hpage⟩ := vpn_add ha hk
  have hentry : (State.mk m serving).machine.entryFor pid (vpn (BitVec.ofNat 32 (a.toNat + k))) =
      some j := by
    rw [hpage]
    exact h.entryFor_iff.2 ⟨hj, hfits⟩
  rw [view_of_entryFor hentry hlt (not_loading hidle), hmod, Nat.add_assoc]

/-- Storing in the frame of a page is storing in the array of its thread, and in no other. -/
theorem view_store (hle : a.toNat % PageSize + size ≤ PageSize) (v : CInt) :
    State.view file
        ⟨{ m with
          mainMemory :=
            FlatMemory.store m.mainMemory (j * PageSize + a.toNat % PageSize) size v }, serving⟩ =
      Function.update (State.view file ⟨m, serving⟩) pid
        (FlatMemory.store (State.view file ⟨m, serving⟩ pid) a.toNat size v) := by
  have hle' : a.toNat % 128 + size ≤ 128 := hle
  set m' : Machine := { m with
    mainMemory := FlatMemory.store m.mainMemory (j * PageSize + a.toNat % PageSize) size v }
  funext pid' x
  by_cases hx : pid' = pid ∧ a.toNat ≤ x ∧ x < a.toNat + size
  · obtain ⟨rfl, hax, hxs⟩ := hx
    obtain ⟨k, rfl⟩ := Nat.exists_eq_add_of_le hax
    have hfits' : m'.fits pid' (vpn a) j = true := hfits
    rw [view_add (h.of_memory _) hj hfits' ha hidle (show a.toNat % 128 + k < 128 by omega),
      Function.update_self]
    unfold FlatMemory.store
    rw [if_pos ⟨hax, hxs⟩]
    show FlatMemory.store _ _ _ _ _ = _
    unfold FlatMemory.store
    rw [if_pos (by omega), Nat.add_sub_cancel_left, Nat.add_sub_cancel_left]
  · have hright : Function.update (State.view file ⟨m, serving⟩) pid
        (FlatMemory.store (State.view file ⟨m, serving⟩ pid) a.toNat size v) pid' x =
        State.view file ⟨m, serving⟩ pid' x := by
      by_cases hpid : pid' = pid
      · subst hpid
        rw [Function.update_self, FlatMemory.store, if_neg (fun hin => hx ⟨rfl, hin⟩)]
      · rw [Function.update_of_ne hpid]
    rw [hright]
    unfold State.view
    have hsame : m'.entryFor pid' (vpn (BitVec.ofNat 32 x)) =
        m.entryFor pid' (vpn (BitVec.ofNat 32 x)) := rfl
    dsimp only
    rw [hsame]
    cases hentry : m.entryFor pid' (vpn (BitVec.ofNat 32 x)) with
    | none => rfl
    | some j' =>
      dsimp only
      split_ifs with hseen
      · -- the byte is in another frame, or in this one and not of the access
        show FlatMemory.store _ _ _ _ _ = _
        unfold FlatMemory.store
        rw [if_neg]
        rintro ⟨hge, hlt⟩
        change j * 128 + a.toNat % 128 ≤ j' * 128 + x % 128 at hge
        change j' * 128 + x % 128 < j * 128 + a.toNat % 128 + size at hlt
        obtain rfl : j' = j := by omega
        obtain ⟨hpage, -, hthread⟩ := fits_iff.1 hfits
        obtain ⟨hpage', -, hthread'⟩ := fits_iff.1 (entryFor_eq_some hentry).2
        have hdiv : x / 128 = a.toNat / 128 := (vpn_eq_iff hseen.1).1 (hpage'.symm.trans hpage)
        exact hx ⟨hthread'.symm.trans hthread, by omega, by omega⟩
      · rfl

end Access

/-- The end of an access, for a thread that is not in the handler. -/
theorem access_flat (h : m.WellMapped) (hidle : serving pid = none) (ha : access.addr.toNat < 2 ^ 31)
    (htranslate : translate m pid access = some (.ok (p, m₁)))
    (hperform : perform m₁ p access = some (result, m₂)) :
    FlatMemory.Step (State.view file ⟨m, serving⟩) (.done pid access result)
      (State.view file ⟨m₂, serving⟩) := by
  obtain ⟨hsize, -⟩ := perform_eq hperform
  obtain ⟨j, hj, hfits, haligned, rfl, -, rfl⟩ := h.translate_ok_iff.1 htranslate
  have hle := offset_add_size_le hsize haligned
  cases access with
  | read a size =>
    obtain ⟨v, hv, heq⟩ := Option.map_eq_some_iff.1 hperform
    cases heq
    rw [readValue_eq] at hv
    rw [show (Access.read a size).writing = false from rfl, view_touch]
    apply FlatMemory.Step.read
    rw [← hv]
    apply value_congr
    intro k hk
    exact view_add h hj hfits ha hidle (Nat.lt_of_lt_of_le (Nat.add_lt_add_left hk _) hle)
  | write a size v =>
    obtain ⟨m', hm', heq⟩ := Option.map_eq_some_iff.1 hperform
    cases heq
    obtain ⟨hsize, rfl⟩ := writeValue_eq hm'
    dsimp only [Access.addr, Access.size] at ha hfits hle
    -- the bits and the bytes are set in either order
    show FlatMemory.Step _ _ (State.view file ⟨Machine.touch { m with
      mainMemory := FlatMemory.store m.mainMemory (j * PageSize + a.toNat % PageSize) size v }
      j true, serving⟩)
    rw [view_touch, view_store h hj hfits ha hidle hle v]
    exact .write hsize

/-! ### The invariant -/

/-- What holds between steps: the thread in the handler has the frame it will fill, and frames that
are free, or not filled yet, are zero. -/
structure Consistent (s : State) : Prop where
  mapped : s.machine.WellMapped
  serving : ∀ pid access f, s.serving pid = some (access, f) →
    f < NumPhysPages ∧ s.machine.fits pid (vpn access.addr) f = true ∧ access.Regular
  zero : ∀ j < NumPhysPages, s.machine.memoryMap.bit j = false ∨ (∃ pid, s.Loading pid j) →
    ∀ k < PageSize, s.machine.mainMemory (j * PageSize + k) = 0

theorem Consistent.start (garbage : ℕ → BitVec 32) :
    Consistent ⟨.new garbage, fun _ => none⟩ := by
  refine ⟨.new garbage, ?_, fun _ _ _ _ _ => rfl⟩
  intro pid access f hserving
  cases hserving

/-- A frame in use is not free, and only its own thread can be loading it. -/
theorem Consistent.ne_of_fits (h : Consistent s) {v : CInt} {i : ℕ} (hi : i < NumPhysPages)
    (hfits : s.machine.fits pid v i = true)
    (hj : s.machine.memoryMap.bit j = false ∨ ∃ pid', pid' ≠ pid ∧ s.Loading pid' j) : j ≠ i := by
  rintro rfl
  obtain ⟨-, hvalid, hthread⟩ := fits_iff.1 hfits
  rcases hj with hfree | ⟨pid', hne, hloading⟩
  · rw [(h.mapped.valid_iff j hi).1 hvalid] at hfree
    cases hfree
  · obtain ⟨⟨access, f⟩, hserving, rfl⟩ := Option.map_eq_some_iff.1 hloading
    obtain ⟨-, hfits', -⟩ := h.serving pid' access f hserving
    exact hne ((fits_iff.1 hfits').2.2.symm.trans hthread)

theorem perform_mainMemory (hperform : perform m p access = some (result, m₁))
    (hx : ¬ (p ≤ x ∧ x < p + access.size)) : m₁.mainMemory x = m.mainMemory x := by
  cases access with
  | read a size =>
    obtain ⟨v, -, heq⟩ := Option.map_eq_some_iff.1 hperform
    cases heq
    rfl
  | write a size v =>
    obtain ⟨m', hm', heq⟩ := Option.map_eq_some_iff.1 hperform
    cases heq
    obtain ⟨-, rfl⟩ := writeValue_eq hm'
    exact if_neg hx

/-- An access keeps the invariant. -/
theorem Consistent.access_end (h : Consistent ⟨m, serving⟩) (hidle : serving pid = none)
    (htranslate : translate m pid access = some (.ok (p, m₁)))
    (hperform : perform m₁ p access = some (result, m₂)) : Consistent ⟨m₂, serving⟩ := by
  obtain ⟨hmapped, hkeep⟩ := Paging.access_end h.mapped htranslate hperform
  obtain ⟨hsize, hm₂⟩ := perform_eq hperform
  obtain ⟨i, hi, hfits, haligned, rfl, -, rfl⟩ := h.mapped.translate_ok_iff.1 htranslate
  refine ⟨hmapped, ?_, ?_⟩
  · intro pid' access' f hserving
    obtain ⟨hf, hfits', hregular⟩ := h.serving pid' access' f hserving
    exact ⟨hf, hkeep _ _ _ hf hfits', hregular⟩
  · intro j hj hunused k hk
    have hsame : m₂.memoryMap = m.memoryMap := by rw [hm₂]; rfl
    rw [hsame] at hunused
    have hji : j ≠ i := by
      apply h.ne_of_fits hi hfits
      rcases hunused with hfree | ⟨pid', hloading⟩
      · exact Or.inl hfree
      · refine Or.inr ⟨pid', ?_, hloading⟩
        rintro rfl
        exact not_loading hidle hloading
    have hzero := h.zero j hj hunused k hk
    have hle := offset_add_size_le hsize haligned
    rw [← hzero]
    apply perform_mainMemory hperform
    show ¬ (i * 128 + access.addr.toNat % 128 ≤ j * 128 + k ∧
      j * 128 + k < i * 128 + access.addr.toNat % 128 + access.size)
    have hk' : k < 128 := hk
    have hle' : access.addr.toNat % 128 + access.size ≤ 128 := hle
    omega

/-! ### Page faults -/

section Fault

variable (h : Consistent ⟨m, serving⟩) (hnone : m.entryFor pid (vpn a) = none)
  (halloc : m.allocatePage pid a = some (f, m₁))

include h hnone halloc

theorem Consistent.entryFor_allocatePage (pid' : ℤ) (v : CInt) :
    m₁.entryFor pid' v = if v = vpn a ∧ pid' = pid then some f else m.entryFor pid' v := by
  have hmapped := h.mapped.allocatePage hnone halloc
  obtain ⟨hf, hfree, -⟩ := allocatePage_eq halloc
  rw [h.mapped.numBits] at hf
  apply Option.ext
  intro j
  rw [hmapped.entryFor_iff, fits_allocatePage halloc]
  split_ifs with hj hpage hpage
  · subst hj
    simp [hpage, hf]
  · subst hj
    -- the frame was free
    have hnot : m.entryFor pid' v ≠ some j := by
      intro hentry
      have hfits := (entryFor_eq_some hentry).2
      exact h.ne_of_fits hf hfits (Or.inl hfree) rfl
    simp [hpage, hnot]
  · obtain ⟨rfl, rfl⟩ := hpage
    have hnot : ¬ (j < NumPhysPages ∧ m.fits pid' (vpn a) j = true) := by
      rintro ⟨hlt, hfits⟩
      rw [entryFor_eq_none hnone hlt] at hfits
      cases hfits
    simp [hnot, Ne.symm hj]
  · rw [h.mapped.entryFor_iff]

/-- The first half of the handler cannot be seen: the new frame is not filled yet. -/
theorem Consistent.view_fault (hidle : serving pid = none) :
    State.view file ⟨m₁, Function.update serving pid (some (access, f))⟩ =
      State.view file ⟨m, serving⟩ := by
  obtain ⟨hf, hfree, hm₁⟩ := allocatePage_eq halloc
  rw [h.mapped.numBits] at hf
  have hmemory : m₁.mainMemory = m.mainMemory := by rw [hm₁]
  have hentry := h.entryFor_allocatePage hnone halloc
  funext pid' x
  by_cases hpage : vpn (BitVec.ofNat 32 x) = vpn a ∧ pid' = pid
  · -- the page that has got the frame
    obtain ⟨hv, rfl⟩ := hpage
    rw [view_eq_byteAt, view_eq_byteAt]
    · intro j hj
      rw [hv, hnone] at hj
      cases hj
    · intro j hj
      rw [hentry, if_pos ⟨hv, rfl⟩] at hj
      cases hj
      show (Function.update serving pid' (some (access, f)) pid').map Prod.snd = some f
      rw [Function.update_self]
      rfl
  · apply view_congr
    · rw [hentry, if_neg hpage]
    · intro _ j hj
      obtain ⟨hlt, hfits⟩ := entryFor_eq_some hj
      have hfj := h.ne_of_fits hlt hfits (Or.inl hfree)
      refine ⟨?_, by rw [hmemory]⟩
      show (Function.update serving pid (some (access, f)) pid').map Prod.snd = some j ↔
        (serving pid').map Prod.snd = some j
      by_cases hpid : pid' = pid
      · subst hpid
        rw [Function.update_self, hidle]
        simp [hfj]
      · rw [Function.update_of_ne hpid]

theorem Consistent.fault (hidle : serving pid = none) (haddr : access.addr = a)
    (hregular : access.Regular) :
    Consistent ⟨m₁, Function.update serving pid (some (access, f))⟩ := by
  obtain ⟨hf, hfree, hm₁⟩ := allocatePage_eq halloc
  rw [h.mapped.numBits] at hf
  refine ⟨h.mapped.allocatePage hnone halloc, ?_, ?_⟩
  · intro pid' access' f' hserving
    dsimp only at hserving ⊢
    by_cases hpid : pid' = pid
    · subst hpid
      rw [Function.update_self] at hserving
      cases hserving
      refine ⟨hf, ?_, hregular⟩
      rw [fits_allocatePage halloc, if_pos rfl, haddr]
      simp
    · rw [Function.update_of_ne hpid] at hserving
      obtain ⟨hf', hfits, hregular'⟩ := h.serving pid' access' f' hserving
      exact ⟨hf', allocatePage_mapsIn h.mapped halloc _ _ _ hf' hfits, hregular'⟩
  · intro j hj hunused k hk
    have hmemory : m₁.mainMemory = m.mainMemory := by rw [hm₁]
    rw [hmemory]
    apply h.zero j hj ?_ k hk
    rcases hunused with hbit | ⟨pid', hloading⟩
    · left
      rw [hm₁, BitMap.bit_setBit, Bool.or_eq_false_iff] at hbit
      exact hbit.2
    · unfold State.Loading at hloading
      dsimp only at hloading
      by_cases hpid : pid' = pid
      · subst hpid
        rw [Function.update_self] at hloading
        cases hloading
        exact Or.inl hfree
      · rw [Function.update_of_ne hpid] at hloading
        exact Or.inr ⟨pid', hloading⟩

end Fault

section Load

variable (h : Consistent ⟨m, serving⟩) (hserving : serving pid = some (access, f))
  (hload : m.loadPage file f access.addr = some m₁)

include h hserving hload

/-- What the second half of the handler does to memory. -/
theorem Consistent.mainMemory_load (x : ℕ) :
    m₁.mainMemory x = if f * PageSize ≤ x ∧ x < f * PageSize + PageSize then
      file.byteAt (access.addr.toNat / PageSize * PageSize + (x - f * PageSize))
      else m.mainMemory x := by
  obtain ⟨hf, hfits, -, -, ha⟩ := h.serving pid access f hserving
  apply loadPage_mainMemory hload ha
  · exact h.mapped.physical f hf (fits_iff.1 hfits).2.1
  · apply h.zero f hf (Or.inr ⟨pid, ?_⟩)
    show (serving pid).map Prod.snd = some f
    rw [hserving]
    rfl

theorem Consistent.mainMemory_load_of_ne (hjf : j ≠ f) (hk : k < PageSize) :
    m₁.mainMemory (j * PageSize + k) = m.mainMemory (j * PageSize + k) := by
  rw [h.mainMemory_load hserving hload]
  apply if_neg
  show ¬ (f * 128 ≤ j * 128 + k ∧ j * 128 + k < f * 128 + 128)
  have hk' : k < 128 := hk
  omega

/-- The second half of the handler cannot be seen: the frame gets the bytes of the file. -/
theorem Consistent.view_load :
    State.view file ⟨m₁, Function.update serving pid none⟩ = State.view file ⟨m, serving⟩ := by
  obtain ⟨hf, hfits, -, -, ha⟩ := h.serving pid access f hserving
  have hentry : ∀ pid' v, m₁.entryFor pid' v = m.entryFor pid' v := by
    intro pid' v
    rw [loadPage_eq hload]
    rfl
  funext pid' x
  by_cases hpage : x < 2 ^ 31 ∧ m.entryFor pid' (vpn (BitVec.ofNat 32 x)) = some f
  · obtain ⟨hx, hxf⟩ := hpage
    obtain ⟨hv, -, hthread⟩ := fits_iff.1 (entryFor_eq_some hxf).2
    obtain ⟨hv', -, hthread'⟩ := fits_iff.1 hfits
    obtain rfl : pid' = pid := hthread.symm.trans hthread'
    have hdiv : x / PageSize = access.addr.toNat / PageSize :=
      (vpn_eq_iff hx).1 (hv.symm.trans hv')
    rw [view_of_entryFor (show m₁.entryFor pid' _ = some f by rw [hentry, hxf]) hx
      (not_loading (Function.update_self _ _ _)), view_eq_byteAt, h.mainMemory_load hserving hload]
    · rw [if_pos, Nat.add_sub_cancel_left, ← hdiv, Nat.div_add_mod']
      exact ⟨Nat.le_add_right _ _, Nat.add_lt_add_left (Nat.mod_lt _ (by decide)) _⟩
    · intro j hj
      rw [show m.entryFor pid' _ = some f from hxf] at hj
      cases hj
      show (serving pid').map Prod.snd = some f
      rw [hserving]
      rfl
  · apply view_congr (hentry _ _)
    intro hx j hj
    have hjf : j ≠ f := by
      rintro rfl
      exact hpage ⟨hx, hj⟩
    refine ⟨?_, h.mainMemory_load_of_ne hserving hload hjf (Nat.mod_lt _ (by decide))⟩
    show (Function.update serving pid none pid').map Prod.snd = some j ↔
      (serving pid').map Prod.snd = some j
    by_cases hpid : pid' = pid
    · subst hpid
      rw [Function.update_self, hserving]
      simp [hjf.symm]
    · rw [Function.update_of_ne hpid]

theorem Consistent.load : Consistent ⟨m₁, Function.update serving pid none⟩ := by
  obtain ⟨hf, hfits, -⟩ := h.serving pid access f hserving
  have hm₁ := loadPage_eq hload
  refine ⟨?_, ?_, ?_⟩
  · rw [hm₁]
    exact h.mapped.of_memory _
  · intro pid' access' f' hserving'
    dsimp only at hserving' ⊢
    by_cases hpid : pid' = pid
    · subst hpid
      rw [Function.update_self] at hserving'
      cases hserving'
    · rw [Function.update_of_ne hpid] at hserving'
      rw [hm₁]
      exact h.serving pid' access' f' hserving'
  · intro j hj hunused k hk
    -- the frame that has been filled is not among them
    have hunused' : m.memoryMap.bit j = false ∨
        ∃ pid', pid' ≠ pid ∧ (State.mk m serving).Loading pid' j := by
      rcases hunused with hbit | ⟨pid', hloading⟩
      · left
        rwa [hm₁] at hbit
      · right
        unfold State.Loading at hloading
        dsimp only at hloading
        by_cases hpid : pid' = pid
        · subst hpid
          rw [Function.update_self] at hloading
          cases hloading
        · rw [Function.update_of_ne hpid] at hloading
          exact ⟨pid', hpid, hloading⟩
    have hjf := h.ne_of_fits hf hfits hunused'
    rw [h.mainMemory_load_of_ne hserving hload hjf hk]
    apply h.zero j hj ?_ k hk
    rcases hunused' with hbit | ⟨pid', -, hloading⟩
    · exact Or.inl hbit
    · exact Or.inr ⟨pid', hloading⟩

end Load

/-! ### Accesses come to an end -/

theorem exists_loadPage (ha : a.toNat < 2 ^ 31) (file : File) (m : Machine) (f : ℕ) :
    ∃ m₁, m.loadPage file f a = some m₁ := by
  obtain ⟨into, hinto⟩ := File.exists_readAt file
    (m.mainMemory.offset ((m.pageTable f).physicalPage.toNat * PageSize)) PageSize
    (a.toNat / PageSize * PageSize)
  rw [← codePos_eq ha] at hinto
  unfold loadPage
  dsimp only
  rw [hinto]
  exact ⟨_, rfl⟩

theorem translate_of_entryFor (h : m.WellMapped) (hregular : access.Regular)
    (hentry : m.entryFor pid (vpn access.addr) = some j) :
    ∃ p m₁, translate m pid access = some (.ok (p, m₁)) := by
  unfold translate
  rw [h.translate_eq hregular.1, hregular.2.1, hentry]
  exact ⟨_, _, rfl⟩

/-- The translation after the handler succeeds. -/
theorem Consistent.translate_load (h : Consistent s) (hserving : s.serving pid = some (access, f))
    (hload : s.machine.loadPage file f access.addr = some m₁) :
    ∃ p m₂, translate m₁ pid access = some (.ok (p, m₂)) := by
  obtain ⟨hf, hfits, hregular⟩ := h.serving pid access f hserving
  have hmapped : m₁.WellMapped := (h.load hserving hload).mapped
  apply translate_of_entryFor hmapped hregular
  rw [hmapped.entryFor_iff, loadPage_eq hload]
  exact ⟨hf, hfits⟩

theorem Consistent.exists_served (h : Consistent s) (file : File)
    (hserving : s.serving pid = some (access, f)) :
    ∃ result s', Step file s (.done pid access result) s' := by
  obtain ⟨-, -, hregular⟩ := h.serving pid access f hserving
  obtain ⟨m₀, hload⟩ := exists_loadPage hregular.2.2 file s.machine f
  obtain ⟨p, m, htranslate⟩ := h.translate_load hserving hload
  obtain ⟨result, m', hperform⟩ := exists_perform hregular.1 m p
  exact ⟨result, _, .served hserving hload htranslate hperform⟩

/-- An access is carried out, or calls the handler, as long as there are free frames. -/
theorem Consistent.exists_access (h : Consistent s) (file : File) (hidle : s.serving pid = none)
    (hregular : access.Regular) (hfree : s.machine.memoryMap.bit j = false) (hj : j < NumPhysPages) :
    (∃ result s', Step file s (.done pid access result) s') ∨
      ∃ s', Step file s (.fault pid access) s' := by
  cases hentry : s.machine.entryFor pid (vpn access.addr) with
  | some i =>
    left
    obtain ⟨p, m, htranslate⟩ := translate_of_entryFor h.mapped hregular hentry
    obtain ⟨result, m', hperform⟩ := exists_perform hregular.1 m p
    exact ⟨result, _, .hit hidle htranslate hperform⟩
  | none =>
    right
    have htranslate : translate s.machine pid access = some (.error .pageFaultException) := by
      unfold translate
      rw [h.mapped.translate_eq hregular.1, hregular.2.1, hentry]
      rfl
    obtain ⟨f, m, halloc⟩ := exists_allocatePage pid access.addr
      (show j < s.machine.memoryMap.numBits by rw [h.mapped.numBits]; exact hj) hfree
    exact ⟨_, .fault hidle htranslate halloc⟩

/-! ### Runs -/

/-- Every step of a regular access is a step of flat memory. -/
theorem Consistent.step {e : Event} (h : Consistent s) (hregular : e.access.Regular)
    (hstep : Step file s e s') :
    Consistent s' ∧ FlatMemory.Step (s.view file) e (s'.view file) := by
  cases hstep with
  | hit hidle htranslate hperform =>
    exact ⟨h.access_end hidle htranslate hperform,
      access_flat h.mapped hidle hregular.2.2 htranslate hperform⟩
  | fault hidle htranslate hallocate =>
    have hnone := entryFor_of_pageFault htranslate
    refine ⟨h.fault hnone hallocate hidle rfl hregular, ?_⟩
    rw [h.view_fault hnone hallocate hidle]
    exact .fault
  | @served pid _ _ _ _ _ _ _ hserving hload htranslate hperform =>
    have hidle : Function.update s.serving pid none pid = none := Function.update_self _ _ _
    have hloaded := h.load hserving hload
    refine ⟨hloaded.access_end hidle htranslate hperform, ?_⟩
    rw [← h.view_load hserving hload]
    exact access_flat hloaded.mapped hidle hregular.2.2 htranslate hperform
  | failed hserving hload htranslate =>
    obtain ⟨p, m, hok⟩ := h.translate_load hserving hload
    rw [hok] at htranslate
    cases htranslate

theorem view_start (garbage : ℕ → BitVec 32) :
    State.view file ⟨.new garbage, fun _ => none⟩ = fun _ => file.byteAt := by
  funext pid x
  apply view_eq_byteAt
  intro j hj
  obtain ⟨-, hvalid, -⟩ := fits_iff.1 (entryFor_eq_some hj).2
  cases hvalid

/-- **Demand-paged memory refines flat memory.**  The threads make regular accesses, in any
interleaving, and the file `VirtualMemory` does not change.  Then what they see is what they would
see if each had an array of its own, which at first is the file.

Accesses return: an access of a thread is carried out or calls the handler, unless there is no free
frame left; and a thread in the handler can finish its access. -/
theorem demand_paging_refines_flat {garbage : ℕ → BitVec 32} {events : List Event}
    (hrun : ((system garbage (· = file)).restrict fun _ e => e.access.Regular).Run
      ⟨.new garbage, fun _ => none⟩ events s) :
    (FlatMemory.system file).Run (fun _ => file.byteAt) events (s.view file) ∧
    (∀ pid access, s.serving pid = none → access.Regular →
      (∃ result s', (system garbage (· = file)).step s (.done pid access result) s') ∨
      (∃ s', (system garbage (· = file)).step s (.fault pid access) s') ∨
      ∀ j < NumPhysPages, s.machine.memoryMap.bit j = true) ∧
    (∀ pid access f, s.serving pid = some (access, f) →
      ∃ result s', (system garbage (· = file)).step s (.done pid access result) s') := by
  have hstep : ∀ s e s', Consistent s →
      ((system garbage (· = file)).restrict fun _ e => e.access.Regular).step s e s' →
      Consistent s' ∧ (FlatMemory.system file).step (s.view file) e (s'.view file) := by
    rintro s e s' hs ⟨hregular, _, rfl, hstep⟩
    exact hs.step hregular hstep
  obtain ⟨hs, hflat⟩ := hrun.simulation (.start garbage) hstep
  rw [view_start] at hflat
  refine ⟨hflat, ?_, ?_⟩
  · intro pid access hidle hregular
    by_cases hfree : ∃ j < NumPhysPages, s.machine.memoryMap.bit j = false
    · obtain ⟨j, hj, hbit⟩ := hfree
      rcases hs.exists_access file hidle hregular hbit hj with ⟨result, s', hdone⟩ | ⟨s', hfault⟩
      · exact Or.inl ⟨result, s', file, rfl, hdone⟩
      · exact Or.inr (Or.inl ⟨s', file, rfl, hfault⟩)
    · right
      right
      intro j hj
      exact Bool.eq_true_of_not_eq_false (fun hbit => hfree ⟨j, hj, hbit⟩)
  · intro pid access f hserving
    obtain ⟨result, s', hdone⟩ := hs.exists_served file hserving
    exact ⟨result, s', file, rfl, hdone⟩

theorem run_serve (garbage : ℕ → BitVec 32) (hregular : access.Regular)
    (htranslate : outcome (translate m pid access) = some (.error .pageFaultException))
    (hserve : serve file m pid access = some (f, result, m')) :
    ((system garbage (· = file)).restrict fun _ e => e.access.Regular).Run ⟨m, fun _ => none⟩
      [.fault pid access, .done pid access result] ⟨m', fun _ => none⟩ := by
  obtain ⟨s₁, -, hfault, hserved⟩ :=
    @step_serve file m m' (fun _ => none) _ _ _ _ rfl htranslate hserve
  exact .cons ⟨hregular, file, rfl, hfault⟩ (.cons ⟨hregular, file, rfl, hserved⟩ (.nil _))

/-- One thread writes the byte at address 1; the other one reads what the file has there. -/
theorem demand_paging_refines_flat_twoThreads :
    ∃ s, ((system (fun _ => 0) (· = ⟨2, fun _ => 7⟩)).restrict fun _ e => e.access.Regular).Run
      ⟨.new fun _ => 0, fun _ => none⟩
      [.fault 0 (.write 1 1 5), .done 0 (.write 1 1 5) none, .fault 1 (.read 1 1),
        .done 1 (.read 1 1) (some 7)] s ∧
      (FlatMemory.system ⟨2, fun _ => 7⟩).Run (fun _ => File.byteAt ⟨2, fun _ => 7⟩)
        [.fault 0 (.write 1 1 5), .done 0 (.write 1 1 5) none, .fault 1 (.read 1 1),
          .done 1 (.read 1 1) (some 7)] (s.view ⟨2, fun _ => 7⟩) := by
  have hrun : ((serve ⟨2, fun _ => 7⟩ (.new fun _ => 0) 0 (.write 1 1 5)).bind fun r =>
      (serve ⟨2, fun _ => 7⟩ r.2.2 1 (.read 1 1)).map fun r' =>
        (outcome (translate (.new fun _ => 0) 0 (.write 1 1 5)), r.2.1,
          outcome (translate r.2.2 1 (.read 1 1)), r'.2.1)) =
      some (some (.error .pageFaultException), none, some (.error .pageFaultException), some 7) := by
    decide +kernel
  obtain ⟨⟨f, result, m₁⟩, hserve, hrest⟩ := Option.bind_eq_some_iff.1 hrun
  obtain ⟨⟨f', result', m₂⟩, hserve', hfacts⟩ := Option.map_eq_some_iff.1 hrest
  simp only [Prod.mk.injEq] at hfacts
  obtain ⟨hfault, rfl, hfault', rfl⟩ := hfacts
  have hwrite : (Access.write 1 1 5).Regular := ⟨Or.inl rfl, by decide, by decide⟩
  have hread : (Access.read 1 1).Regular := ⟨Or.inl rfl, by decide, by decide⟩
  have hboth := (run_serve (fun _ => 0) hwrite hfault hserve).trans
    (run_serve _ hread hfault' hserve')
  exact ⟨_, hboth, (demand_paging_refines_flat hboth).1⟩

end Paging

end Nachos
