import Nachos.Machine.Equiv.Mipssim
import Nachos.Userprog.Equiv.FlatMemory

/-!
# Page faults are transparent

The memory of the machine simulates the array of the thread, as long as the pages of an instruction are
resident or can be brought in.  So an instruction ends as it does on the array, wherever its pages are,
and two runs from machines with the same virtual memory end in the same way.
-/

namespace Nachos.Mips

open Coupling Paging Machine

variable {file : File} {m m' m₁ : Machine} {serving serving' : ℤ → Option (Access × ℕ)} {pid : ℤ}
  {access : Access} {pages : List CInt} {mem : ℤ → Buf}

/-- What holds of the machine between instructions: the invariant of demand paging, and that no page in
the upper half of the addresses is mapped, as the handler cannot bring one in. -/
structure Sound (s : Paging.State) : Prop extends Consistent s where
  low : ∀ pid v j, s.machine.entryFor pid v = some j → v.toNat * PageSize < 2 ^ 31

/-- The array of bytes of each thread, with the pages of an instruction at hand. -/
structure Represents (file : File) (serving : ℤ → Option (Access × ℕ)) (pid : ℤ) (pages : List CInt)
    (mem : ℤ → Buf) (m : Machine) : Prop where
  view : mem = State.view file ⟨m, serving⟩
  sound : Sound ⟨m, serving⟩
  provided : Provided m pid pages

theorem toNat_lt_of_vpn {a : CInt} (h : (vpn a).toNat * PageSize < 2 ^ 31) : a.toNat < 2 ^ 31 := by
  rw [toNat_vpn] at h
  change a.toNat / 128 * 128 < 2 ^ 31 at h
  omega

/-! ### Accesses to resident pages -/

theorem flat_access_of_step {result : Option CInt} {mem' : ℤ → Buf}
    (h : FlatMemory.Step mem (.done pid access result) mem')
    (haligned : misaligned access.addr access.size = false) :
    (flat pid).access mem access = some (.ok (result, mem')) := by
  unfold flat
  dsimp only
  rw [if_neg (by rw [haligned]; decide)]
  cases h with
  | read h =>
    dsimp only
    rw [h]
    rfl
  | write h => exact if_pos h

theorem paged_access_of_translate {p : ℕ} {result : Option CInt}
    (htranslate : translate m pid access = some (.ok (p, m₁)))
    (hperform : perform m₁ p access = some (result, m')) :
    (paged file pid).access m access = some (.ok (result, m')) := by
  unfold paged
  dsimp only
  rw [htranslate]
  dsimp only [Option.bind_eq_bind, Option.bind_some]
  rw [hperform]
  rfl

/-- An access does not change what is mapped. -/
theorem entryFor_access (h : m.WellMapped) {p : ℕ} {result : Option CInt}
    (htranslate : translate m pid access = some (.ok (p, m₁)))
    (hperform : perform m₁ p access = some (result, m')) :
    (∀ pid' v, m'.entryFor pid' v = m.entryFor pid' v) ∧ m'.memoryMap = m.memoryMap := by
  obtain ⟨-, hm'⟩ := perform_eq hperform
  obtain ⟨j, -, -, -, -, -, rfl⟩ := h.translate_ok_iff.1 htranslate
  rw [hm']
  refine ⟨?_, rfl⟩
  intro pid' v
  exact entryFor_touch j access.writing

theorem Provided.congr (h : Provided m pid pages)
    (hentry : ∀ v, m'.entryFor pid v = m.entryFor pid v) (hmap : m'.memoryMap = m.memoryMap) :
    Provided m' pid pages := by
  have hmissing : missing m' pid pages = missing m pid pages := by
    unfold missing
    simp only [hentry]
  refine ⟨?_, ?_⟩
  · rw [hmissing]
    exact h.low
  · rw [hmissing, hmap]
    exact h.frames

theorem Represents.hit (h : Represents file serving pid pages mem m) (hidle : serving pid = none)
    (hsize : access.size = 1 ∨ access.size = 2 ∨ access.size = 4)
    (haligned : misaligned access.addr access.size = false) {j : ℕ}
    (hentry : m.entryFor pid (vpn access.addr) = some j) :
    ∃ result mem₁ m₁, (flat pid).access mem access = some (.ok (result, mem₁)) ∧
      (paged file pid).access m access = some (.ok (result, m₁)) ∧
        Represents file serving pid pages mem₁ m₁ := by
  have hlow := toNat_lt_of_vpn (h.sound.low pid _ j hentry)
  obtain ⟨p, m₀, htranslate⟩ := translate_of_entryFor h.sound.mapped ⟨hsize, haligned, hlow⟩ hentry
  obtain ⟨result, m₁, hperform⟩ := exists_perform hsize m₀ p
  have hstep := @access_flat file m m₀ m₁ serving pid access result p h.sound.mapped hidle hlow
    htranslate hperform
  obtain ⟨hsame, hmap⟩ := entryFor_access h.sound.mapped htranslate hperform
  refine ⟨result, _, m₁, flat_access_of_step (h.view ▸ hstep) haligned,
    paged_access_of_translate htranslate hperform, rfl, ⟨?_, ?_⟩, ?_⟩
  · exact h.sound.toConsistent.access_end hidle htranslate hperform
  · intro pid' v i hi
    rw [show m₁.entryFor pid' v = m.entryFor pid' v from hsame pid' v] at hi
    exact h.sound.low pid' v i hi
  · exact h.provided.congr (hsame pid) hmap

/-! ### Page faults -/

/-- When a page has been brought in, the others still can be. -/
theorem Provided.bringIn (h : Provided m pid pages) {v : CInt} {f : ℕ}
    (hv : v ∈ missing m pid pages)
    (hentry : ∀ v', m₁.entryFor pid v' = if v' = v then some f else m.entryFor pid v')
    (hclear : m₁.memoryMap.numClear + 1 = m.memoryMap.numClear) : Provided m₁ pid pages := by
  have hmissing : missing m₁ pid pages = (missing m pid pages).erase v := by
    ext v'
    unfold missing
    rw [Finset.mem_erase, Finset.mem_filter, Finset.mem_filter, hentry]
    by_cases hv' : v' = v
    · simp [hv']
    · simp [hv']
  refine ⟨?_, ?_⟩
  · intro v' hv'
    rw [hmissing] at hv'
    exact h.low v' (Finset.mem_of_mem_erase hv')
  · rw [hmissing, Finset.card_erase_of_mem hv]
    have hframes := h.frames
    omega

theorem Represents.fault (h : Represents file serving pid pages mem m) (hidle : serving pid = none)
    (hsize : access.size = 1 ∨ access.size = 2 ∨ access.size = 4)
    (haligned : misaligned access.addr access.size = false) (hpage : vpn access.addr ∈ pages)
    (hnone : m.entryFor pid (vpn access.addr) = none) :
    ∃ m₁ f, (paged file pid).pageFault m access.addr = some m₁ ∧
      Represents file serving pid pages mem m₁ ∧
        ∀ pid' v, m₁.entryFor pid' v =
          if v = vpn access.addr ∧ pid' = pid then some f else m.entryFor pid' v := by
  have hmem : vpn access.addr ∈ missing m pid pages :=
    Finset.mem_filter.2 ⟨List.mem_toFinset.2 hpage, hnone⟩
  have hlow := toNat_lt_of_vpn (h.provided.low _ hmem)
  have hregular : access.Regular := ⟨hsize, haligned, hlow⟩
  -- a frame is free
  have hpos : 0 < m.memoryMap.clears.length := by
    rw [← BitMap.numClear_eq]
    exact (Finset.card_pos.2 ⟨_, hmem⟩).trans_le h.provided.frames
  obtain ⟨i, hi⟩ := List.exists_mem_of_length_pos hpos
  obtain ⟨hlt, hfree⟩ := BitMap.mem_clears.1 hi
  obtain ⟨f, m₀, halloc⟩ := exists_allocatePage pid access.addr hlt hfree
  obtain ⟨m₁, hload⟩ := exists_loadPage hlow file m₀ f
  -- the two halves of the handler
  have hconsistent := h.sound.toConsistent.fault hnone halloc hidle rfl hregular
  have hview := @Consistent.view_fault file m m₀ serving pid access _ f h.sound.toConsistent hnone
    halloc hidle
  have hserving : Function.update serving pid (some (access, f)) pid = some (access, f) :=
    Function.update_self _ _ _
  have hback : Function.update (Function.update serving pid (some (access, f))) pid none =
      serving := by
    rw [Function.update_idem, ← hidle, Function.update_eq_self]
  have hview' := hconsistent.view_load hserving hload
  have hconsistent' := hconsistent.load hserving hload
  rw [hback] at hview' hconsistent'
  have hentry : ∀ pid' v, m₁.entryFor pid' v =
      if v = vpn access.addr ∧ pid' = pid then some f else m.entryFor pid' v := by
    intro pid' v
    rw [loadPage_eq hload]
    exact h.sound.toConsistent.entryFor_allocatePage hnone halloc pid' v
  refine ⟨m₁, f, ?_, ⟨?_, ⟨hconsistent', ?_⟩, ?_⟩, hentry⟩
  · show (m.allocatePage pid access.addr).bind _ = _
    rw [halloc]
    exact hload
  · rw [h.view, hview', hview]
  · intro pid' v j hj
    rw [show m₁.entryFor pid' v = _ from hentry pid' v] at hj
    split_ifs at hj with hv
    · rw [hv.1]
      exact h.provided.low _ hmem
    · exact h.sound.low pid' v j hj
  · apply h.provided.bringIn hmem (fun v => by simpa using hentry pid v)
    obtain ⟨hf, hbit, hm₀⟩ := allocatePage_eq halloc
    rw [loadPage_eq hload, hm₀]
    exact BitMap.numClear_setBit hf hbit

theorem paged_access_of_error {exception : ExceptionType}
    (h : translate m pid access = some (.error exception)) :
    (paged file pid).access m access = some (.error exception) := by
  unfold paged
  dsimp only
  rw [h]
  rfl

/-- The memory of the machine simulates the arrays of the threads. -/
theorem simulates_paged (file : File) (hidle : serving pid = none) (pages : List CInt) :
    Simulates (flat pid) (paged file pid) (Represents file serving pid pages) pages := by
  intro mem m access h hsize hpage
  have htranslate : translate m pid access = _ := h.sound.mapped.translate_eq hsize
  by_cases haligned : misaligned access.addr access.size = true
  · rw [if_pos haligned] at htranslate
    exact .misaligned (if_pos haligned) (paged_access_of_error htranslate)
  rw [if_neg haligned] at htranslate
  rw [Bool.not_eq_true] at haligned
  cases hentry : m.entryFor pid (vpn access.addr) with
  | some j =>
    obtain ⟨result, mem₁, m₁, hflat, hpaged, h₁⟩ := h.hit hidle hsize haligned hentry
    exact .hit hflat hpaged h₁
  | none =>
    rw [hentry] at htranslate
    obtain ⟨m₀, f, hserve, h₀, hmapped⟩ := h.fault hidle hsize haligned hpage hentry
    have hf := (hmapped pid (vpn access.addr)).trans (if_pos ⟨rfl, rfl⟩)
    obtain ⟨result, mem₁, m₁, hflat, hpaged, h₁⟩ := h₀.hit hidle hsize haligned hf
    exact .fault hflat (paged_access_of_error htranslate) hserve hpaged h₁

/-! ### Instructions -/

section Run

variable {r : Registers} {l : Register} {instr : Instruction}

/-- **An instruction ends as it does on the array of the thread**, wherever its pages are. -/
theorem oneInstruction_flat (hsound : Sound ⟨m, serving⟩) (hidle : serving pid = none)
    (hinstr : instructionAt (State.view file ⟨m, serving⟩ pid) r = instr)
    (hprovided : Provided m pid (instr.pages r)) (hzero : r 0 = 0)
    (hload : r LoadReg = BitVec.ofNat 32 l) (hspares : instr.Spares l)
    (hlwr : l = 0 → instr.opCode = .lwr → instr.rt = 0 → r LoadValueReg &&& 0xffffff00 = 0) :
    Matches (fun _ => Final (Represents file serving pid (instr.pages r)))
      (fun _ => Final (Represents file serving pid (instr.pages r)))
      (oneInstruction (flat pid) ⟨r, State.view file ⟨m, serving⟩⟩)
      (oneInstruction (paged file pid) ⟨r, m⟩) := by
  have hsim : Sim (Represents file serving pid (instr.pages r)) l
      ⟨r, State.view file ⟨m, serving⟩⟩ ⟨r, m⟩ :=
    ⟨⟨hload, Or.inl fun _ _ => rfl⟩, rfl, hsound, hprovided⟩
  apply oneInstruction_matches hsim hzero (simulates_paged file hidle _) ?_ hspares hlwr
  intro value mem hvalue
  unfold flat at hvalue
  dsimp only at hvalue
  split_ifs at hvalue
  · cases hvalue
  · obtain ⟨v, hv, heq⟩ := Option.map_eq_some_iff.1 hvalue
    cases heq
    rw [← hinstr, instructionAt, hv]

end Run

/-! ### A program of one instruction -/

/-- The file `VirtualMemory` of a program of one instruction. -/
def program (instruction : CInt) : File := ⟨4, byteOf instruction⟩

/-- No page is resident. -/
def fresh : Machine := .new fun _ => 0

/-- The first two pages are resident. -/
def loaded (instruction : CInt) : Machine :=
  (((paged (program instruction) 0).pageFault fresh 0).bind fun m =>
    (paged (program instruction) 0).pageFault m 128).getD fresh

/-- A load of `value` into the register `l` is pending. -/
def registersWith (l value : CInt) : Registers := fun i =>
  if i = LoadReg then l else if i = LoadValueReg then value else if i = NextPCReg then 4 else 0

theorem sound_fresh : Sound ⟨fresh, fun _ => none⟩ := by
  refine ⟨.start _, ?_⟩
  intro pid v j hj
  obtain ⟨-, hvalid, -⟩ := fits_iff.1 (entryFor_eq_some hj).2
  cases hvalid

theorem represents_fresh (file : File) : Represents file (fun _ => none) 0 [0, 1]
    (State.view file ⟨fresh, fun _ => none⟩) fresh := by
  refine ⟨rfl, sound_fresh, ?_, by decide +kernel⟩
  intro v hv
  have hmem := List.mem_toFinset.1 (Finset.mem_filter.1 hv).1
  simp only [List.mem_cons, List.not_mem_nil, or_false] at hmem
  rcases hmem with rfl | rfl <;> decide

theorem represents_loaded (w : CInt) : Represents (program w) (fun _ => none) 0 [0, 1]
    (State.view (program w) ⟨fresh, fun _ => none⟩) (loaded w) := by
  obtain ⟨m₁, f₁, hserve₁, h₁, hentry₁⟩ :=
    @Represents.fault _ _ _ _ (.read 0 4) _ _ (represents_fresh (program w)) rfl (by decide)
      (by decide) (by decide) (by decide +kernel)
  obtain ⟨m₂, f₂, hserve₂, h₂, -⟩ :=
    @Represents.fault _ _ _ _ (.read 128 4) _ _ h₁ rfl (by decide) (by decide) (by decide)
      (by rw [hentry₁, if_neg (by decide)]; decide +kernel)
  have hloaded : loaded w = m₂ := by
    unfold loaded
    rw [show (paged (program w) 0).pageFault fresh 0 = some m₁ from hserve₁, Option.bind_some,
      show (paged (program w) 0).pageFault m₁ 128 = some m₂ from hserve₂]
    rfl
  rw [hloaded]
  exact h₂

/-! ### Page faults are transparent -/

section Transparent

variable {r : Registers} {l : Register} {instr : Instruction}

/-- The registers are the same but for `BadVAddrReg`, and so is the virtual memory of every thread. -/
def Alike (file file' : File) (serving serving' : ℤ → Option (Access × ℕ)) (t t' : State Machine) :
    Prop :=
  (∀ i, i ≠ BadVAddrReg → t.registers i = t'.registers i) ∧
    State.view file ⟨t.memory, serving⟩ = State.view file' ⟨t'.memory, serving'⟩

/-- **Page faults are transparent to instructions.**  Two machines with the same registers and the same
virtual memory execute the same instruction; the load that is pending is one into register 0, or into a
register that the instruction does not use.  The pages of the instruction are resident, or there are
frames for them.  Then both runs abort, or both come to the same end, with the same registers, but for
`BadVAddrReg`, and the same virtual memory.  Only when `LWR` loads into register 0, and has a load into
register 0 pending, would the bits that it keeps of the pending value be different; so these have to be
zero. -/
theorem page_faults_transparent {file' : File} (hsound : Sound ⟨m, serving⟩)
    (hsound' : Sound ⟨m', serving'⟩) (hidle : serving pid = none) (hidle' : serving' pid = none)
    (hview : State.view file ⟨m, serving⟩ = State.view file' ⟨m', serving'⟩)
    (hinstr : instructionAt (State.view file ⟨m, serving⟩ pid) r = instr)
    (hprovided : Provided m pid (instr.pages r)) (hprovided' : Provided m' pid (instr.pages r))
    (hzero : r 0 = 0) (hload : r LoadReg = BitVec.ofNat 32 l) (hspares : instr.Spares l)
    (hlwr : l = 0 → instr.opCode = .lwr → instr.rt = 0 → r LoadValueReg &&& 0xffffff00 = 0) :
    Matches (fun _ => Alike file file' serving serving') (fun _ => Alike file file' serving serving')
      (oneInstruction (paged file pid) ⟨r, m⟩) (oneInstruction (paged file' pid) ⟨r, m'⟩) := by
  have hrun := oneInstruction_flat hsound hidle hinstr hprovided hzero hload hspares hlwr
  rw [hview] at hinstr hrun
  have hrun' := oneInstruction_flat hsound' hidle' hinstr hprovided' hzero hload hspares hlwr
  have halike : ∀ s t t', Final (Represents file serving pid (instr.pages r)) s t →
      Final (Represents file' serving' pid (instr.pages r)) s t' →
        Alike file file' serving serving' t t' := by
    intro s t t' h h'
    refine ⟨?_, ?_⟩
    · intro i hi
      rw [h.registers i hi, h'.registers i hi]
    · rw [← h.memory.view, ← h'.memory.view]
  apply (hrun.common hrun').mono
  · rintro _ t t' ⟨s, h, h'⟩
    exact halike s t t' h h'
  · rintro _ t t' ⟨s, h, h'⟩
    exact halike s t t' h h'

/-- Runs that end in the same way agree on every register but `BadVAddrReg`. -/
theorem map_registers_of_matches {file' : File} {x y : Option (Except Ending Unit × State Machine)}
    (h : Matches (fun _ => Alike file file' serving serving')
      (fun _ => Alike file file' serving serving') x y) {i : Register} (hi : i ≠ BadVAddrReg) :
    x.map (fun result => result.2.registers i) = y.map (fun result => result.2.registers i) := by
  cases h with
  | abort => rfl
  | stop h => exact congrArg some (h.1 i hi)
  | ret h => exact congrArg some (h.1 i hi)

end Transparent

/-- `lw r1, 128(r0)`, with a load into `r5` pending. -/
theorem page_faults_transparent_lw :
    Matches (fun _ => Alike (program 0x8c010080) (program 0x8c010080) (fun _ => none) fun _ => none)
      (fun _ => Alike (program 0x8c010080) (program 0x8c010080) (fun _ => none) fun _ => none)
      (oneInstruction (paged (program 0x8c010080) 0) ⟨registersWith 5 7, loaded 0x8c010080⟩)
      (oneInstruction (paged (program 0x8c010080) 0) ⟨registersWith 5 7, fresh⟩) ∧
    (oneInstruction (paged (program 0x8c010080) 0) ⟨registersWith 5 7, fresh⟩).map
      (fun result => (result.2.registers 5, result.2.registers LoadReg)) = some (7, 1) := by
  have hfresh := represents_fresh (program 0x8c010080)
  have hloaded := represents_loaded 0x8c010080
  have hinstr : instructionAt (State.view (program 0x8c010080) ⟨loaded 0x8c010080, fun _ => none⟩ 0)
      (registersWith 5 7) = decode 0x8c010080 := by
    rw [← hloaded.view]
    decide +kernel
  have hload : registersWith 5 7 LoadReg = BitVec.ofNat 32 (5 : Register) := rfl
  refine ⟨?_, by decide +kernel⟩
  exact page_faults_transparent hloaded.sound hfresh.sound rfl rfl hloaded.view.symm hinstr
    hloaded.provided hfresh.provided rfl hload (Or.inr (by decide)) (by decide)

/-- `lwr r0, 128(r0)`, with a load of 256 into `r0` pending: the pending value is kept when the pages
are resident, and forgotten when they are not. -/
theorem lwr_forgets_pending_value :
    Sound ⟨loaded 0x98000080, fun _ => none⟩ ∧ Sound ⟨fresh, fun _ => none⟩ ∧
      State.view (program 0x98000080) ⟨loaded 0x98000080, fun _ => none⟩ =
        State.view (program 0x98000080) ⟨fresh, fun _ => none⟩ ∧
      instructionAt (State.view (program 0x98000080) ⟨fresh, fun _ => none⟩ 0)
        (registersWith 0 256) = decode 0x98000080 ∧
      Provided (loaded 0x98000080) 0 ((decode 0x98000080).pages (registersWith 0 256)) ∧
      Provided fresh 0 ((decode 0x98000080).pages (registersWith 0 256)) ∧
      registersWith 0 256 0 = 0 ∧ registersWith 0 256 LoadReg = 0 ∧
      (decode 0x98000080).Spares 0 ∧
      ¬ Matches
        (fun _ => Alike (program 0x98000080) (program 0x98000080) (fun _ => none) fun _ => none)
        (fun _ => Alike (program 0x98000080) (program 0x98000080) (fun _ => none) fun _ => none)
        (oneInstruction (paged (program 0x98000080) 0) ⟨registersWith 0 256, loaded 0x98000080⟩)
        (oneInstruction (paged (program 0x98000080) 0) ⟨registersWith 0 256, fresh⟩) := by
  have hfresh := represents_fresh (program 0x98000080)
  have hloaded := represents_loaded 0x98000080
  refine ⟨hloaded.sound, hfresh.sound, hloaded.view.symm, by decide +kernel, hloaded.provided,
    hfresh.provided, rfl, rfl, Or.inl rfl, ?_⟩
  have hresident : (oneInstruction (paged (program 0x98000080) 0)
      ⟨registersWith 0 256, loaded 0x98000080⟩).map
        (fun result => result.2.registers LoadValueReg) = some 256 := by decide +kernel
  have hfault : (oneInstruction (paged (program 0x98000080) 0) ⟨registersWith 0 256, fresh⟩).map
      (fun result => result.2.registers LoadValueReg) = some 0 := by decide +kernel
  intro hmatches
  have heq := map_registers_of_matches hmatches (show LoadValueReg ≠ BadVAddrReg by decide)
  rw [hresident, hfault] at heq
  exact absurd heq (by decide)

end Nachos.Mips
