import Nachos.Userprog.AddrSpace
import Nachos.Userprog.Equiv.Paging

/-!
# Accesses outside the address space

The number of pages of an address space is kept in `AddrSpace`, and neither `Translate` nor the handler
looks at it: a page outside is brought in like any other.  An access is refused only when something
else is wrong with it: the address is misaligned, or the page is not resident and no frame is free.
-/

namespace Nachos.Paging

open Machine

/-- The access of a thread comes to nothing: it does not return, no frame is taken, no entry becomes
valid, and nothing is read from the file outside the pages of the address space. -/
structure Refused (space : AddrSpace) (s : State) (pid : ℤ) (access : Access) : Prop where
  noReturn : ∀ file result s', ¬ Step file s (.done pid access result) s'
  frames : ∀ file e s', Step file s e s' → e.pid = pid → e.access = access →
    s'.machine.memoryMap = s.machine.memoryMap
  entries : ∀ file e s', Step file s e s' → e.pid = pid → e.access = access →
    ∀ j, (s'.machine.pageTable j).valid = true → (s.machine.pageTable j).valid = true
  reads : ∀ file s', Step file s (.fault pid access) s' →
    0 ≤ codePos access.addr ∧ codePos access.addr < space.numPages.toNat * PageSize

variable {s s' : State} {space : AddrSpace} {pid : ℤ} {access : Access} {file : File}

theorem refused_of_stuck
    (h : ∀ file e s', Step file s e s' → e.pid = pid → e.access ≠ access) :
    Refused space s pid access where
  noReturn file _ s' hstep := h file _ s' hstep rfl rfl
  frames file e s' hstep hpid haccess := absurd haccess (h file e s' hstep hpid)
  entries file e s' hstep hpid haccess := absurd haccess (h file e s' hstep hpid)
  reads file s' hstep := absurd rfl (h file _ s' hstep rfl)

/-! ### The steps of a thread that is not in the handler -/

theorem step_of_idle {e : Event} (hstep : Step file s e s') (hidle : s.serving e.pid = none) :
    (∃ p m, translate s.machine e.pid e.access = some (.ok (p, m))) ∨
      translate s.machine e.pid e.access = some (.error .pageFaultException) ∧
        ∃ f m, s.machine.allocatePage e.pid e.access.addr = some (f, m) := by
  cases hstep with
  | hit _ htranslate _ => exact Or.inl ⟨_, _, htranslate⟩
  | fault _ htranslate hallocate => exact Or.inr ⟨htranslate, _, _, hallocate⟩
  | served hserving => exact absurd (hidle.symm.trans hserving) (by simp)
  | failed hserving => exact absurd (hidle.symm.trans hserving) (by simp)

/-- A page fault takes a frame. -/
theorem not_refused_of_fault (hstep : Step file s (.fault pid access) s') :
    ¬ Refused space s pid access := by
  intro hrefused
  have hsame := hrefused.frames _ _ _ hstep rfl rfl
  cases hstep with
  | @fault _ _ f m _ _ hallocate =>
    obtain ⟨-, hclear, rfl⟩ := allocatePage_eq hallocate
    have hbit := congrArg (BitMap.bit · f) hsame
    simp [BitMap.bit_setBit, hclear] at hbit

theorem exists_fault (hidle : s.serving pid = none)
    (htranslate : translate s.machine pid access = some (.error .pageFaultException))
    (hfree : s.machine.memoryMap.numClear ≠ 0) : ∃ s', Step file s (.fault pid access) s' := by
  rw [BitMap.numClear_eq] at hfree
  obtain ⟨j, hj⟩ := List.exists_mem_of_length_pos (Nat.pos_of_ne_zero hfree)
  obtain ⟨hlt, hbit⟩ := BitMap.mem_clears.1 hj
  obtain ⟨f, m, halloc⟩ := exists_allocatePage pid access.addr hlt hbit
  exact ⟨_, .fault hidle htranslate halloc⟩

variable {garbage : ℕ → BitVec 32} {files : File → Prop}

/-- **An access is refused**, inside the address space or outside, exactly when its address is
misaligned, or its page is not resident and no frame is free. -/
theorem refused_iff (h : (system garbage files).Reachable s) (hidle : s.serving pid = none)
    (hsize : access.size = 1 ∨ access.size = 2 ∨ access.size = 4) :
    Refused space s pid access ↔ misaligned access.addr access.size = true ∨
      s.machine.entryFor pid (vpn access.addr) = none ∧ s.machine.memoryMap.numClear = 0 := by
  have hmapped := wellMapped_of_reachable h
  have htranslate : translate s.machine pid access = _ := hmapped.translate_eq hsize
  constructor
  · intro hrefused
    by_contra hcon
    rw [not_or] at hcon
    rw [if_neg hcon.1] at htranslate
    cases hentry : s.machine.entryFor pid (vpn access.addr) with
    | some j =>
      -- the page is resident: an earlier access may have brought it in
      rw [hentry] at htranslate
      obtain ⟨result, m', hperform⟩ := exists_perform hsize (s.machine.touch j access.writing)
        (j * PageSize + access.addr.toNat % PageSize)
      exact hrefused.noReturn ⟨0, fun _ => 0⟩ _ _ (.hit hidle htranslate hperform)
    | none =>
      rw [hentry] at htranslate
      have hfree : s.machine.memoryMap.numClear ≠ 0 := fun hzero => hcon.2 ⟨hentry, hzero⟩
      obtain ⟨s', hstep⟩ := @exists_fault _ _ _ ⟨0, fun _ => 0⟩ hidle htranslate hfree
      exact not_refused_of_fault hstep hrefused
  · intro hwrong
    apply refused_of_stuck
    rintro file e s' hstep rfl rfl
    rcases hwrong with haligned | ⟨hentry, hfull⟩
    · rw [if_pos haligned] at htranslate
      obtain ⟨p, m, hok⟩ | ⟨hfault, -⟩ := step_of_idle hstep hidle
      · rw [htranslate] at hok
        cases hok
      · rw [htranslate] at hfault
        cases hfault
    · rw [hentry] at htranslate
      obtain ⟨p, m, hok⟩ | ⟨-, f, m, halloc⟩ := step_of_idle hstep hidle
      · rw [htranslate] at hok
        split_ifs at hok <;> cases hok
      · obtain ⟨hf, hclear, -⟩ := allocatePage_eq halloc
        rw [BitMap.numClear_eq] at hfull
        have hmem := BitMap.mem_clears.2 ⟨hf, hclear⟩
        rw [List.eq_nil_of_length_eq_zero hfull] at hmem
        cases hmem

/-- A misaligned read of the last page there can be, by a program of 9 pages. -/
theorem refused_iff_misaligned :
    9 ≤ (vpn (int (-1))).toNat ∧ misaligned (int (-1)) 4 = true ∧
      Refused ⟨9⟩ ⟨.new fun _ => 0, fun _ => none⟩ 0 (.read (int (-1)) 4) := by
  have hstart : (system (fun _ => 0) fun _ => True).Reachable ⟨.new fun _ => 0, fun _ => none⟩ :=
    .of_init rfl
  refine ⟨by decide, by decide, ?_⟩
  apply (refused_iff hstart rfl (Or.inr (Or.inr rfl))).2
  exact Or.inl (by decide)

/-- A program of 9 pages reads page 512: the new machine gives it a frame and the read returns 0. -/
theorem outside_not_refused :
    ∃ start s₁ s₂, (system (fun _ => 0) fun _ => True).Reachable start ∧ start.serving 0 = none ∧
      9 ≤ (vpn 0x10000).toNat ∧ 9 * PageSize ≤ codePos 0x10000 ∧
      Step ⟨0, fun _ => 0⟩ start (.fault 0 (.read 0x10000 4)) s₁ ∧
      Step ⟨0, fun _ => 0⟩ s₁ (.done 0 (.read 0x10000 4) (some 0)) s₂ ∧
      ¬ Refused ⟨9⟩ start 0 (.read 0x10000 4) := by
  have hfault : outcome (translate (.new fun _ => 0) 0 (.read 0x10000 4)) =
      some (.error .pageFaultException) := by decide +kernel
  have hserve : (serve ⟨0, fun _ => 0⟩ (.new fun _ => 0) 0 (.read 0x10000 4)).map
      (fun r => (r.1, r.2.1)) = some (0, some 0) := by decide +kernel
  obtain ⟨⟨f, result, m⟩, hserve, heq⟩ := Option.map_eq_some_iff.1 hserve
  obtain ⟨rfl, rfl⟩ := Prod.mk.inj heq
  obtain ⟨s₁, -, hstep, hdone⟩ :=
    @step_serve _ _ _ (fun _ => none) _ _ _ _ rfl hfault hserve
  exact ⟨_, s₁, _, .of_init rfl, rfl, by decide, by decide, hstep, hdone, not_refused_of_fault hstep⟩

end Nachos.Paging
