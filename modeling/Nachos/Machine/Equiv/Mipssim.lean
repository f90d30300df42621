import Nachos.Userprog.Execution

/-!
# Instructions and page faults

Two memories run the same instruction.  In the one no access fails for want of a page; in the other a
page may have to be brought in first (`Simulates`).  A page fault raises an exception, and that performs
the pending load in the middle of the instruction.  So the registers of the two runs are the same, but
for `BadVAddrReg`, or those of the second run are already past the load (`Related`).

* `Related.read`, `Related.write`: registers that the instruction uses are the same in both.
* `Related.flush`: another page fault keeps the relation.
* `Related.delayedLoad`: when the pending load is performed in both, the registers are the same.
* `accessMem_matches`, and one lemma for each family of instructions, lead to `execute_matches`.
* `oneInstruction_matches`: the two runs come to the same end.
-/

namespace Nachos.Mips

open Coupling Comp Paging

variable {l i : Register} {r r' : Registers} {l' : Register}

/-! ### Registers of the two runs -/

/-- A register that is not used for loads and exceptions. -/
abbrev Ordinary (i : Register) : Prop := i ≠ LoadReg ∧ i ≠ LoadValueReg ∧ i ≠ BadVAddrReg

/-- The registers are the same, but for `BadVAddrReg`. -/
def Same (r r' : Registers) : Prop := ∀ i, i ≠ BadVAddrReg → r' i = r i

/-- The load into `l` that is pending in `r` has been performed in `r'`. -/
structure Flushed (l : Register) (r r' : Registers) : Prop where
  loadReg : r' LoadReg = 0
  loadValue : r' LoadValueReg = 0
  loaded : l ≠ 0 → r' l = r LoadValueReg
  other : ∀ i, (i = l → l = 0) → Ordinary i → r' i = r i

/-- Registers of the two runs in the middle of an instruction; a load into `l` is pending. -/
structure Related (l : Register) (r r' : Registers) : Prop where
  pending : r LoadReg = BitVec.ofNat 32 l
  same_or_flushed : Same r r' ∨ Flushed l r r'

/-- A register that an instruction may use while a load into `l` is pending. -/
def Apart (l i : Register) : Prop := (i = l → l = 0) ∧ Ordinary i

theorem Related.read (h : Related l r r') (hi : Apart l i) : r' i = r i := by
  rcases h.same_or_flushed with hsame | hflushed
  · exact hsame i hi.2.2.2
  · exact hflushed.other i hi.1 hi.2

theorem Related.write (h : Related l r r') (hi : Apart l i) (v : CInt) :
    Related l (Function.update r i v) (Function.update r' i v) := by
  obtain ⟨hil, hload, hvalue, -⟩ := hi
  refine ⟨?_, ?_⟩
  · rw [Function.update_of_ne hload.symm]
    exact h.pending
  · rcases h.same_or_flushed with hsame | hflushed
    · left
      intro j hj
      by_cases hji : j = i
      · rw [hji, Function.update_self, Function.update_self]
      · rw [Function.update_of_ne hji, Function.update_of_ne hji]
        exact hsame j hj
    · right
      refine ⟨?_, ?_, ?_, ?_⟩
      · rw [Function.update_of_ne hload.symm]
        exact hflushed.loadReg
      · rw [Function.update_of_ne hvalue.symm]
        exact hflushed.loadValue
      · intro hl
        have hli : l ≠ i := fun hli => hl (hil hli.symm)
        rw [Function.update_of_ne hli, Function.update_of_ne hvalue.symm]
        exact hflushed.loaded hl
      · intro j hjl hj
        by_cases hji : j = i
        · rw [hji, Function.update_self, Function.update_self]
        · rw [Function.update_of_ne hji, Function.update_of_ne hji]
          exact hflushed.other j hjl hj

/-! ### The delayed load -/

/-- The registers after `DelayedLoad`, when a load into `l` is pending. -/
def loadInto (l : Register) (r : Registers) (nextReg nextValue : CInt) : Registers :=
  Function.update (Function.update (Function.update (Function.update r l (r LoadValueReg))
    LoadReg nextReg) LoadValueReg nextValue) 0 0

theorem loadInto_apply (l : Register) (r : Registers) (nextReg nextValue : CInt) (i : Register) :
    loadInto l r nextReg nextValue i =
      if i = 0 then 0 else if i = LoadValueReg then nextValue else if i = LoadReg then nextReg
      else if i = l then r LoadValueReg else r i := by
  unfold loadInto
  simp only [Function.update_apply]

theorem delayedLoad_apply {σ : Type} {s : State σ} (h : s.registers LoadReg = BitVec.ofNat 32 l)
    (nextReg nextValue : CInt) :
    delayedLoad nextReg nextValue s =
      some (.ok (), { s with registers := loadInto l s.registers nextReg nextValue }) := by
  have hl : (s.registers LoadReg).toNat = l.val := by
    rw [h, BitVec.toNat_ofNat, Nat.mod_eq_of_lt]
    exact l.isLt.trans (by decide)
  have hlt : (s.registers LoadReg).toNat < NumTotalRegs := by
    rw [hl]
    exact l.isLt
  have hreg : (⟨(s.registers LoadReg).toNat, hlt⟩ : Register) = l := Fin.ext hl
  have hget : reg LoadReg s = some (.ok (s.registers LoadReg), s) := rfl
  unfold delayedLoad
  rw [bind_of_ok hget, dif_pos hlt, hreg]
  rfl

/-- In the second run a load into `l'` is pending: the same, or one into register 0. -/
def Stage (l l' : Register) (r r' : Registers) : Prop :=
  l' = l ∧ Same r r' ∨ l' = 0 ∧ Flushed l r r'

theorem Related.exists_stage (h : Related l r r') :
    ∃ l' : Register, r' LoadReg = BitVec.ofNat 32 l' ∧ Stage l l' r r' := by
  rcases h.same_or_flushed with hsame | hflushed
  · have hpending := (hsame LoadReg (by decide)).trans h.pending
    exact ⟨l, hpending, Or.inl ⟨rfl, hsame⟩⟩
  · exact ⟨0, hflushed.loadReg, Or.inr ⟨rfl, hflushed⟩⟩

/-- When both loads have been performed, the registers are the same. -/
theorem Stage.loadInto (h : Stage l l' r r') (nextReg nextValue : CInt) :
    Same (Mips.loadInto l r nextReg nextValue) (Mips.loadInto l' r' nextReg nextValue) := by
  intro i hi
  rw [loadInto_apply, loadInto_apply]
  rcases h with ⟨rfl, hsame⟩ | ⟨rfl, hflushed⟩
  · rw [hsame i hi, hsame LoadValueReg (by decide)]
  · by_cases hzero : i = 0
    · rw [if_pos hzero, if_pos hzero]
    by_cases hvalue : i = LoadValueReg
    · subst hvalue
      rfl
    by_cases hload : i = LoadReg
    · subst hload
      rfl
    simp only [hzero, hvalue, hload, if_false]
    split_ifs with hil
    · rw [hil]
      exact hflushed.loaded (fun hl => hzero (hil.trans hl))
    · exact hflushed.other i (fun h => absurd h hil) ⟨hload, hvalue, hi⟩

theorem Stage.badVAddr (h : Stage l l' r r') (hl : Ordinary l) (a : CInt) :
    Stage l l' (Function.update r BadVAddrReg a) (Function.update r' BadVAddrReg a) := by
  have hother : ∀ (r : Registers) {i}, i ≠ BadVAddrReg → Function.update r BadVAddrReg a i = r i :=
    fun r _ hi => Function.update_of_ne hi a r
  rcases h with ⟨rfl, hsame⟩ | ⟨rfl, hflushed⟩
  · left
    refine ⟨rfl, ?_⟩
    intro i hi
    rw [hother r hi, hother r' hi]
    exact hsame i hi
  · right
    refine ⟨rfl, ?_, ?_, ?_, ?_⟩
    · rw [hother r' (by decide)]
      exact hflushed.loadReg
    · rw [hother r' (by decide)]
      exact hflushed.loadValue
    · intro hne
      rw [hother r' hl.2.2, hother r (by decide)]
      exact hflushed.loaded hne
    · intro i hil hi
      rw [hother r hi.2.2, hother r' hi.2.2]
      exact hflushed.other i hil hi

/-- An exception in the second run performs the load there, if it has not been performed yet. -/
theorem Related.flush (h : Related l r r') (hl : Ordinary l) (hzero : r 0 = 0) (hl' : Stage l l' r r')
    (a : CInt) : Related l r (loadInto l' (Function.update r' BadVAddrReg a) 0 0) := by
  have hvalue : Function.update r' BadVAddrReg a LoadValueReg = r' LoadValueReg :=
    Function.update_of_ne (by decide) _ _
  refine ⟨h.pending, Or.inr ⟨rfl, rfl, ?_, ?_⟩⟩
  · intro hne
    obtain ⟨hload, hloadValue, hbad⟩ := hl
    rw [loadInto_apply, if_neg hne, if_neg hloadValue, if_neg hload, hvalue]
    rcases hl' with ⟨rfl, hsame⟩ | ⟨rfl, hflushed⟩
    · rw [if_pos rfl]
      exact hsame LoadValueReg (by decide)
    · rw [if_neg hne, Function.update_of_ne hbad]
      exact hflushed.loaded hne
  · intro i hil hi
    rw [loadInto_apply]
    by_cases hi0 : i = 0
    · rw [if_pos hi0, hi0, hzero]
    rw [if_neg hi0, if_neg hi.2.1, if_neg hi.1, if_neg ?_, Function.update_of_ne hi.2.2]
    · exact h.read ⟨hil, hi⟩
    · rintro rfl
      rcases hl' with ⟨rfl, -⟩ | ⟨rfl, -⟩
      · exact hi0 (hil rfl)
      · exact hi0 rfl

/-! ### Memories of the two runs -/

section Memories

variable {σ τ : Type} (mem : MemorySystem σ) (mem' : MemorySystem τ) (M : σ → τ → Prop)

/-- The outcomes of an access in the two memories. -/
inductive Served (m : σ) (m' : τ) (access : Access) : Prop where
  | misaligned (h : mem.access m access = some (.error .addressErrorException))
      (h' : mem'.access m' access = some (.error .addressErrorException))
  | hit {result m₁ m₁'} (h : mem.access m access = some (.ok (result, m₁)))
      (h' : mem'.access m' access = some (.ok (result, m₁'))) (hM : M m₁ m₁')
  /-- The page has to be brought in. -/
  | fault {result m₁ m₀' m₁'} (h : mem.access m access = some (.ok (result, m₁)))
      (hfault : mem'.access m' access = some (.error .pageFaultException))
      (hserve : mem'.pageFault m' access.addr = some m₀')
      (h' : mem'.access m₀' access = some (.ok (result, m₁'))) (hM : M m₁ m₁')

/-- Accesses to the pages have the same results in the two memories, but in the second a page may have
to be brought in. -/
def Simulates (pages : List CInt) : Prop :=
  ∀ m m' access, M m m' → (access.size = 1 ∨ access.size = 2 ∨ access.size = 4) →
    Machine.vpn access.addr ∈ pages → Served mem mem' M m m' access

/-- The states of the two runs in the middle of an instruction. -/
structure Sim (l : Register) (s : State σ) (t : State τ) : Prop where
  registers : Related l s.registers t.registers
  memory : M s.memory t.memory

/-- The states at the end. -/
structure Final (s : State σ) (t : State τ) : Prop where
  registers : Same s.registers t.registers
  memory : M s.memory t.memory

end Memories

/-- Exceptions are handled by the kernel. -/
class KernelHandler {σ : Type} (mem : MemorySystem σ) : Prop where
  handler_eq : mem.handler = exceptionHandler mem.pageFault

instance (virtualMemory : File) (pid : ℤ) : KernelHandler (paged virtualMemory pid) := ⟨rfl⟩

instance (pid : ℤ) : KernelHandler (flat pid) := ⟨rfl⟩

section Runs

variable {σ τ α β : Type} {mem : MemorySystem σ} {mem' : MemorySystem τ} {M : σ → τ → Prop}
  {pages : List CInt} {s : State σ} {t : State τ} {S : β → State σ → State τ → Prop}
  {E : Ending → State σ → State τ → Prop} {access : Access} {result : Option CInt} {size : ℕ}

theorem Sim.reg_bind (h : Sim M l s t) (hi : Apart l i) {f : CInt → Comp Ending (State σ) β}
    {g : CInt → Comp Ending (State τ) β}
    (hnext : Matches S E (f (s.registers i) s) (g (s.registers i) t)) :
    Matches S E ((reg i >>= f) s) ((reg i >>= g) t) := by
  have hget : reg i s = some (.ok (s.registers i), s) := rfl
  have hget' : reg i t = some (.ok (s.registers i), t) := by
    rw [← h.registers.read hi]
    rfl
  rw [bind_of_ok hget, bind_of_ok hget']
  exact hnext

theorem Sim.setReg (h : Sim M l s t) (hi : Apart l i) (v : CInt) :
    Matches (fun _ => Sim M l) E (setReg i v s) (setReg i v t) :=
  .ret ⟨h.registers.write hi v, h.memory⟩

/-! ### Exceptions -/

theorem raiseException_apply (mem : MemorySystem σ) (which : ExceptionType) (a : CInt)
    (h : s.registers LoadReg = BitVec.ofNat 32 l) :
    raiseException mem which a s = mem.handler which
      { s with registers := loadInto l (Function.update s.registers BadVAddrReg a) 0 0 } := by
  have hset : Mips.setReg BadVAddrReg a s =
      some (.ok (), { s with registers := Function.update s.registers BadVAddrReg a }) := rfl
  have hpending : (⟨Function.update s.registers BadVAddrReg a, s.memory⟩ : State σ).registers
      LoadReg = BitVec.ofNat 32 l := h
  unfold raiseException
  rw [bind_of_ok hset, bind_of_ok (delayedLoad_apply hpending 0 0)]

theorem attempt_ok {m : σ} (h : mem.access s.memory access = some (.ok (result, m))) :
    attempt mem access s = some (.ok (.ok result), { s with memory := m }) := by
  unfold attempt
  rw [h]
  rfl

theorem attempt_error {exception : ExceptionType}
    (h : mem.access s.memory access = some (.error exception)) :
    attempt mem access s = some (.ok (.error exception), s) := by
  unfold attempt
  rw [h]
  rfl

theorem accessMem_hit {m : σ} (h : mem.access s.memory access = some (.ok (result, m))) :
    accessMem mem access s = some (.ok result, { s with memory := m }) := by
  unfold accessMem
  rw [bind_of_ok (attempt_ok h)]
  rfl

variable [KernelHandler mem] [KernelHandler mem']

/-- The exceptions that the handler does not know. -/
theorem raiseException_abort {which : ExceptionType} (hsyscall : which ≠ .syscallException)
    (hfault : which ≠ .pageFaultException) (a : CInt)
    (h : s.registers LoadReg = BitVec.ofNat 32 l) : raiseException mem which a s = none := by
  rw [raiseException_apply mem which a h, KernelHandler.handler_eq]
  cases which <;> first | rfl | contradiction

theorem raiseException_pageFault {m₀ : σ} {a : CInt} (hl : Ordinary l)
    (h : s.registers LoadReg = BitVec.ofNat 32 l) (hserve : mem.pageFault s.memory a = some m₀) :
    raiseException mem .pageFaultException a s =
      some (.ok (), ⟨loadInto l (Function.update s.registers BadVAddrReg a) 0 0, m₀⟩) := by
  rw [raiseException_apply mem _ a h, KernelHandler.handler_eq]
  have hbad : loadInto l (Function.update s.registers BadVAddrReg a) 0 0 BadVAddrReg = a := by
    rw [loadInto_apply, if_neg (by decide), if_neg (by decide), if_neg (by decide),
      if_neg hl.2.2.symm, Function.update_self]
  show servePageFault mem.pageFault
    (loadInto l (Function.update s.registers BadVAddrReg a) 0 0 BadVAddrReg) _ = _
  rw [hbad, servePageFault, hserve]
  rfl

/-- An exception in both runs. -/
theorem Sim.raise (h : Sim M l s t) (hl : Ordinary l) {which : ExceptionType}
    (hfault : which ≠ .pageFaultException) (a : CInt) :
    Matches S (fun _ => Final M) (raise mem which a s) (raise mem' which a t) := by
  obtain ⟨l', hpending, hstage⟩ := h.registers.exists_stage
  by_cases hsyscall : which = .syscallException
  · subst hsyscall
    have hsame := (hstage.badVAddr hl a).loadInto 0 0
    unfold Mips.raise
    rw [bind_apply, bind_apply, raiseException_apply mem _ a h.registers.pending,
      raiseException_apply mem' _ a hpending, KernelHandler.handler_eq, KernelHandler.handler_eq]
    unfold exceptionHandler
    rw [bind_apply, bind_apply]
    dsimp only [reg]
    rw [hsame 2 (by decide)]
    split_ifs
    · exact .stop ⟨hsame, h.memory⟩
    · exact .stop ⟨hsame, h.memory⟩
    · exact .abort
  · unfold Mips.raise
    rw [bind_of_abort (raiseException_abort hsyscall hfault a h.registers.pending),
      bind_of_abort (raiseException_abort hsyscall hfault a hpending)]
    exact .abort

/-! ### Accesses -/

theorem accessMem_misaligned (hpending : s.registers LoadReg = BitVec.ofNat 32 l)
    (h : mem.access s.memory access = some (.error .addressErrorException)) :
    accessMem mem access s = none := by
  unfold accessMem
  rw [bind_of_ok (attempt_error h)]
  exact bind_of_abort (raiseException_abort (by decide) (by decide) _ hpending)

theorem accessMem_fault {m₀ m : σ} (hl : Ordinary l)
    (hpending : s.registers LoadReg = BitVec.ofNat 32 l)
    (hfault : mem.access s.memory access = some (.error .pageFaultException))
    (hserve : mem.pageFault s.memory access.addr = some m₀)
    (h : mem.access m₀ access = some (.ok (result, m))) :
    accessMem mem access s = some (.ok result,
      ⟨loadInto l (Function.update s.registers BadVAddrReg access.addr) 0 0, m⟩) := by
  unfold accessMem
  rw [bind_of_ok (attempt_error hfault)]
  dsimp only
  rw [bind_of_ok (raiseException_pageFault hl hpending hserve)]
  have hattempt := @attempt_ok σ mem
    ⟨loadInto l (Function.update s.registers BadVAddrReg access.addr) 0 0, m₀⟩ access result m h
  rw [bind_of_ok hattempt]
  rfl

/-- An access in both runs; the registers of the first run do not change. -/
theorem Sim.accessMem (h : Sim M l s t) (hl : Ordinary l) (hzero : s.registers 0 = 0)
    (hserved : Served mem mem' M s.memory t.memory access) :
    Matches (fun result s' t' => Sim M l s' t' ∧ s'.registers = s.registers ∧
        ∃ m, mem.access s.memory access = some (.ok (result, m))) E
      (accessMem mem access s) (accessMem mem' access t) := by
  obtain ⟨l', hpending, hstage⟩ := h.registers.exists_stage
  cases hserved with
  | misaligned hs ht =>
    rw [accessMem_misaligned h.registers.pending hs, accessMem_misaligned hpending ht]
    exact .abort
  | hit hs ht hM =>
    rw [accessMem_hit hs, accessMem_hit ht]
    exact .ret ⟨⟨h.registers, hM⟩, rfl, _, hs⟩
  | fault hs hfault hserve ht hM =>
    have hl' : Ordinary l' := by
      rcases hstage with ⟨rfl, -⟩ | ⟨rfl, -⟩
      · exact hl
      · decide
    rw [accessMem_hit hs, accessMem_fault hl' hpending hfault hserve ht]
    exact .ret ⟨⟨h.registers.flush hl hzero hstage _, hM⟩, rfl, _, hs⟩

theorem Sim.readMem (h : Sim M l s t) (hl : Ordinary l) (hzero : s.registers 0 = 0) {a : CInt}
    (hserved : Served mem mem' M s.memory t.memory (.read a size)) :
    Matches (fun value s' t' => Sim M l s' t' ∧ s'.registers = s.registers ∧
        ∃ result m, mem.access s.memory (.read a size) = some (.ok (result, m)) ∧
          value = result.getD 0) E
      (readMem mem a size s) (readMem mem' a size t) := by
  unfold Mips.readMem
  apply (h.accessMem hl hzero hserved).bind
  rintro result s' t' ⟨h', hregisters, m, hm⟩
  exact .ret ⟨h', hregisters, result, m, hm, rfl⟩

theorem Sim.writeMem (h : Sim M l s t) (hl : Ordinary l) (hzero : s.registers 0 = 0) {a v : CInt}
    (hserved : Served mem mem' M s.memory t.memory (.write a size v)) :
    Matches (fun _ => Sim M l) E (writeMem mem a size v s) (writeMem mem' a size v t) := by
  unfold Mips.writeMem
  apply (h.accessMem hl hzero hserved).bind
  rintro _ s' t' ⟨h', -⟩
  exact .ret h'

/-! ### Instructions that do not use memory -/

section Compute

variable {instr : Instruction} (h : Sim M l s t)

include h

theorem Sim.threeRegisters (hrs : Apart l instr.rs) (hrt : Apart l instr.rt) (hrd : Apart l instr.rd)
    (f : CInt → CInt → CInt) :
    Matches (fun _ => Sim M l) E (threeRegisters instr f s) (threeRegisters instr f t) := by
  unfold Mips.threeRegisters
  apply h.reg_bind hrs
  apply h.reg_bind hrt
  exact h.setReg hrd _

theorem Sim.immediate (hrs : Apart l instr.rs) (hrt : Apart l instr.rt) (f : CInt → CInt) :
    Matches (fun _ => Sim M l) E (immediate instr f s) (immediate instr f t) := by
  unfold Mips.immediate
  apply h.reg_bind hrs
  exact h.setReg hrt _

theorem Sim.shift (hrt : Apart l instr.rt) (hrd : Apart l instr.rd) (f : CInt → CInt) :
    Matches (fun _ => Sim M l) E (shift instr f s) (shift instr f t) := by
  unfold Mips.shift
  apply h.reg_bind hrt
  exact h.setReg hrd _

theorem Sim.move {target source : Register} (htarget : Apart l target) (hsource : Apart l source) :
    Matches (fun _ => Sim M l) E (move target source s) (move target source t) := by
  unfold Mips.move
  apply h.reg_bind hsource
  exact h.setReg htarget _

theorem Sim.setTwo {i j : Register} (hi : Apart l i) (hj : Apart l j) (v w : CInt) :
    Matches (fun _ => Sim M l) E ((do Mips.setReg i v; Mips.setReg j w : Comp Ending (State σ) Unit) s)
      ((do Mips.setReg i v; Mips.setReg j w : Comp Ending (State τ) Unit) t) := by
  apply (h.setReg hi v).bind
  intro _ s' t' h'
  exact h'.setReg hj w

theorem Sim.link {target : Register} (htarget : Apart l target) (hpc : Apart l NextPCReg) :
    Matches (fun _ => Sim M l) E (link target s) (link target t) := by
  unfold Mips.link
  apply h.reg_bind hpc
  exact h.setReg htarget _

theorem Sim.branch (hpc : Apart l NextPCReg) (taken : Bool) (pcAfter : CInt) :
    Matches (fun _ => Sim M l) E (branch instr taken pcAfter s) (branch instr taken pcAfter t) := by
  unfold Mips.branch
  split_ifs
  · apply h.reg_bind hpc
    exact .ret h
  · exact .ret h

theorem Sim.branchOn (hrs : Apart l instr.rs) (hpc : Apart l NextPCReg) (test : CInt → Bool)
    (pcAfter : CInt) :
    Matches (fun _ => Sim M l) E (branchOn instr test pcAfter s) (branchOn instr test pcAfter t) := by
  unfold Mips.branchOn
  apply h.reg_bind hrs
  exact h.branch hpc _ _

end Compute

/-- Nothing is left to do but to return. -/
theorem Matches.then_return {p : Comp Ending (State σ) Unit} {q : Comp Ending (State τ) Unit}
    (h : Matches (fun _ => Sim M l) E (p s) (q t)) (next : β) :
    Matches (fun _ => Sim M l) E ((do p; return next : Comp Ending (State σ) β) s)
      ((do q; return next : Comp Ending (State τ) β) t) := by
  apply h.bind
  intro _ s' t' h'
  exact .ret h'

/-! ### Loads and stores -/

theorem and_not_of_and_eq_zero {a b : CInt} (h : a &&& b = 0) : a &&& ~~~b = a := by
  apply BitVec.eq_of_getLsbD_eq
  intro i hi
  have hbit := congrArg (BitVec.getLsbD · i) h
  simp only [BitVec.getLsbD_and, BitVec.ofNat_eq_ofNat, BitVec.getLsbD_zero] at hbit
  simp only [BitVec.getLsbD_and, BitVec.getLsbD_not, hi, decide_true, Bool.true_and]
  cases ha : a.getLsbD i <;> simp_all

theorem ofNat_eq_iff (l : Register) (rt : Fin NumGPRegs) :
    BitVec.ofNat 32 l = BitVec.ofNat 32 rt ↔ l = (rt : Register) := by
  rw [← BitVec.toNat_inj, BitVec.toNat_ofNat, BitVec.toNat_ofNat,
    Nat.mod_eq_of_lt (l.isLt.trans (by decide)), Nat.mod_eq_of_lt (rt.isLt.trans (by decide)),
    Fin.ext_iff]
  rfl

/-- The value of the register for `LWL` and `LWR` is the same in both runs, unless a load into register
0 is pending and its value has been forgotten. -/
theorem Sim.oldValue {instr : Instruction} (h : Sim M l s t) (hzero : s.registers 0 = 0)
    (hrt : Apart l instr.rt) : ∃ v v', oldValue instr s = some (.ok v, s) ∧
      oldValue instr t = some (.ok v', t) ∧
        (v' = v ∨ l = 0 ∧ instr.rt = 0 ∧ v = s.registers LoadValueReg ∧ v' = 0) := by
  have hrun : ∀ {υ : Type} (u : State υ), Mips.oldValue instr u = some (.ok
      (if u.registers LoadReg = BitVec.ofNat 32 instr.rt then u.registers LoadValueReg
        else u.registers instr.rt), u) := by
    intro υ u
    have hget : reg LoadReg u = some (.ok (u.registers LoadReg), u) := rfl
    unfold Mips.oldValue
    rw [bind_of_ok hget]
    split_ifs <;> rfl
  refine ⟨_, _, hrun s, hrun t, ?_⟩
  rw [h.registers.read hrt]
  rcases h.registers.same_or_flushed with hsame | hflushed
  · left
    rw [hsame LoadReg (by decide), hsame LoadValueReg (by decide)]
  · rw [h.registers.pending, hflushed.loadReg, hflushed.loadValue]
    have hpending := ofNat_eq_iff l instr.rt
    have hnone : (0 : CInt) = BitVec.ofNat 32 instr.rt ↔ 0 = (instr.rt : Register) :=
      ofNat_eq_iff 0 instr.rt
    by_cases hrt0 : 0 = (instr.rt : Register)
    · rw [if_pos (hnone.2 hrt0)]
      by_cases hl0 : l = 0
      · right
        refine ⟨hl0, Fin.ext (congrArg Fin.val hrt0).symm, ?_, rfl⟩
        exact if_pos (hpending.2 (hl0.trans hrt0))
      · left
        rw [if_neg (fun heq => hl0 ((hpending.1 heq).trans hrt0.symm)), ← hrt0, hzero]
    · left
      rw [if_neg (fun heq => hrt0 (hnone.1 heq)), if_neg]
      intro heq
      have hl := hpending.1 heq
      exact hrt0 ((hrt.1 hl.symm).symm.trans hl)

section LoadStore

variable {instr : Instruction} (h : Sim M l s t) (hl : Ordinary l) (hzero : s.registers 0 = 0)
  (hsim : Simulates mem mem' M pages) (hrs : Apart l instr.rs)
  (hpage : Machine.vpn (s.registers instr.rs + instr.extra) ∈ pages)

include h hl hzero hsim hrs hpage

theorem Sim.load (hsize : size = 1 ∨ size = 2 ∨ size = 4) (extend : CInt → CInt) (pcAfter : CInt) :
    Matches (fun _ => Sim M l) (fun _ => Final M)
      (load mem instr size extend pcAfter s) (load mem' instr size extend pcAfter t) := by
  unfold Mips.load
  apply h.reg_bind hrs
  split_ifs
  · exact h.raise hl (by decide) _
  · apply (h.readMem hl hzero (hsim _ _ _ h.memory hsize hpage)).bind
    rintro value s' t' ⟨h', -⟩
    exact .ret h'

theorem Sim.store (hrt : Apart l instr.rt) (hsize : size = 1 ∨ size = 2 ∨ size = 4) (pcAfter : CInt) :
    Matches (fun _ => Sim M l) (fun _ => Final M)
      (store mem instr size pcAfter s) (store mem' instr size pcAfter t) := by
  unfold Mips.store
  apply h.reg_bind hrs
  apply h.reg_bind hrt
  exact Matches.then_return (h.writeMem hl hzero (hsim _ _ _ h.memory hsize hpage)) _

theorem Sim.storePart (hrt : Apart l instr.rt) (merge : CInt → CInt → CInt → CInt) (pcAfter : CInt) :
    Matches (fun _ => Sim M l) (fun _ => Final M)
      (storePart mem instr merge pcAfter s) (storePart mem' instr merge pcAfter t) := by
  unfold Mips.storePart
  apply h.reg_bind hrs
  split_ifs with haligned
  · rw [and_not_of_and_eq_zero haligned]
    apply (h.readMem hl hzero (hsim _ _ _ h.memory (Or.inr (Or.inr rfl)) hpage)).bind
    rintro value s' t' ⟨h', hregisters, -⟩
    apply h'.reg_bind hrt
    apply Matches.then_return
    apply h'.writeMem hl (by rw [hregisters, hzero])
    exact hsim _ _ _ h'.memory (Or.inr (Or.inr rfl)) hpage
  · exact .abort

/-- The old value of a register may be the pending one.  When register 0 has a load pending, the second
run may have forgotten its value. -/
theorem Sim.loadPart (hrt : Apart l instr.rt) (merge : CInt → CInt → CInt → CInt)
    (hmerge : l = 0 → instr.rt = 0 →
      ∀ value, merge 0 0 value = merge 0 (s.registers LoadValueReg) value) (pcAfter : CInt) :
    Matches (fun _ => Sim M l) (fun _ => Final M)
      (loadPart mem instr merge pcAfter s) (loadPart mem' instr merge pcAfter t) := by
  unfold Mips.loadPart
  apply h.reg_bind hrs
  split_ifs with haligned
  · apply (h.readMem hl hzero (hsim _ _ _ h.memory (Or.inr (Or.inr rfl)) hpage)).bind
    rintro value s' t' ⟨h', hregisters, -⟩
    obtain ⟨v, v', hv, hv', hold⟩ := h'.oldValue (by rw [hregisters, hzero]) hrt
    rw [bind_of_ok hv, bind_of_ok hv', haligned]
    have heq : merge 0 v' value = merge 0 v value := by
      rcases hold with rfl | ⟨hl0, hrt0, rfl, rfl⟩
      · rfl
      · rw [hregisters]
        exact hmerge hl0 hrt0 value
    rw [heq]
    exact .ret h'
  · exact .abort

end LoadStore

/-! ### `OneInstruction` -/

theorem ordinary_gpr (i : Fin NumGPRegs) : Ordinary i := by
  revert i
  decide

theorem Instruction.Spares.apart {instr : Instruction} (h : instr.Spares l)
    (hi : i ∈ instr.reads ++ instr.writes) (hordinary : Ordinary i) : Apart l i := by
  refine ⟨?_, hordinary⟩
  rintro rfl
  rcases h with hzero | ⟨hreads, hwrites⟩
  · exact hzero
  · rcases List.mem_append.1 hi with hread | hwrite
    · exact absurd hread hreads
    · exact absurd hwrite hwrites

theorem Instruction.Spares.ordinary {instr : Instruction} (h : instr.Spares l) : Ordinary l := by
  rcases h with rfl | ⟨-, hwrites⟩
  · decide
  · refine ⟨?_, ?_, ?_⟩ <;>
      · rintro rfl
        exact hwrites (by simp [Instruction.writes])

theorem execute_matches {instr : Instruction} (h : Sim M l s t) (hspares : instr.Spares l)
    (hzero : s.registers 0 = 0) (hsim : Simulates mem mem' M pages)
    (hpages : ∀ a, instr.dataAddress s.registers = some a → Machine.vpn a ∈ pages)
    (hlwr : l = 0 → instr.opCode = .lwr → instr.rt = 0 →
      s.registers LoadValueReg &&& 0xffffff00 = 0) (pcAfter : CInt) :
    Matches (fun _ => Sim M l) (fun _ => Final M)
      (execute mem instr pcAfter s) (execute mem' instr pcAfter t) := by
  have hl := hspares.ordinary
  have hrs (hmem : (instr.rs : Register) ∈ instr.reads ++ instr.writes) : Apart l instr.rs :=
    hspares.apart hmem (ordinary_gpr _)
  have hrt (hmem : (instr.rt : Register) ∈ instr.reads ++ instr.writes) : Apart l instr.rt :=
    hspares.apart hmem (ordinary_gpr _)
  have hrd (hmem : (instr.rd : Register) ∈ instr.reads ++ instr.writes) : Apart l instr.rd :=
    hspares.apart hmem (ordinary_gpr _)
  have hi (i : Register) (hmem : i ∈ instr.reads ++ instr.writes) (hordinary : Ordinary i) :
      Apart l i := hspares.apart hmem hordinary
  have hpc : Apart l NextPCReg := hspares.apart (by simp [Instruction.reads]) (by decide)
  unfold execute
  cases hop : instr.opCode
  case addu | and | nor | sllv | slt | sltu | srav | srlv | subu | xor =>
    exact Matches.then_return (h.threeRegisters (hrs (by simp [Instruction.reads, hop]))
      (hrt (by simp [Instruction.reads, hop])) (hrd (by simp [Instruction.writes, hop])) _) _
  case addiu | andi | ori | slti | sltiu | xori =>
    exact Matches.then_return (h.immediate (hrs (by simp [Instruction.reads, hop]))
      (hrt (by simp [Instruction.writes, hop])) _) _
  case sll | sra | srl =>
    exact Matches.then_return (h.shift (hrt (by simp [Instruction.reads, hop]))
      (hrd (by simp [Instruction.writes, hop])) _) _
  case add | sub =>
    apply h.reg_bind (hrs (by simp [Instruction.reads, hop]))
    apply h.reg_bind (hrt (by simp [Instruction.reads, hop]))
    split_ifs
    · exact h.raise hl (by decide) _
    · exact Matches.then_return (h.setReg (hrd (by simp [Instruction.writes, hop])) _) _
  case addi =>
    apply h.reg_bind (hrs (by simp [Instruction.reads, hop]))
    split_ifs
    · exact h.raise hl (by decide) _
    · exact Matches.then_return (h.setReg (hrt (by simp [Instruction.writes, hop])) _) _
  case lui =>
    exact Matches.then_return (h.setReg (hrt (by simp [Instruction.writes, hop])) _) _
  case or =>
    apply h.reg_bind (hrs (by simp [Instruction.reads, hop]))
    apply h.reg_bind (hrs (by simp [Instruction.reads, hop]))
    exact Matches.then_return (h.setReg (hrd (by simp [Instruction.writes, hop])) _) _
  case mfhi =>
    exact Matches.then_return (h.move (hrd (by simp [Instruction.writes, hop]))
      (hi HiReg (by simp [Instruction.reads, hop]) (by decide))) _
  case mflo =>
    exact Matches.then_return (h.move (hrd (by simp [Instruction.writes, hop]))
      (hi LoReg (by simp [Instruction.reads, hop]) (by decide))) _
  case mthi =>
    exact Matches.then_return (h.move (hi HiReg (by simp [Instruction.writes, hop]) (by decide))
      (hrs (by simp [Instruction.reads, hop]))) _
  case mtlo =>
    exact Matches.then_return (h.move (hi LoReg (by simp [Instruction.writes, hop]) (by decide))
      (hrs (by simp [Instruction.reads, hop]))) _
  case mult | multu =>
    apply h.reg_bind (hrs (by simp [Instruction.reads, hop]))
    apply h.reg_bind (hrt (by simp [Instruction.reads, hop]))
    exact Matches.then_return (h.setTwo (hi HiReg (by simp [Instruction.writes, hop]) (by decide))
      (hi LoReg (by simp [Instruction.writes, hop]) (by decide)) _ _) _
  case div =>
    have hhi := hi HiReg (by simp [Instruction.writes, hop]) (by decide)
    have hlo := hi LoReg (by simp [Instruction.writes, hop]) (by decide)
    apply h.reg_bind (hrs (by simp [Instruction.reads, hop]))
    apply h.reg_bind (hrt (by simp [Instruction.reads, hop]))
    split_ifs
    · exact Matches.then_return (h.setTwo hlo hhi _ _) _
    · exact .abort
    · exact Matches.then_return (h.setTwo hlo hhi _ _) _
  case divu =>
    have hhi := hi HiReg (by simp [Instruction.writes, hop]) (by decide)
    have hlo := hi LoReg (by simp [Instruction.writes, hop]) (by decide)
    apply h.reg_bind (hrs (by simp [Instruction.reads, hop]))
    apply h.reg_bind (hrt (by simp [Instruction.reads, hop]))
    split_ifs
    · exact Matches.then_return (h.setTwo hlo hhi _ _) _
    · exact Matches.then_return (h.setTwo hlo hhi _ _) _
  case beq | bne =>
    apply h.reg_bind (hrs (by simp [Instruction.reads, hop]))
    apply h.reg_bind (hrt (by simp [Instruction.reads, hop]))
    exact h.branch hpc _ _
  case bgez | bgtz | blez | bltz =>
    exact h.branchOn (hrs (by simp [Instruction.reads, hop])) hpc _ _
  case bgezal | bltzal =>
    apply (h.link (hi R31 (by simp [Instruction.writes, hop]) (by decide)) hpc).bind
    intro _ s' t' h'
    exact h'.branchOn (hrs (by simp [Instruction.reads, hop])) hpc _ _
  case j => exact .ret h
  case jal =>
    exact Matches.then_return
      (h.link (hi R31 (by simp [Instruction.writes, hop]) (by decide)) hpc) _
  case jr =>
    apply h.reg_bind (hrs (by simp [Instruction.reads, hop]))
    exact .ret h
  case jalr =>
    apply (h.link (hrd (by simp [Instruction.writes, hop])) hpc).bind
    intro _ s' t' h'
    apply h'.reg_bind (hrs (by simp [Instruction.reads, hop]))
    exact .ret h'
  case lb | lbu | lh | lhu | lw =>
    exact h.load hl hzero hsim (hrs (by simp [Instruction.reads, hop]))
      (hpages _ (by simp [Instruction.dataAddress, hop])) (by decide) _ _
  case sb | sh | sw =>
    exact h.store hl hzero hsim (hrs (by simp [Instruction.reads, hop]))
      (hpages _ (by simp [Instruction.dataAddress, hop])) (hrt (by simp [Instruction.reads, hop]))
      (by decide) _
  case swl | swr =>
    exact h.storePart hl hzero hsim (hrs (by simp [Instruction.reads, hop]))
      (hpages _ (by simp [Instruction.dataAddress, hop])) (hrt (by simp [Instruction.reads, hop])) _ _
  case lwl =>
    exact h.loadPart hl hzero hsim (hrs (by simp [Instruction.reads, hop]))
      (hpages _ (by simp [Instruction.dataAddress, hop])) (hrt (by simp [Instruction.reads, hop])) _
      (fun _ _ _ => rfl) _
  case lwr =>
    apply h.loadPart hl hzero hsim (hrs (by simp [Instruction.reads, hop]))
      (hpages _ (by simp [Instruction.dataAddress, hop])) (hrt (by simp [Instruction.reads, hop]))
    -- the only instruction that keeps bits of a pending value
    intro hl0 hrt0 value
    unfold mergeLWR
    rw [if_pos rfl, if_pos rfl, hlwr hl0 hop hrt0]
    rfl
  case syscall | res | unimp => exact h.raise hl (by decide) _

theorem Same.write (h : Same r r') (i : Register) {v v' : CInt} (hv : v' = v) :
    Same (Function.update r i v) (Function.update r' i v') := by
  intro j hj
  rw [hv]
  by_cases hji : j = i
  · rw [hji, Function.update_self, Function.update_self]
  · rw [Function.update_of_ne hji, Function.update_of_ne hji]
    exact h j hj

/-- The end of an instruction in both runs. -/
theorem Sim.complete (h : Sim M l s t) (next : Next) :
    Matches (fun _ => Final M) E (complete next s) (complete next t) := by
  obtain ⟨l', hpending, hstage⟩ := h.registers.exists_stage
  have hsame := hstage.loadInto next.nextLoadReg next.nextLoadValue
  unfold Mips.complete
  rw [bind_of_ok (delayedLoad_apply h.registers.pending _ _),
    bind_of_ok (delayedLoad_apply hpending _ _)]
  refine .ret ⟨?_, h.memory⟩
  have hprev := hsame.write PrevPCReg (hsame PCReg (by decide))
  exact (hprev.write PCReg (hprev NextPCReg (by decide))).write NextPCReg rfl

/-- **The two runs of an instruction come to the same end**, with the same registers, but for
`BadVAddrReg`, whether pages have to be brought in or not. -/
theorem oneInstruction_matches {instr : Instruction} (h : Sim M l s t)
    (hzero : s.registers 0 = 0) (hsim : Simulates mem mem' M (instr.pages s.registers))
    (hfetch : ∀ value m, mem.access s.memory (.read (s.registers PCReg) 4) = some (.ok (value, m)) →
      decode (value.getD 0) = instr) (hspares : instr.Spares l)
    (hlwr : l = 0 → instr.opCode = .lwr → instr.rt = 0 →
      s.registers LoadValueReg &&& 0xffffff00 = 0) :
    Matches (fun _ => Final M) (fun _ => Final M)
      (oneInstruction mem s) (oneInstruction mem' t) := by
  have hpc : Apart l PCReg := hspares.apart (by simp [Instruction.reads]) (by decide)
  have hnext : Apart l NextPCReg := hspares.apart (by simp [Instruction.reads]) (by decide)
  have hserved := hsim _ _ (.read (s.registers PCReg) 4) h.memory (Or.inr (Or.inr rfl))
    List.mem_cons_self
  unfold oneInstruction
  apply h.reg_bind hpc
  apply (h.readMem hspares.ordinary hzero hserved).bind
  rintro raw s' t' ⟨h', hregisters, value, m, hvalue, rfl⟩
  apply h'.reg_bind hnext
  rw [hfetch value m hvalue]
  rw [← hregisters] at hzero hsim hlwr
  refine (execute_matches h' hspares hzero hsim ?_ hlwr _).bind ?_
  · intro a ha
    unfold Instruction.pages
    simp [ha]
  · intro next s₁ t₁ h₁
    exact h₁.complete next

end Runs

end Nachos.Mips
