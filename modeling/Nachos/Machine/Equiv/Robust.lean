import Nachos.Machine.Equiv.R2000
import Nachos.Machine.RegisterFile
import Nachos.Machine.Robust

/-!
# Which instructions do not stop the simulator

The `switch` of `OneInstruction` raises exceptions, accesses memory and sets registers other than
`LoadReg` (`execute_post`).  So what becomes of a run depends on `LoadReg` at its start: when it holds
the number of a register, the run aborts only for the operands that are excluded
(`oneInstruction_isSome`), and otherwise it aborts at the first delayed load, which every run comes to
(`oneInstruction_eq_none`).
-/

namespace Nachos.Mips

open Coupling Comp Paging

/-! ### Instructions and `LoadReg` -/

section Execute

variable {σ α : Type} {mem : MemorySystem σ} {P : CInt → Prop} {A : Prop}
  {E : Ending → State σ → Prop} {s : State σ} {instr : Instruction}

/-- `LoadReg` has the property `P`. -/
abbrev Pending (P : CInt → Prop) (_ : α) (s : State σ) : Prop := P (s.registers LoadReg)

/-- Besides, the load that has been started is into the register `n`. -/
abbrev Starts (P : CInt → Prop) (n : CInt) (next : Next) (s : State σ) : Prop :=
  P (s.registers LoadReg) ∧ next.nextLoadReg = n

theorem setReg_post {i : Register} (h : P (s.registers LoadReg)) (hi : i ≠ LoadReg) (v : CInt) :
    Post A (Pending P) E (setReg i v s) := by
  show P (Function.update s.registers i v LoadReg)
  rwa [Function.update_of_ne hi.symm]

/-- The run goes on with the value of a register. -/
theorem reg_bind_post {i : Register} {S : α → State σ → Prop} {f : CInt → Comp Ending (State σ) α}
    (h : Post A S E (f (s.registers i) s)) : Post A S E ((reg i >>= f) s) := h

/-- The run goes on after a register has been set. -/
theorem setReg_bind_post {i : Register} {v : CInt} {S : α → State σ → Prop}
    {f : Unit → Comp Ending (State σ) α} (h : P (s.registers LoadReg)) (hi : i ≠ LoadReg)
    (hnext : ∀ s', P (s'.registers LoadReg) → Post A S E (f () s')) :
    Post A S E ((setReg i v >>= f) s) :=
  (setReg_post h hi v).bind fun _ => hnext

variable (hraise : ∀ {β : Type} {S : β → State σ → Prop} {s : State σ} (which : ExceptionType)
    (a : CInt), P (s.registers LoadReg) → Post A S E (raise mem which a s))
  (haccess : ∀ {s : State σ} (access : Access),
    access.size = 1 ∨ access.size = 2 ∨ access.size = 4 → P (s.registers LoadReg) →
      Post A (Pending P) E (accessMem mem access s))

theorem link_post {target : Register} (h : P (s.registers LoadReg)) (htarget : target ≠ LoadReg) :
    Post A (Pending P) E (link target s) := by
  unfold link
  apply reg_bind_post
  exact setReg_post h htarget _

theorem branch_post (h : P (s.registers LoadReg)) (taken : Bool) (pcAfter : CInt) :
    Post A (Starts P 0) E (branch instr taken pcAfter s) := by
  unfold branch
  cases taken
  · exact ⟨h, rfl⟩
  · exact ⟨h, rfl⟩

include haccess in
theorem readMem_post (h : P (s.registers LoadReg)) (a : CInt) {size : ℕ}
    (hsize : size = 1 ∨ size = 2 ∨ size = 4) : Post A (Pending P) E (readMem mem a size s) :=
  (haccess (.read a size) hsize h).bind fun _ _ h' => h'

include haccess in
theorem writeMem_post (h : P (s.registers LoadReg)) (a v : CInt) {size : ℕ}
    (hsize : size = 1 ∨ size = 2 ∨ size = 4) : Post A (Pending P) E (writeMem mem a size v s) :=
  (haccess (.write a size v) hsize h).bind fun _ _ h' => h'

include hraise haccess in
theorem load_post (h : P (s.registers LoadReg)) {size : ℕ} (hsize : size = 1 ∨ size = 2 ∨ size = 4)
    (extend : CInt → CInt) (pcAfter : CInt) :
    Post A (Starts P (BitVec.ofNat 32 instr.rt)) E (load mem instr size extend pcAfter s) := by
  unfold load
  apply reg_bind_post
  split_ifs
  · exact hraise _ _ h
  · exact (readMem_post haccess h _ hsize).bind fun _ _ h' => ⟨h', rfl⟩

include haccess in
theorem store_post (h : P (s.registers LoadReg)) {size : ℕ} (hsize : size = 1 ∨ size = 2 ∨ size = 4)
    (pcAfter : CInt) : Post A (Starts P 0) E (store mem instr size pcAfter s) := by
  unfold store
  apply reg_bind_post
  apply reg_bind_post
  exact (writeMem_post haccess h _ _ hsize).bind fun _ _ h' => ⟨h', rfl⟩

theorem oldValue_post (h : P (s.registers LoadReg)) :
    Post A (Pending P) E (oldValue instr s) := by
  unfold oldValue
  apply reg_bind_post
  split_ifs <;> exact h

include haccess in
theorem loadPart_post (h : P (s.registers LoadReg))
    (haligned : A ∨ s.registers instr.rs + instr.extra &&& 0x3 = 0)
    (merge : CInt → CInt → CInt → CInt) (pcAfter : CInt) :
    Post A (Starts P (BitVec.ofNat 32 instr.rt)) E (loadPart mem instr merge pcAfter s) := by
  unfold loadPart
  apply reg_bind_post
  split_ifs with hzero
  · apply (readMem_post haccess h _ (by decide)).bind
    intro value s' h'
    exact (oldValue_post h').bind fun _ _ h' => ⟨h', rfl⟩
  · exact haligned.resolve_right hzero

include haccess in
theorem storePart_post (h : P (s.registers LoadReg))
    (haligned : A ∨ s.registers instr.rs + instr.extra &&& 0x3 = 0)
    (merge : CInt → CInt → CInt → CInt) (pcAfter : CInt) :
    Post A (Starts P 0) E (storePart mem instr merge pcAfter s) := by
  unfold storePart
  apply reg_bind_post
  split_ifs with hzero
  · apply (readMem_post haccess h _ (by decide)).bind
    intro value s' h'
    apply reg_bind_post
    exact (writeMem_post haccess h' _ _ (by decide)).bind fun _ _ h' => ⟨h', rfl⟩
  · exact haligned.resolve_right hzero

include hraise haccess in
/-- The `switch` of `OneInstruction` does not change `LoadReg`, and starts a load into a general register
or none.  Besides raising exceptions and accessing memory it aborts at the addresses and operands excluded
here. -/
theorem execute_post (h : P (s.registers LoadReg)) (haligned : A ∨ instr.unaligned s.registers = false)
    (hdiv : A ∨ ¬ (instr.opCode = .div ∧ s.registers instr.rs = signBit ∧ s.registers instr.rt = -1))
    (pcAfter : CInt) : Post A (Starts P instr.nextLoadReg) E (execute mem instr pcAfter s) := by
  have hgpr (i : Fin NumGPRegs) : (i : Register) ≠ LoadReg := (ordinary_gpr i).1
  have hset (i : Register) (hi : i ≠ LoadReg) (v : CInt) : Post A (Starts P 0) E
      ((do setReg i v; return .pc pcAfter : Comp Ending (State σ) Next) s) :=
    setReg_bind_post h hi fun _ h' => ⟨h', rfl⟩
  have hset₂ (i j : Register) (hi : i ≠ LoadReg) (hj : j ≠ LoadReg) (v w : CInt) :
      Post A (Starts P 0) E
        ((do setReg i v; setReg j w; return .pc pcAfter : Comp Ending (State σ) Next) s) :=
    setReg_bind_post h hi fun _ h' => setReg_bind_post h' hj fun _ h' => ⟨h', rfl⟩
  unfold execute Instruction.nextLoadReg
  -- with the operation it is also known whether a load starts
  cases hop : instr.opCode <;> simp only [OpCode.isLoad, Bool.false_eq_true, if_false, if_true]
  case addu | and | nor | or | sllv | slt | sltu | srav | srlv | subu | xor => exact hset instr.rd (hgpr _) _
  case addiu | andi | lui | ori | slti | sltiu | xori => exact hset instr.rt (hgpr _) _
  case sll | sra | srl | mfhi | mflo => exact hset instr.rd (hgpr _) _
  case add | sub =>
    apply reg_bind_post
    apply reg_bind_post
    split_ifs
    · exact hraise _ _ h
    · exact hset instr.rd (hgpr _) _
  case addi =>
    apply reg_bind_post
    split_ifs
    · exact hraise _ _ h
    · exact hset instr.rt (hgpr _) _
  case mthi => exact hset HiReg (by decide) _
  case mtlo => exact hset LoReg (by decide) _
  case mult | multu => exact hset₂ HiReg LoReg (by decide) (by decide) _ _
  case div =>
    apply reg_bind_post
    apply reg_bind_post
    split_ifs with hzero hover
    · exact hset₂ LoReg HiReg (by decide) (by decide) _ _
    · -- the quotient of the least integer by -1 is not an `int`
      exact hdiv.resolve_right (fun hnot => hnot ⟨hop, hover⟩)
    · exact hset₂ LoReg HiReg (by decide) (by decide) _ _
  case divu =>
    apply reg_bind_post
    apply reg_bind_post
    split_ifs with hzero
    · exact hset₂ LoReg HiReg (by decide) (by decide) _ _
    · exact hset₂ LoReg HiReg (by decide) (by decide) _ _
  case beq | bne =>
    apply reg_bind_post
    apply reg_bind_post
    exact branch_post h _ _
  case bgez | bgtz | blez | bltz =>
    apply reg_bind_post
    exact branch_post h _ _
  case bgezal | bltzal =>
    apply (link_post h (by decide)).bind
    intro _ s' h'
    apply reg_bind_post
    exact branch_post h' _ _
  case j => exact ⟨h, rfl⟩
  case jr => exact ⟨h, rfl⟩
  case jal => exact (link_post h (by decide)).bind fun _ _ h' => ⟨h', rfl⟩
  case jalr => exact (link_post h (hgpr _)).bind fun _ _ h' => ⟨h', rfl⟩
  case lb | lbu | lh | lhu | lw => exact load_post hraise haccess h (by decide) _ _
  case sb | sh | sw => exact store_post haccess h (by decide) _
  case lwl | lwr =>
    apply loadPart_post haccess h
    simpa [Instruction.unaligned, hop] using haligned
  case swl | swr =>
    apply storePart_post haccess h
    simpa [Instruction.unaligned, hop] using haligned
  case syscall | res | unimp => exact hraise _ _ h

end Execute

section Accesses

variable {σ : Type} {mem : MemorySystem σ} {A : Prop} {E : Ending → State σ → Prop} {s : State σ}

/-- An attempt does not change registers. -/
theorem attempt_post (access : Access) (hnone : mem.access s.memory access = none → A) :
    Post A (fun _ s' => s'.registers = s.registers) E (attempt mem access s) := by
  unfold attempt
  rcases h : mem.access s.memory access with _ | _ | _
  · exact hnone h
  · rfl
  · rfl

/-- **An access to memory**: the registers have `P`, unless an exception has been raised, and after one
they have `I`, also when the access fails again. -/
theorem accessMem_rule {P I : Registers → Prop} (access : Access)
    (hnone : ∀ m, mem.access m access = none → A)
    (hraise : ∀ which (s : State σ), P s.registers →
      Post A (fun _ s' => I s'.registers) E (raiseException mem which access.addr s))
    (hI : ∀ r, I r → P r) (hreturned : ∀ s : State σ, I s.registers → E .returned s)
    (h : P s.registers) : Post A (fun _ s' => P s'.registers) E (accessMem mem access s) := by
  unfold accessMem
  apply (attempt_post access (hnone _)).bind
  intro result s₁ hs₁
  rw [← hs₁] at h
  cases result with
  | ok result => exact h
  | error exception =>
    apply (hraise exception s₁ h).bind
    intro _ s₂ h₂
    apply (attempt_post access (hnone _)).bind
    intro result s₃ hs₃
    rw [← hs₃] at h₂
    cases result with
    | ok result => exact hI _ h₂
    | error exception => exact hreturned s₃ h₂

end Accesses

section Runs

variable {σ : Type} {mem : MemorySystem σ} {s s₁ : State σ} {word : CInt}

/-- `LoadReg` holds the number of a register. -/
def Loadable (v : CInt) : Prop := v.toNat < NumTotalRegs

/-! ### Runs that do not abort -/

theorem raiseException_post (htotal : Total mem) (h : Loadable (s.registers LoadReg))
    (which : ExceptionType) (a : CInt) :
    Post False (Pending Loadable) (fun _ _ => True) (raiseException mem which a s) := by
  obtain ⟨l, hl⟩ := exists_pending h
  rw [raiseException_apply mem which a hl]
  apply (htotal.handler which _).mono
  intro _ s' hs'
  show Loadable _
  rw [hs']
  show (0 : CInt).toNat < NumTotalRegs
  decide

theorem accessMem_post (htotal : Total mem) (h : Loadable (s.registers LoadReg)) (access : Access)
    (hsize : access.size = 1 ∨ access.size = 2 ∨ access.size = 4) :
    Post False (Pending Loadable) (fun _ _ => True) (accessMem mem access s) := by
  have hnone : ∀ m, mem.access m access = none → False := by
    intro m hm
    have hsome := htotal.access m access hsize
    rw [hm] at hsome
    cases hsome
  exact accessMem_rule (P := fun r => Loadable (r LoadReg)) (I := fun r => Loadable (r LoadReg)) access hnone
    (fun which s h => raiseException_post htotal h which _) (fun _ h => h) (fun _ _ => trivial) h

theorem oneInstruction_isSome (htotal : Total mem)
    (hfetch : readMem mem (s.registers PCReg) 4 s = some (.ok word, s₁))
    (h : Loadable (s₁.registers LoadReg)) (haligned : (decode word).unaligned s₁.registers = false)
    (hdiv : ¬ ((decode word).opCode = .div ∧ s₁.registers (decode word).rs = signBit ∧
      s₁.registers (decode word).rt = -1)) : (oneInstruction mem s).isSome := by
  have hpost : Post False (fun _ _ => True) (fun _ _ => True) (oneInstruction mem s) := by
    rw [oneInstruction_of_fetch hfetch]
    refine (execute_post (P := Loadable) ?_ ?_ h (Or.inr haligned) (Or.inr hdiv) _).bind ?_
    · intro β S s which a h
      exact (raiseException_post htotal h which a).bind fun _ _ _ => trivial
    · intro s access hsize h
      exact accessMem_post htotal h access hsize
    · intro next s' h'
      obtain ⟨l, hl⟩ := exists_pending h'.1
      obtain ⟨s'', hrun, -⟩ := exists_complete hl next
      rw [hrun]
      trivial
  generalize oneInstruction mem s = x at hpost
  rcases x with _ | _
  · exact hpost.elim
  · rfl

/-! ### Runs that abort -/

theorem accessMem_post_of_not (h : ¬ Loadable (s.registers LoadReg)) (access : Access) :
    Post True (Pending fun v => ¬ Loadable v) (fun _ _ => False) (accessMem mem access s) := by
  have hraise : ∀ which (s : State σ), ¬ Loadable (s.registers LoadReg) →
      Post True (fun _ _ => False) (fun _ _ => False) (raiseException mem which access.addr s) := by
    intro which s hs
    rw [raiseException_of_not_lt hs]
    trivial
  exact accessMem_rule (P := fun r => ¬ Loadable (r LoadReg)) (I := fun _ => False) access
    (fun _ _ => trivial) hraise (fun _ h => h.elim) (fun _ h => h) h

/-- Every instruction comes to a delayed load, at its end or in an exception. -/
theorem oneInstruction_eq_none (hfetch : readMem mem (s.registers PCReg) 4 s = some (.ok word, s₁))
    (h : ¬ Loadable (s₁.registers LoadReg)) : oneInstruction mem s = none := by
  have hpost : Post True (fun _ _ => False) (fun _ _ => False) (oneInstruction mem s) := by
    rw [oneInstruction_of_fetch hfetch]
    refine (execute_post (P := fun v => ¬ Loadable v) ?_ ?_ h (Or.inl trivial) (Or.inl trivial)
      _).bind ?_
    · intro β S s which a h
      unfold raise
      rw [bind_of_abort (raiseException_of_not_lt h _ _)]
      trivial
    · intro s access _ h
      exact accessMem_post_of_not h access
    · intro next s' h'
      unfold complete
      rw [bind_of_abort (delayedLoad_abort h'.1 _ _)]
      trivial
  generalize oneInstruction mem s = x at hpost
  rcases x with _ | ⟨_ | _, _⟩
  · rfl
  · exact hpost.elim
  · exact hpost.elim

/-- The quotient is not an `int`. -/
theorem oneInstruction_div (hfetch : readMem mem (s.registers PCReg) 4 s = some (.ok word, s₁))
    (hop : (decode word).opCode = .div) (hrs : s₁.registers (decode word).rs = signBit)
    (hrt : s₁.registers (decode word).rt = -1) : oneInstruction mem s = none := by
  rw [oneInstruction_of_fetch hfetch]
  apply bind_of_abort
  unfold execute
  rw [hop]
  show (if s₁.registers (decode word).rt = 0 then _ else if _ then _ else _ :
    Comp Ending (State σ) Next) s₁ = none
  rw [if_neg (by rw [hrt]; decide), if_pos ⟨hrs, hrt⟩]
  rfl

end Runs

/-! ### Division -/

theorem quotRem_div {rs rt : CInt} (hzero : rt ≠ 0) :
    QuotRem rs rt (rs.sdiv rt) (rs.srem rt) .div := by
  have hrt : rt.toInt ≠ 0 := fun h => hzero (BitVec.toInt_inj.1 h)
  have hquot : rs.sdiv rt = BitVec.ofInt 32 (rs.toInt.tdiv rt.toInt) := by
    apply BitVec.toInt_inj.1
    rw [BitVec.toInt_sdiv, BitVec.toInt_ofInt]
  have hrem : rs.srem rt = BitVec.ofInt 32 (rs.toInt.tmod rt.toInt) := by
    rw [← BitVec.toInt_srem, BitVec.ofInt_toInt]
  refine ⟨?_, ?_, ?_⟩
  · calc rs = BitVec.ofInt 32 rs.toInt := BitVec.ofInt_toInt.symm
      _ = BitVec.ofInt 32 (rs.toInt.tdiv rt.toInt * rt.toInt + rs.toInt.tmod rt.toInt) := by
        rw [Int.mul_comm, Int.mul_tdiv_add_tmod]
      _ = rs.sdiv rt * rt + rs.srem rt := by
        rw [BitVec.ofInt_add, BitVec.ofInt_mul, BitVec.ofInt_toInt, hquot, hrem]
  · rw [BitVec.toInt_srem, Int.natAbs_tmod]
    exact Nat.mod_lt _ (Int.natAbs_pos.2 hrt)
  · by_cases hdvd : rt.toInt ∣ rs.toInt
    · left
      rw [hrem, Int.tmod_eq_zero_of_dvd hdvd]
      rfl
    · right
      rw [BitVec.toInt_srem, Int.sign_tmod, if_neg hdvd]

theorem quotRem_divu {rs rt : CInt} (hzero : rt ≠ 0) : QuotRem rs rt (rs / rt) (rs % rt) .divu := by
  have hrt : 0 < rt.toNat := Nat.pos_of_ne_zero (fun h => hzero ((toNat_eq_zero_iff rt).1 h))
  constructor
  · apply BitVec.eq_of_toNat_eq
    rw [BitVec.toNat_add, BitVec.toNat_mul, BitVec.toNat_udiv, BitVec.toNat_umod, Nat.mod_add_mod,
      Nat.mul_comm, Nat.div_add_mod, Nat.mod_eq_of_lt rs.isLt]
  · rw [BitVec.toNat_umod]
    exact Nat.mod_lt _ hrt

section Division

variable {σ : Type} {mem : MemorySystem σ} {s s₁ : State σ} {word : CInt}

/-- `LO` and `HI` have been set, and nothing is left but the end of the instruction. -/
def withLoHi (s : State σ) (lo hi : CInt) : State σ :=
  { s with registers := Function.update (Function.update s.registers LoReg lo) HiReg hi }

theorem execute_div (mem : MemorySystem σ) {instr : Instruction} (hop : instr.opCode = .div)
    (hzero : s.registers instr.rt ≠ 0)
    (hfits : ¬ (s.registers instr.rs = signBit ∧ s.registers instr.rt = -1)) (pcAfter : CInt) :
    execute mem instr pcAfter s = some (.ok (.pc pcAfter), withLoHi s
      ((s.registers instr.rs).sdiv (s.registers instr.rt))
      ((s.registers instr.rs).srem (s.registers instr.rt))) := by
  unfold execute
  rw [hop]
  show (if s.registers instr.rt = 0 then _ else
    if s.registers instr.rs = signBit ∧ s.registers instr.rt = -1 then _ else _ :
      Comp Ending (State σ) Next) s = _
  rw [if_neg hzero, if_neg hfits]
  rfl

theorem execute_divu (mem : MemorySystem σ) {instr : Instruction} (hop : instr.opCode = .divu)
    (hzero : s.registers instr.rt ≠ 0) (pcAfter : CInt) :
    execute mem instr pcAfter s = some (.ok (.pc pcAfter), withLoHi s
      (s.registers instr.rs / s.registers instr.rt)
      (s.registers instr.rs % s.registers instr.rt)) := by
  unfold execute
  rw [hop]
  show (if s.registers instr.rt = 0 then _ else _ : Comp Ending (State σ) Next) s = _
  rw [if_neg hzero]
  rfl

/-- A register that is not the pending one, and not of the delay slot, keeps its value. -/
theorem loadInto_of_ne {l i : Register} {r : Registers} (hl : r LoadReg = BitVec.ofNat 32 l)
    (hne : r LoadReg ≠ BitVec.ofNat 32 i) (hi : i ≠ 0 ∧ i ≠ LoadValueReg ∧ i ≠ LoadReg)
    (nextReg nextValue : CInt) : loadInto l r nextReg nextValue i = r i := by
  have hil : i ≠ l := by
    rintro rfl
    exact hne hl
  rw [loadInto_apply, if_neg hi.1, if_neg hi.2.1, if_neg hi.2.2, if_neg hil]

theorem exists_complete_withLoHi (h : Loadable (s.registers LoadReg)) (lo hi : CInt) (next : Next) :
    ∃ s', complete next (withLoHi s lo hi) = some (.ok (), s') ∧
      (s.registers LoadReg ≠ BitVec.ofNat 32 LoReg → s'.registers LoReg = lo) ∧
      (s.registers LoadReg ≠ BitVec.ofNat 32 HiReg → s'.registers HiReg = hi) := by
  obtain ⟨l, hl⟩ := exists_pending h
  have hl' : (withLoHi s lo hi).registers LoadReg = BitVec.ofNat 32 l := hl
  obtain ⟨s', hrun, -, hregisters⟩ := exists_complete hl' next
  refine ⟨s', hrun, ?_, ?_⟩
  · intro hne
    rw [hregisters LoReg (by decide), loadInto_of_ne hl' hne (by decide)]
    rfl
  · intro hne
    rw [hregisters HiReg (by decide), loadInto_of_ne hl' hne (by decide)]
    rfl

theorem exists_quotRem (hfetch : readMem mem (s.registers PCReg) 4 s = some (.ok word, s₁))
    (h : Loadable (s₁.registers LoadReg))
    (hdiv : ¬ ((decode word).opCode = .div ∧ s₁.registers (decode word).rs = signBit ∧
      s₁.registers (decode word).rt = -1))
    (hop : (decode word).opCode = .div ∨ (decode word).opCode = .divu)
    (hzero : s₁.registers (decode word).rt ≠ 0) :
    ∃ s' lo hi, oneInstruction mem s = some (.ok (), s') ∧
      QuotRem (s₁.registers (decode word).rs) (s₁.registers (decode word).rt) lo hi
        (decode word).opCode ∧
      (s₁.registers LoadReg ≠ BitVec.ofNat 32 LoReg → s'.registers LoReg = lo) ∧
      (s₁.registers LoadReg ≠ BitVec.ofNat 32 HiReg → s'.registers HiReg = hi) := by
  rw [oneInstruction_of_fetch hfetch]
  rcases hop with hop | hop
  · have hrun := execute_div mem hop hzero (fun h => hdiv ⟨hop, h⟩)
      (s₁.registers NextPCReg + 4)
    obtain ⟨s', hcomplete, hregisters⟩ := exists_complete_withLoHi h _ _ _
    refine ⟨s', _, _, (bind_of_ok hrun).trans hcomplete, ?_, hregisters⟩
    rw [hop]
    exact quotRem_div hzero
  · have hrun := execute_divu mem hop hzero (s₁.registers NextPCReg + 4)
    obtain ⟨s', hcomplete, hregisters⟩ := exists_complete_withLoHi h _ _ _
    refine ⟨s', _, _, (bind_of_ok hrun).trans hcomplete, ?_, hregisters⟩
    rw [hop]
    exact quotRem_divu hzero

end Division

/-! ### Shifts -/

theorem shiftCount_le {word : CInt} {r : Registers} {n : CInt}
    (h : n ∈ (decode word).shiftCount r) : 0 ≤ n.toInt ∧ n.toInt ≤ 31 := by
  have hcount : n.toNat ≤ 31 := by
    have hextra := @extra_of_shifts word
    unfold Instruction.shiftCount at h
    cases hop : (decode word).opCode <;> rw [hop] at h <;> cases h
    case sll | sra | srl =>
      rw [hextra (by rw [hop]; rfl), BitVec.toNat_setWidth_of_le (by decide)]
      exact Nat.le_of_lt_succ (shamt word).isLt
    case sllv | srav | srlv =>
      rw [toNat_and_1f]
      exact Nat.le_of_lt_succ (BitVec.isLt _)
  rw [BitVec.toInt_eq_toNat_of_lt (by omega)]
  omega

theorem total_everywhere (word : CInt) : Total (everywhere word) :=
  ⟨fun _ _ _ => rfl, fun _ _ => rfl⟩

theorem isSome_of_survives {word : CInt} {r : Registers} (h : Survives word r) :
    (oneInstruction (everywhere word) ⟨r, ()⟩).isSome :=
  (h Unit (everywhere word) ⟨r, ()⟩ ⟨r, ()⟩ (total_everywhere word) (readMem_everywhere word _ _ r)
    rfl).1

/-- **No instruction stops the simulator**, but for a division of `-2 ^ 31` by `-1`, and a pending load
into a register that does not exist. -/
theorem survives_iff (word : CInt) (r : Registers) (haligned : (decode word).unaligned r = false) :
    Survives word r ↔ (r LoadReg).toNat < NumTotalRegs ∧
      ¬ ((decode word).opCode = .div ∧ r (decode word).rs = signBit ∧ r (decode word).rt = -1) := by
  constructor
  · intro hsurvives
    have hsome := isSome_of_survives hsurvives
    constructor
    · by_contra hload
      rw [oneInstruction_eq_none (readMem_everywhere word _ _ r) hload] at hsome
      cases hsome
    · rintro ⟨hop, hrs, hrt⟩
      rw [oneInstruction_div (readMem_everywhere word _ _ r) hop hrs hrt] at hsome
      cases hsome
  · rintro ⟨hload, hdiv⟩ σ mem s s₁ htotal hfetch rfl
    refine ⟨oneInstruction_isSome htotal hfetch hload haligned hdiv, ?_, ?_⟩
    · intro n
      exact shiftCount_le
    · exact exists_quotRem hfetch hload hdiv

/-- `div $1, $2` -/
theorem survives_iff_div : decode 0x0022001a = ⟨.div, 1, 2, 0, 0⟩ ∧
    Survives 0x0022001a (Function.update (fun _ => 0) 1 (-2 ^ 31)) :=
  ⟨by decide, (survives_iff _ _ (by decide)).2 (by decide)⟩

/-- `div $1, $2` with `-2 ^ 31` and `-1` -/
theorem div_stops_simulator : decode 0x0022001a = ⟨.div, 1, 2, 0, 0⟩ ∧
    Total (everywhere 0x0022001a) ∧
    oneInstruction (everywhere 0x0022001a)
      ⟨Function.update (Function.update (fun _ => 0) 1 (-2 ^ 31)) 2 (-1), ()⟩ = none ∧
    ¬ Survives 0x0022001a (Function.update (Function.update (fun _ => 0) 1 (-2 ^ 31)) 2 (-1)) := by
  have hnone : oneInstruction (everywhere 0x0022001a)
      ⟨Function.update (Function.update (fun _ => 0) 1 (-2 ^ 31)) 2 (-1), ()⟩ = none :=
    oneInstruction_div (readMem_everywhere _ _ _ _) (by decide) (by decide) (by decide)
  refine ⟨by decide, total_everywhere _, hnone, ?_⟩
  intro hsurvives
  have hsome := isSome_of_survives hsurvives
  rw [hnone] at hsome
  cases hsome

end Nachos.Mips
