import Nachos.Machine.Equiv.Mipssim
import Nachos.Machine.Equiv.Mult
import Nachos.Machine.R2000

/-!
# The simulated instructions and the architecture

`simulated` is what the `switch` of `OneInstruction` computes for an arithmetic or logical instruction.

* `execute_eq_outcome`: the `switch` stores that result, or raises `OverflowException`.
* `yields_of_simulated`: so does the whole instruction, and it completes the pending load.
* `extra_of_immediate`, `extra_of_shifts`: what `Decode` extracts.
* `exact_add`, `exact_sub`: the tests of sign bits find the sums and differences that do not fit.
* `simulated_eq_iff`: the result is that of the architecture, but for some operands of `OR`, `SRL` and
  `SRLV`.
-/

namespace Nachos.Mips

open Coupling Comp

/-! ### What the simulator computes -/

/-- The result of the `switch` of `OneInstruction`, from the values of the registers `rs` and `rt`. -/
def simulated (instr : Instruction) (rs rt : CInt) : Option AluResult :=
  match instr.opCode with
  | .add => some (if (rs ^^^ rt) &&& signBit = 0 ∧ (rs ^^^ (rs + rt)) &&& signBit ≠ 0 then .overflow
      else .value (rs + rt))
  | .addi => some (if (rs ^^^ instr.extra) &&& signBit = 0 ∧
      (instr.extra ^^^ (rs + instr.extra)) &&& signBit ≠ 0 then .overflow
      else .value (rs + instr.extra))
  | .addiu => some (.value (rs + instr.extra))
  | .addu => some (.value (rs + rt))
  | .and => some (.value (rs &&& rt))
  | .andi => some (.value (rs &&& (instr.extra &&& 0xffff)))
  | .lui => some (.value (instr.extra <<< 16))
  | .nor => some (.value (~~~(rs ||| rt)))
  | .or => some (.value (rs ||| rs))
  | .ori => some (.value (rs ||| (instr.extra &&& 0xffff)))
  | .sll => some (.value (rt <<< instr.extra.toNat))
  | .sllv => some (.value (rt <<< (rs &&& 0x1f).toNat))
  | .slt => some (.value (flag (rs.slt rt)))
  | .slti => some (.value (flag (rs.slt instr.extra)))
  | .sltiu => some (.value (flag (rs.ult instr.extra)))
  | .sltu => some (.value (flag (rs.ult rt)))
  | .sra => some (.value (rt.sshiftRight instr.extra.toNat))
  | .srav => some (.value (rt.sshiftRight (rs &&& 0x1f).toNat))
  | .srl => some (.value (rt.sshiftRight instr.extra.toNat))
  | .srlv => some (.value (rt.sshiftRight (rs &&& 0x1f).toNat))
  | .sub => some (if (rs ^^^ rt) &&& signBit ≠ 0 ∧ (rs ^^^ (rs - rt)) &&& signBit ≠ 0 then .overflow
      else .value (rs - rt))
  | .subu => some (.value (rs - rt))
  | .xor => some (.value (rs ^^^ rt))
  | .xori => some (.value (rs ^^^ (instr.extra &&& 0xffff)))
  | _ => none

variable {σ : Type} {mem : MemorySystem σ} {s s₁ : State σ} {instr : Instruction} {result : AluResult}
  {word : CInt} {r : Registers} {target : Fin NumGPRegs}

/-- The two ways in which the `switch` is left. -/
def outcome (mem : MemorySystem σ) (s : State σ) (target : Fin NumGPRegs) (pcAfter : CInt) :
    AluResult → Option (Except Ending Next × State σ)
  | .value v =>
    some (.ok (.pc pcAfter), { s with registers := Function.update s.registers target v })
  | .overflow => raise mem .overflowException 0 s

theorem outcome_ite (c : Prop) [Decidable c] (target : Fin NumGPRegs) (pcAfter v : CInt) :
    (if c then raise mem .overflowException 0 else do
      setReg target v
      return .pc pcAfter : Comp Ending (State σ) Next) s =
      outcome mem s target pcAfter (if c then .overflow else .value v) := by
  rw [ite_run]
  split_ifs <;> rfl

theorem execute_eq_outcome (pcAfter : CInt)
    (h : result ∈ simulated instr (s.registers instr.rs) (s.registers instr.rt)) :
    execute mem instr pcAfter s = outcome mem s instr.target pcAfter result := by
  unfold simulated at h
  unfold execute Instruction.target
  cases hop : instr.opCode <;> rw [hop] at h <;> cases h
  case add | addi | sub => exact outcome_ite _ _ _ _
  all_goals rfl

/-! ### One instruction -/

/-- `OneInstruction` after the fetch. -/
theorem oneInstruction_of_fetch (h : readMem mem (s.registers PCReg) 4 s = some (.ok word, s₁)) :
    oneInstruction mem s =
      (execute mem (decode word) (s₁.registers NextPCReg + 4) >>= complete) s₁ := by
  have hpc : reg PCReg s = some (.ok (s.registers PCReg), s) := rfl
  unfold oneInstruction
  rw [bind_of_ok hpc, bind_of_ok h]
  rfl

/-- `LoadReg` holds the number of a register. -/
theorem exists_pending (h : (r LoadReg).toNat < NumTotalRegs) :
    ∃ l : Register, r LoadReg = BitVec.ofNat 32 l := by
  refine ⟨⟨(r LoadReg).toNat, h⟩, ?_⟩
  rw [BitVec.ofNat_toNat, BitVec.setWidth_eq]

/-- Otherwise the delayed load is a write outside the registers. -/
theorem delayedLoad_abort (h : ¬ (s.registers LoadReg).toNat < NumTotalRegs) (nextReg nextValue : CInt) :
    delayedLoad nextReg nextValue s = none := by
  have hget : reg LoadReg s = some (.ok (s.registers LoadReg), s) := rfl
  unfold delayedLoad
  rw [bind_of_ok hget, dif_neg h]
  rfl

theorem raiseException_of_not_lt (h : ¬ (s.registers LoadReg).toNat < NumTotalRegs)
    (which : ExceptionType) (badVAddr : CInt) : raiseException mem which badVAddr s = none := by
  have hset : setReg BadVAddrReg badVAddr s =
      some (.ok (), { s with registers := Function.update s.registers BadVAddrReg badVAddr }) := rfl
  have h' : ¬ (Function.update s.registers BadVAddrReg badVAddr LoadReg).toNat < NumTotalRegs := h
  unfold raiseException
  rw [bind_of_ok hset]
  exact bind_of_abort
    (delayedLoad_abort (s := ⟨Function.update s.registers BadVAddrReg badVAddr, s.memory⟩) h' 0 0)

theorem loadInto_gpr {l : Register} (hl : r LoadReg = BitVec.ofNat 32 l) (i : Fin NumGPRegs)
    (nextReg nextValue : CInt) : loadInto l r nextReg nextValue i = afterLoad r i := by
  obtain ⟨hload, hvalue, -⟩ := ordinary_gpr i
  have hzero : (i : Register) = 0 ↔ i = 0 := by
    rw [Fin.ext_iff, Fin.ext_iff]
    rfl
  have hpending : BitVec.ofNat 32 l = BitVec.ofNat 32 i ↔ (i : Register) = l :=
    (ofNat_eq_iff l i).trans eq_comm
  unfold afterLoad
  rw [loadInto_apply, if_neg hload, if_neg hvalue, hl]
  simp only [hzero, hpending]

theorem afterLoad_update {v : CInt} (hpending : target ≠ 0 → r LoadReg ≠ BitVec.ofNat 32 target)
    (i : Fin NumGPRegs) :
    afterLoad (Function.update r target v) i = if i = target ∧ i ≠ 0 then v else afterLoad r i := by
  obtain ⟨hload, hvalue, -⟩ := ordinary_gpr target
  have hinj : (i : Register) = target ↔ i = target := Fin.castLE_inj
  unfold afterLoad
  rw [Function.update_of_ne hload.symm, Function.update_of_ne hvalue.symm]
  by_cases hi : i = 0
  · rw [if_pos hi, if_pos hi, if_neg (fun h => h.2 hi)]
  rw [if_neg hi, if_neg hi]
  by_cases htarget : i = target
  · subst htarget
    rw [if_neg (hpending hi), if_pos ⟨rfl, hi⟩, Function.update_self]
  · rw [Function.update_of_ne (fun h => htarget (hinj.1 h))]
    symm
    exact if_neg (fun h => htarget h.1)

/-- A register that the end of an instruction does not change. -/
abbrev Lasting (i : Register) : Prop := i ≠ PrevPCReg ∧ i ≠ PCReg ∧ i ≠ NextPCReg

theorem lasting_gpr (i : Fin NumGPRegs) : Lasting i := by
  revert i
  decide

theorem exists_complete {l : Register} (hl : s.registers LoadReg = BitVec.ofNat 32 l) (next : Next) :
    ∃ s', complete next s = some (.ok (), s') ∧ s'.memory = s.memory ∧
      ∀ i, Lasting i → s'.registers i =
        loadInto l s.registers next.nextLoadReg next.nextLoadValue i := by
  unfold complete
  rw [bind_of_ok (delayedLoad_apply hl _ _)]
  refine ⟨_, rfl, rfl, ?_⟩
  intro i hi
  exact (Function.update_of_ne hi.2.2 _ _).trans ((Function.update_of_ne hi.2.1 _ _).trans
    (Function.update_of_ne hi.1 _ _))

theorem exists_raise (mem : MemorySystem σ) (hload : (s.registers LoadReg).toNat < NumTotalRegs)
    (which : ExceptionType) (badVAddr : CInt) :
    ∃ s', (raise mem which badVAddr s : Option (Except Ending Next × State σ)) =
        (do mem.handler which; stop .returned : Comp Ending (State σ) Next) s' ∧
      s'.memory = s.memory ∧ ∀ i : Fin NumGPRegs, s'.registers i = afterLoad s.registers i := by
  obtain ⟨l, hl⟩ := exists_pending hload
  unfold raise
  rw [bind_apply, raiseException_apply mem which badVAddr hl]
  refine ⟨_, rfl, rfl, ?_⟩
  intro i
  have hl' : Function.update s.registers BadVAddrReg badVAddr LoadReg = BitVec.ofNat 32 l := hl
  refine (loadInto_gpr hl' i 0 0).trans ?_
  unfold afterLoad
  rw [Function.update_of_ne (ordinary_gpr i).2.2]
  rfl

/-- **What the `switch` computes is what the instruction does**, when no load into its register is
pending. -/
theorem yields_of_simulated (hfetch : readMem mem (s.registers PCReg) 4 s = some (.ok word, s₁))
    (hload : (s₁.registers LoadReg).toNat < NumTotalRegs)
    (hpending : (decode word).target ≠ 0 →
      s₁.registers LoadReg ≠ BitVec.ofNat 32 (decode word).target)
    (hresult : result ∈ simulated (decode word) (s₁.registers (decode word).rs)
      (s₁.registers (decode word).rt)) :
    Yields mem s₁ (decode word).target (oneInstruction mem s) result := by
  rw [oneInstruction_of_fetch hfetch, bind_apply, execute_eq_outcome _ hresult]
  cases result with
  | value v =>
    obtain ⟨l, hl⟩ := exists_pending hload
    set s₂ : State σ :=
      { s₁ with registers := Function.update s₁.registers (decode word).target v }
    have hl' : s₂.registers LoadReg = BitVec.ofNat 32 l := by
      rw [← hl]
      exact Function.update_of_ne (ordinary_gpr _).1.symm _ _
    obtain ⟨s', hrun, hmemory, hregisters⟩ := exists_complete hl' (.pc (s₁.registers NextPCReg + 4))
    refine ⟨s', hrun, hmemory, ?_⟩
    intro i
    rw [hregisters i (lasting_gpr i), loadInto_gpr hl', afterLoad_update hpending]
  | overflow =>
    obtain ⟨s', hrun, hmemory, hregisters⟩ := exists_raise mem hload .overflowException 0
    refine ⟨s', ?_, hmemory, hregisters⟩
    dsimp only [outcome]
    rw [hrun, bind_apply, bind_apply]
    rcases mem.handler .overflowException s' with _ | ⟨_ | _, _⟩ <;> rfl

/-! ### Decoding -/

/-- The instructions with an immediate operand. -/
def OpCode.immediate : OpCode → Bool
  | .addi | .addiu | .andi | .lui | .ori | .slti | .sltiu | .xori => true
  | _ => false

/-- The instructions with a shift amount. -/
def OpCode.shifts : OpCode → Bool
  | .sll | .sra | .srl => true
  | _ => false

/-- An entry of `opTable` is in the format of the architecture. -/
def OpInfo.inFormat : OpInfo → Bool
  | .op opCode format => !opCode.shifts && (!opCode.immediate || format == .ifmt)
  | _ => true

theorem inFormat_opTable (i : Fin opTable.length) : (opTable.get i).inFormat = true := by
  revert i
  decide

theorem immediate_specialTable (i : Fin specialTable.length) :
    (specialTable.get i).immediate = false := by
  revert i
  decide

theorem and_ffff (x : CInt) : x &&& 0xffff = (imm x).zeroExtend 32 := by
  have hmask : (0xffff : CInt) = (BitVec.allOnes 16).zeroExtend 32 := rfl
  apply BitVec.eq_of_getLsbD_eq
  intro i hi
  unfold imm
  rw [hmask, BitVec.getLsbD_and, BitVec.getLsbD_setWidth, BitVec.getLsbD_setWidth,
    BitVec.getLsbD_allOnes, BitVec.getLsbD_extractLsb']
  by_cases hi' : i < 16 <;> simp [hi, hi', Bool.and_comm]

/-- The extension of the sign in `Decode`. -/
theorem signExtend_imm (value : CInt) :
    (if value &&& 0xffff &&& 0x8000 ≠ 0 then value &&& 0xffff ||| 0xffff0000 else value &&& 0xffff) =
      (imm value).signExtend 32 := by
  have hsign : value &&& 0xffff &&& 0x8000 ≠ 0 ↔ (imm value).msb = true := by
    have htwoPow : (0x8000 : CInt) = BitVec.twoPow 32 15 := rfl
    rw [and_ffff, htwoPow, BitVec.and_twoPow, BitVec.getLsbD_setWidth, BitVec.msb_eq_getLsbD_last]
    cases (imm value).getLsbD (16 - 1) <;> decide
  simp only [hsign]
  rw [and_ffff]
  split_ifs with hneg
  · have hmask : (0xffff0000 : CInt) = ~~~(BitVec.allOnes 16).zeroExtend 32 := rfl
    apply BitVec.eq_of_getLsbD_eq
    intro i hi
    rw [hmask, BitVec.getLsbD_or, BitVec.getLsbD_setWidth, BitVec.getLsbD_signExtend,
      BitVec.getLsbD_not, BitVec.getLsbD_setWidth, BitVec.getLsbD_allOnes]
    by_cases hi' : i < 16
    · simp [hi, hi']
    · simp [hi, hi', hneg]
  · rw [BitVec.signExtend_eq_setWidth_of_msb_false (by simpa using hneg)]

theorem extra_of_immediate (h : (decode word).opCode.immediate = true) :
    (decode word).extra = (imm word).signExtend 32 := by
  have htable := inFormat_opTable ((word.extractLsb' 26 6).toFin.cast length_opTable.symm)
  unfold decode at h ⊢
  dsimp only at h ⊢
  cases hop : opTable.get ((word.extractLsb' 26 6).toFin.cast length_opTable.symm) with
  | op op format =>
    rw [hop] at h htable
    have hformat : op.shifts = false ∧ format = .ifmt := by
      simpa [OpInfo.inFormat, show op.immediate = true from h] using htable
    rw [OpInfo.format, hformat.2]
    exact signExtend_imm word
  | special =>
    rw [hop] at h
    rw [immediate_specialTable] at h
    cases h
  | bcond =>
    rw [hop] at h
    dsimp only at h
    split_ifs at h <;> cases h

theorem extra_of_shifts (h : (decode word).opCode.shifts = true) :
    (decode word).extra = (shamt word).zeroExtend 32 := by
  have htable := inFormat_opTable ((word.extractLsb' 26 6).toFin.cast length_opTable.symm)
  unfold decode at h ⊢
  dsimp only at h ⊢
  cases hop : opTable.get ((word.extractLsb' 26 6).toFin.cast length_opTable.symm) with
  | op op format =>
    rw [hop] at h htable
    simp [OpInfo.inFormat, show op.shifts = true from h] at htable
  | special =>
    have hmask : (0x1f : CInt) = (BitVec.allOnes 5).zeroExtend 32 := rfl
    apply BitVec.eq_of_getLsbD_eq
    intro i hi
    show ((word >>> 6) &&& 0x1f).getLsbD i = _
    unfold shamt
    rw [hmask, BitVec.getLsbD_and, BitVec.getLsbD_setWidth, BitVec.getLsbD_setWidth,
      BitVec.getLsbD_allOnes, BitVec.getLsbD_extractLsb', BitVec.getLsbD_ushiftRight]
    by_cases hi' : i < 5 <;> simp [hi, hi']
  | bcond =>
    rw [hop] at h
    dsimp only at h
    split_ifs at h <;> cases h

/-! ### Results -/

theorem toNat_and_1f (rs : CInt) : (rs &&& 0x1f).toNat = (rs.extractLsb' 0 5).toNat := by
  rw [BitVec.toNat_and, BitVec.extractLsb'_toNat, Nat.shiftRight_zero]
  exact Nat.and_two_pow_sub_one_eq_mod _ 5

theorem shiftLeft_signExtend (x : BitVec 16) : x.signExtend 32 <<< 16 = x ++ 0#16 := by
  apply BitVec.eq_of_getLsbD_eq
  intro i hi
  rw [BitVec.getLsbD_shiftLeft, BitVec.getLsbD_append, BitVec.getLsbD_signExtend]
  by_cases hi' : i < 16
  · simp [hi']
  · simp [hi, hi', show i - 16 < 32 by omega, show i - 16 < 16 by omega]

theorem signExtend_and_ffff (x : BitVec 16) : x.signExtend 32 &&& 0xffff = x.zeroExtend 32 := by
  rw [and_ffff]
  congr 1
  apply BitVec.eq_of_getLsbD_eq
  intro i hi
  unfold imm
  rw [BitVec.getLsbD_extractLsb', BitVec.getLsbD_signExtend]
  simp [hi, show i < 32 by omega]

theorem xor_and_signBit_ne_zero_iff (x y : CInt) :
    (x ^^^ y) &&& signBit ≠ 0 ↔ x.msb ≠ y.msb := by
  rw [and_signBit_ne_zero_iff, BitVec.msb_xor]
  cases x.msb <;> cases y.msb <;> decide

theorem xor_and_signBit_eq_zero_iff (x y : CInt) : (x ^^^ y) &&& signBit = 0 ↔ x.msb = y.msb :=
  not_iff_not.1 (xor_and_signBit_ne_zero_iff x y)

/-- The test for overflow of a sum. -/
theorem exact_add (x y : CInt) :
    (if (x ^^^ y) &&& signBit = 0 ∧ (x ^^^ (x + y)) &&& signBit ≠ 0 then AluResult.overflow
      else .value (x + y)) = .exact (x.toInt + y.toInt) := by
  have htest : ((x ^^^ y) &&& signBit = 0 ∧ (x ^^^ (x + y)) &&& signBit ≠ 0) ↔
      x.saddOverflow y = true := by
    rw [xor_and_signBit_eq_zero_iff, xor_and_signBit_ne_zero_iff, BitVec.saddOverflow_eq]
    cases x.msb <;> cases y.msb <;> cases (x + y).msb <;> decide
  have hfits : x.saddOverflow y = true ↔
      ¬ (-2 ^ 31 ≤ x.toInt + y.toInt ∧ x.toInt + y.toInt < 2 ^ 31) := by
    simp [BitVec.saddOverflow]
    omega
  unfold AluResult.exact
  rw [BitVec.ofInt_add, BitVec.ofInt_toInt, BitVec.ofInt_toInt]
  simp only [htest, hfits, ite_not]

/-- The test for overflow of a difference. -/
theorem exact_sub (x y : CInt) :
    (if (x ^^^ y) &&& signBit ≠ 0 ∧ (x ^^^ (x - y)) &&& signBit ≠ 0 then AluResult.overflow
      else .value (x - y)) = .exact (x.toInt - y.toInt) := by
  have htest : ((x ^^^ y) &&& signBit ≠ 0 ∧ (x ^^^ (x - y)) &&& signBit ≠ 0) ↔
      x.ssubOverflow y = true := by
    rw [xor_and_signBit_ne_zero_iff, xor_and_signBit_ne_zero_iff, BitVec.ssubOverflow_eq]
    cases x.msb <;> cases y.msb <;> cases (x - y).msb <;> decide
  have hfits : x.ssubOverflow y = true ↔
      ¬ (-2 ^ 31 ≤ x.toInt - y.toInt ∧ x.toInt - y.toInt < 2 ^ 31) := by
    simp [BitVec.ssubOverflow]
    omega
  unfold AluResult.exact
  rw [Int.sub_eq_add_neg, BitVec.ofInt_add, BitVec.ofInt_neg, BitVec.ofInt_toInt, BitVec.ofInt_toInt,
    ← BitVec.sub_eq_add_neg, ← Int.sub_eq_add_neg]
  simp only [htest, hfits, ite_not]

/-- `ADDI` compares the signs of the immediate operand and the sum. -/
theorem exact_addi (x y : CInt) :
    (if (x ^^^ y) &&& signBit = 0 ∧ (y ^^^ (x + y)) &&& signBit ≠ 0 then AluResult.overflow
      else .value (x + y)) = .exact (x.toInt + y.toInt) := by
  rw [Int.add_comm, ← exact_add, BitVec.xor_comm y x, BitVec.add_comm y x]

/-- The operands for which the simulator computes the result of the architecture: `OR` has `rs` for both
operands, and `SRL` and `SRLV` shift in copies of the sign. -/
def Agrees (word rs rt : CInt) : OpCode → Prop
  | .or => rs ||| rt = rs
  | .srl => shamt word = 0 ∨ rt.msb = false
  | .srlv => rs.extractLsb' 0 5 = 0 ∨ rt.msb = false
  | _ => True

instance (word rs rt : CInt) (op : OpCode) : Decidable (Agrees word rs rt op) := by
  rcases op with _ | _ <;> unfold Agrees <;> infer_instance

/-- An arithmetic shift to the right differs from a logical one by the sign. -/
theorem sshiftRight_eq_iff (x : CInt) {n : ℕ} : x.sshiftRight n = x >>> n ↔ n = 0 ∨ x.msb = false := by
  constructor
  · intro heq
    have hmsb := congrArg BitVec.msb heq
    rw [BitVec.msb_sshiftRight, BitVec.msb_ushiftRight] at hmsb
    by_cases hn : n = 0
    · exact Or.inl hn
    · right
      simpa [Nat.pos_of_ne_zero hn] using hmsb
  · rintro (rfl | hmsb)
    · simp
    · exact BitVec.sshiftRight_eq_of_msb_false hmsb

theorem flag_decide (p : Prop) [Decidable p] : flag (decide p) = if p then 1 else 0 := by
  simp only [flag, decide_eq_true_eq]

theorem toNat_eq_zero_iff {w : ℕ} (x : BitVec w) : x.toNat = 0 ↔ x = 0 := by
  rw [← BitVec.toNat_inj]
  simp

/-- **The simulator computes what the architecture defines** for the operands that agree, and for no
others. -/
theorem simulated_eq_iff {rs rt : CInt} (halu : (aluResult word rs rt (decode word).opCode).isSome) :
    simulated (decode word) rs rt = aluResult word rs rt (decode word).opCode ↔
      Agrees word rs rt (decode word).opCode := by
  have himm := @extra_of_immediate word
  have hshift := @extra_of_shifts word
  unfold simulated
  generalize (decode word).opCode = op at *
  generalize (decode word).extra = extra at *
  cases op <;> simp only [aluResult, Option.isSome_none, Bool.false_eq_true] at halu
  all_goals simp only [aluResult, Agrees, Option.some.injEq, AluResult.value.injEq, iff_true]
  case add => exact exact_add rs rt
  case sub => exact exact_sub rs rt
  case addi =>
    rw [himm rfl, ← BitVec.toInt_signExtend_of_le (show 16 ≤ 32 by decide)]
    exact exact_addi rs _
  case addiu => rw [himm rfl]
  case andi | ori | xori => rw [himm rfl, signExtend_and_ffff]
  case lui => rw [himm rfl, shiftLeft_signExtend]
  case or => rw [BitVec.or_self, eq_comm]
  case sll | sra => rw [hshift rfl, BitVec.toNat_setWidth_of_le (by decide)]
  case sllv | srav => rw [toNat_and_1f]
  case slt => rw [BitVec.slt_eq_decide, flag_decide]
  case slti =>
    rw [himm rfl, BitVec.slt_eq_decide, BitVec.toInt_signExtend_of_le (by decide), flag_decide]
  case sltiu => rw [himm rfl, BitVec.ult_eq_decide, flag_decide]
  case sltu => rw [BitVec.ult_eq_decide, flag_decide]
  case srl =>
    rw [hshift rfl, BitVec.toNat_setWidth_of_le (by decide), sshiftRight_eq_iff, toNat_eq_zero_iff]
  case srlv => rw [toNat_and_1f, sshiftRight_eq_iff, toNat_eq_zero_iff]

theorem isSome_simulated {word rs rt : CInt}
    (halu : (aluResult word rs rt (decode word).opCode).isSome) :
    ∃ result, result ∈ simulated (decode word) rs rt := by
  unfold simulated
  cases hop : (decode word).opCode <;> rw [hop] at halu <;> first | exact ⟨_, rfl⟩ | cases halu

/-- The results are values when they differ. -/
theorem exists_values {word rs rt : CInt} (hnot : ¬ Agrees word rs rt (decode word).opCode) :
    ∃ v v', aluResult word rs rt (decode word).opCode = some (.value v) ∧
      simulated (decode word) rs rt = some (.value v') := by
  unfold simulated
  cases hop : (decode word).opCode <;> rw [hop] at hnot <;>
    first | exact absurd trivial hnot | exact ⟨_, _, rfl, rfl⟩

/-! ### The instructions -/

/-- A memory with `word` at every address, and a handler that returns. -/
def everywhere (word : CInt) : MemorySystem Unit where
  access _ _ := some (.ok (some word, ()))
  pageFault _ _ := some ()
  handler _ := pure ()

theorem readMem_everywhere (word a : CInt) (size : ℕ) (r : Registers) :
    readMem (everywhere word) a size ⟨r, ()⟩ = some (.ok word, ⟨r, ()⟩) := rfl

/-- Without a register for the pending load the run is aborted. -/
theorem oneInstruction_everywhere_abort (hload : ¬ (r LoadReg).toNat < NumTotalRegs)
    (hresult : result ∈ simulated (decode word) (r (decode word).rs) (r (decode word).rt)) :
    oneInstruction (everywhere word) ⟨r, ()⟩ = none := by
  rw [oneInstruction_of_fetch (readMem_everywhere word _ _ r), bind_apply,
    execute_eq_outcome _ hresult]
  cases result with
  | value v =>
    have hload' : ¬ (Function.update r (decode word).target v LoadReg).toNat < NumTotalRegs := by
      rwa [Function.update_of_ne (ordinary_gpr _).1.symm]
    exact bind_of_abort (delayedLoad_abort (s := ⟨_, ()⟩) hload' _ _)
  | overflow =>
    dsimp only [outcome]
    unfold raise
    rw [bind_of_abort (raiseException_of_not_lt hload _ _)]

/-- A result for register 0 is lost. -/
theorem Yields.of_zero {run : Option (Except Ending Unit × State σ)} {v : CInt}
    (h : Yields mem s target run (.value v)) (hzero : target = 0) (v' : CInt) :
    Yields mem s target run (.value v') := by
  obtain ⟨s', hrun, hmemory, hregisters⟩ := h
  refine ⟨s', hrun, hmemory, ?_⟩
  intro i
  have hnot : ¬ (i = target ∧ i ≠ 0) := fun h => h.2 (h.1.trans hzero)
  rw [hregisters, if_neg hnot, if_neg hnot]

theorem not_yields_none : ¬ Yields (everywhere word) ⟨r, ()⟩ target none result := by
  cases result with
  | value v =>
    rintro ⟨s', hrun, -⟩
    cases hrun
  | overflow =>
    rintro ⟨s', hrun, -⟩
    cases hrun

section

variable (halu : (aluResult word (r (decode word).rs) (r (decode word).rt) (decode word).opCode).isSome)
  (hpending : (decode word).target ≠ 0 → r LoadReg ≠ BitVec.ofNat 32 (decode word).target)

include halu hpending

theorem agrees_of_follows (hfollows : FollowsArchitecture word r) :
    (r LoadReg).toNat < NumTotalRegs ∧ ((decode word).target = 0 ∨
      Agrees word (r (decode word).rs) (r (decode word).rt) (decode word).opCode) := by
  have hyields := hfollows Unit (everywhere word) ⟨r, ()⟩ ⟨r, ()⟩ (readMem_everywhere word _ _ r) rfl
  have hload : (r LoadReg).toNat < NumTotalRegs := by
    by_contra hload
    obtain ⟨result, hresult⟩ := Option.isSome_iff_exists.1 halu
    obtain ⟨result', hresult'⟩ := isSome_simulated halu
    have hnone := hyields result hresult
    rw [oneInstruction_everywhere_abort hload hresult'] at hnone
    exact not_yields_none hnone
  refine ⟨hload, ?_⟩
  by_contra hnot
  obtain ⟨htarget, hnot⟩ := not_or.1 hnot
  obtain ⟨v, v', hv, hv'⟩ := exists_values hnot
  -- the run stores the one value and the architecture defines the other
  obtain ⟨s', hrun, -, hregisters⟩ := hyields (.value v) hv
  have hstores : Yields (everywhere word) ⟨r, ()⟩ (decode word).target
      (oneInstruction (everywhere word) ⟨r, ()⟩) (.value v') :=
    yields_of_simulated (readMem_everywhere word _ _ r) hload hpending hv'
  obtain ⟨s'', hrun', -, hregisters'⟩ := hstores
  have hself := hregisters (decode word).target
  have hself' := hregisters' (decode word).target
  rw [if_pos ⟨rfl, htarget⟩] at hself hself'
  obtain rfl : s'' = s' := by
    rw [hrun] at hrun'
    cases hrun'
    rfl
  apply hnot
  rw [← simulated_eq_iff halu, hv, hv', ← hself, ← hself']

theorem follows_of_agrees (hload : (r LoadReg).toNat < NumTotalRegs)
    (hcase : (decode word).target = 0 ∨
      Agrees word (r (decode word).rs) (r (decode word).rt) (decode word).opCode) :
    FollowsArchitecture word r := by
  rintro σ mem s s₁ hfetch rfl result hresult
  by_cases hagrees : Agrees word (s₁.registers (decode word).rs) (s₁.registers (decode word).rt)
    (decode word).opCode
  · rw [← (simulated_eq_iff halu).2 hagrees] at hresult
    exact yields_of_simulated hfetch hload hpending hresult
  · obtain ⟨v, v', hv, hv'⟩ := exists_values hagrees
    rw [hv] at hresult
    cases hresult
    exact (yields_of_simulated hfetch hload hpending hv').of_zero (hcase.resolve_right hagrees) v

end

/-- **The arithmetic and logical instructions follow the architecture** exactly when the pending load is
into a register, and the operation is not `OR`, `SRL` or `SRLV` with operands for which the simulator
computes something else, unless the result goes to register 0. -/
theorem follows_architecture_iff (word : CInt) (r : Registers)
    (halu : (aluResult word (r (decode word).rs) (r (decode word).rt) (decode word).opCode).isSome)
    (hpending : (decode word).target ≠ 0 → r LoadReg ≠ BitVec.ofNat 32 (decode word).target) :
    FollowsArchitecture word r ↔ (r LoadReg).toNat < NumTotalRegs ∧
      ((decode word).target = 0 ∨
        Agrees word (r (decode word).rs) (r (decode word).rt) (decode word).opCode) :=
  ⟨agrees_of_follows halu hpending, fun h => follows_of_agrees halu hpending h.1 h.2⟩

/-- `addu $3, $1, $2` -/
theorem follows_architecture_iff_addu :
    decode 0x00221821 = ⟨.addu, 1, 2, 3, 0⟩ ∧ FollowsArchitecture 0x00221821 (fun _ => 5) :=
  ⟨by decide, (follows_architecture_iff _ _ (by decide) (by decide)).2 (by decide)⟩

/-- `or $3, $1, $2` with 0 and 1 does not give 1, and `srl $3, $2, 1` of -1 does not give a positive
number. -/
theorem or_and_srl_differ :
    (decode 0x00221825 = ⟨.or, 1, 2, 3, 0⟩ ∧
      ¬ FollowsArchitecture 0x00221825 (Function.update (fun _ => 0) 2 1)) ∧
    (decode 0x00021842 = ⟨.srl, 0, 2, 3, 1⟩ ∧
      ¬ FollowsArchitecture 0x00021842 (Function.update (fun _ => 0) 2 (-1))) := by
  refine ⟨⟨by decide, ?_⟩, ⟨by decide, ?_⟩⟩
  · intro h
    have hagrees := agrees_of_follows (by decide) (by decide) h
    revert hagrees
    decide
  · intro h
    have hagrees := agrees_of_follows (by decide) (by decide) h
    revert hagrees
    decide

end Nachos.Mips
