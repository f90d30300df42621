import Nachos.Machine.Equiv.Robust
import Nachos.Machine.RegisterFile
import Nachos.Threads.Equiv.UserState

/-!
# The registers stay well formed, and loads are delayed

Every way out of `OneInstruction` goes through `DelayedLoad`, at its end or in `RaiseException`, so
register 0 is cleared, and `LoadReg` is the field `rt` of an instruction or 0
(`oneInstruction_wellFormed`).

For the delay a run is followed up to its first exception (`Until`).  The `switch` writes registers only
when it raises no exception any more (`execute_until`), so the first exception finds the registers that
the instruction has begun with.
-/

namespace Nachos.Mips

open Coupling Comp Paging

variable {σ α β : Type} {mem : MemorySystem σ} {s s' : State σ} {r : Registers} {env : Environment σ}
  {which : ExceptionType}

/-! ### Register 0 and `LoadReg` -/

/-- The number of a general register. -/
def Small (v : CInt) : Prop := v.toNat ≤ 31

theorem small_iff (v : CInt) : Small v ↔ 0 ≤ v.toInt ∧ v.toInt ≤ 31 := by
  unfold Small
  rw [BitVec.toInt_eq_toNat_cond]
  split_ifs <;> omega

theorem small_nextLoadReg (instr : Instruction) : Small instr.nextLoadReg := by
  unfold Small Instruction.nextLoadReg
  split_ifs
  · have hlt := instr.rt.isLt
    rw [BitVec.toNat_ofNat, Nat.mod_eq_of_lt (Nat.lt_trans hlt (by decide))]
    exact Nat.le_of_lt_succ hlt
  · decide

theorem small_zero : Small 0 := by
  unfold Small
  decide

theorem wellFormed_iff : WellFormed r ↔ r 0 = 0 ∧ Small (r LoadReg) := by
  rw [small_iff]
  constructor
  · intro h
    exact ⟨h.zero, h.loadReg⟩
  · intro h
    exact ⟨h.1, h.2⟩

theorem Small.loadable {v : CInt} (h : Small v) : Loadable v := by
  unfold Loadable
  exact Nat.lt_of_le_of_lt h (by decide)

/-- `for (i = 0; i < NumTotalRegs; i++) WriteRegister(i, 0)`, and none of the other writes is to one of
these registers. -/
theorem wellFormed_initRegisters (numPages : CInt) (registers : Registers) :
    WellFormed (initRegisters numPages registers) := by
  have hcleared : ∀ i, i ≠ PCReg → i ≠ NextPCReg → i ≠ StackReg →
      initRegisters numPages registers i = 0 := by
    intro i hpc hnext hstack
    unfold initRegisters
    rw [Function.update_of_ne hstack, Function.update_of_ne hnext, Function.update_of_ne hpc,
      List.foldl_update_apply, if_pos (List.mem_finRange i)]
  rw [wellFormed_iff, hcleared 0 (by decide) (by decide) (by decide),
    hcleared LoadReg (by decide) (by decide) (by decide)]
  exact ⟨rfl, small_zero⟩

/-! ### Handlers -/

/-- Register 0 and `LoadReg` are the same. -/
def Spared (s s' : State σ) : Prop :=
  s'.registers 0 = s.registers 0 ∧ s'.registers LoadReg = s.registers LoadReg

/-- The handler leaves these registers alone. -/
def Sparing (mem : MemorySystem σ) : Prop :=
  ∀ which s, Post True (fun _ => Spared s) (fun _ => Spared s) (mem.handler which s)

theorem handler_memory_ok (h : env.handler which s = .ok s') :
    env.memory.handler which s = some (.ok (), s') := by
  unfold Environment.memory
  dsimp only
  rw [h]

theorem handler_memory_error {e : Ending} (h : env.handler which s = .error e) :
    env.memory.handler which s = some (.error e, s) := by
  unfold Environment.memory
  dsimp only
  rw [h]

theorem sparing_memory (env : Environment σ) : Sparing env.memory := by
  intro which s
  cases h : env.handler which s with
  | ok s' =>
    rw [handler_memory_ok h]
    exact env.spares which s s' h
  | error e =>
    rw [handler_memory_error h]
    exact ⟨rfl, rfl⟩

/-- What the handler of the kernel does, unless it fails an `ASSERT`. -/
theorem handler_kernel {access : σ → Access → Except ExceptionType (Option CInt × σ)}
    {pageFault : σ → CInt → Option σ} {e : Except Ending Unit}
    (h : exceptionHandler pageFault which s = some (e, s')) :
    (Environment.kernel access pageFault).memory.handler which s = some (e, s') := by
  rcases exceptionHandler_cases h with ⟨ending, rfl, rfl⟩ | ⟨rfl, -⟩
  · apply handler_memory_error
    show kernelHandler pageFault which s' = _
    unfold kernelHandler
    rw [h]
  · apply handler_memory_ok
    show kernelHandler pageFault which s = _
    unfold kernelHandler
    rw [h]

/-- The state in a handler. -/
structure Idle (s : State σ) : Prop where
  zero : s.registers 0 = 0
  loadReg : s.registers LoadReg = 0

theorem Idle.small (h : Idle s) : Small (s.registers LoadReg) := by
  rw [h.loadReg]
  exact small_zero

theorem Idle.wellFormed (h : Idle s) : WellFormed s.registers :=
  wellFormed_iff.mpr ⟨h.zero, h.small⟩

theorem loadInto_zero (l : Register) (r : Registers) (nextReg nextValue : CInt) :
    loadInto l r nextReg nextValue 0 = 0 := by
  rw [loadInto_apply, if_pos rfl]

theorem loadInto_loadReg (l : Register) (r : Registers) (nextReg nextValue : CInt) :
    loadInto l r nextReg nextValue LoadReg = nextReg := by
  rw [loadInto_apply, if_neg (by decide), if_neg (by decide), if_pos rfl]

theorem loadInto_loadValueReg (l : Register) (r : Registers) (nextReg nextValue : CInt) :
    loadInto l r nextReg nextValue LoadValueReg = nextValue := by
  rw [loadInto_apply, if_neg (by decide), if_pos rfl]

theorem idle_loadInto (l : Register) (r : Registers) (m : σ) :
    Idle (⟨loadInto l r 0 0, m⟩ : State σ) :=
  ⟨loadInto_zero l r 0 0, loadInto_loadReg l r 0 0⟩

theorem Spared.idle (h : Spared s s') (hs : Idle s) : Idle s' :=
  ⟨h.1.trans hs.zero, h.2.trans hs.loadReg⟩

/-- Every ending is in a state with well-formed registers. -/
abbrev EndsWell (_ : Ending) (s : State σ) : Prop := WellFormed s.registers

theorem raiseException_idle (hmem : Sparing mem) (h : Small (s.registers LoadReg))
    (which : ExceptionType) (badVAddr : CInt) :
    Post True (fun _ => Idle) EndsWell (raiseException mem which badVAddr s) := by
  obtain ⟨l, hl⟩ := exists_pending h.loadable
  rw [raiseException_apply mem which badVAddr hl]
  have hidle := idle_loadInto l (Function.update s.registers BadVAddrReg badVAddr) s.memory
  have hspared := hmem which ⟨loadInto l (Function.update s.registers BadVAddrReg badVAddr) 0 0, s.memory⟩
  generalize mem.handler which _ = x at hspared ⊢
  rcases x with _ | ⟨e | _, s'⟩
  · trivial
  · exact (Spared.idle hspared hidle).wellFormed
  · exact Spared.idle hspared hidle

theorem raise_endsWell (hmem : Sparing mem) (h : Small (s.registers LoadReg)) (which : ExceptionType)
    (badVAddr : CInt) {S : β → State σ → Prop} : Post True S EndsWell (raise mem which badVAddr s) :=
  (raiseException_idle hmem h which badVAddr).bind fun _ _ hidle => hidle.wellFormed

/-- After an exception nothing is pending, also when the access fails again. -/
theorem accessMem_small (hmem : Sparing mem) (h : Small (s.registers LoadReg)) (access : Access) :
    Post True (Pending Small) EndsWell (accessMem mem access s) := by
  have hraise : ∀ which (s : State σ), Small (s.registers LoadReg) →
      Post True (fun _ s' => s'.registers 0 = 0 ∧ s'.registers LoadReg = 0) EndsWell
        (raiseException mem which access.addr s) := by
    intro which s hs
    exact (raiseException_idle hmem hs which access.addr).mono fun _ _ hidle => ⟨hidle.zero, hidle.loadReg⟩
  exact accessMem_rule (P := fun r => Small (r LoadReg)) (I := fun r => r 0 = 0 ∧ r LoadReg = 0) access
    (fun _ _ => trivial) hraise (fun _ h => h.2 ▸ small_zero)
    (fun _ h => (Idle.mk h.1 h.2).wellFormed) h

theorem complete_wellFormed (h : Small (s.registers LoadReg)) {next : Next}
    (hnext : Small next.nextLoadReg) :
    Post True (fun _ s' => WellFormed s'.registers) EndsWell (complete next s) := by
  obtain ⟨l, hl⟩ := exists_pending h.loadable
  obtain ⟨s', hrun, -, hregisters⟩ := exists_complete hl next
  rw [hrun]
  refine wellFormed_iff.mpr ⟨?_, ?_⟩
  · rw [hregisters 0 (by decide), loadInto_zero]
  · rw [hregisters LoadReg (by decide), loadInto_loadReg]
    exact hnext

/-- **An instruction leaves the registers well formed**, however it ends. -/
theorem oneInstruction_wellFormed (hmem : Sparing mem) (h : WellFormed s.registers) :
    Post True (fun _ s' => WellFormed s'.registers) EndsWell (oneInstruction mem s) := by
  have hraise {β : Type} {S : β → State σ → Prop} {s : State σ} (which : ExceptionType) (a : CInt)
      (h : Small (s.registers LoadReg)) : Post True S EndsWell (raise mem which a s) :=
    raise_endsWell hmem h which a
  have haccess {s : State σ} (access : Access) (_ : access.size = 1 ∨ access.size = 2 ∨ access.size = 4)
      (h : Small (s.registers LoadReg)) : Post True (Pending Small) EndsWell (accessMem mem access s) :=
    accessMem_small hmem h access
  unfold oneInstruction
  apply reg_bind_post
  apply (readMem_post haccess (wellFormed_iff.mp h).2 _ (by decide)).bind
  intro word s₁ h₁
  apply reg_bind_post
  apply (execute_post hraise haccess h₁ (Or.inl trivial) (Or.inl trivial) _).bind
  rintro next s₂ ⟨h₂, hnext⟩
  apply complete_wellFormed h₂
  rw [hnext]
  exact small_nextLoadReg _

theorem delayedLoad_idle (h : WellFormed s.registers)
    (hload : delayedLoad 0 0 s = some (.ok (), s')) : Idle s' := by
  obtain ⟨l, hl⟩ := exists_pending (wellFormed_iff.mp h).2.loadable
  rw [delayedLoad_apply hl] at hload
  cases hload
  exact idle_loadInto l s.registers s.memory

theorem wellFormed_of_reachable {numPages : CInt} (h : (runs env numPages).Reachable s) :
    WellFormed s.registers := by
  apply h.invariant
  · rintro s ⟨registers, hs⟩
    rw [hs]
    exact wellFormed_initRegisters numPages registers
  · intro s e s' hs hstep
    cases e with
    | instruction =>
      have hpost := oneInstruction_wellFormed (sparing_memory env) hs
      rcases hstep with hstep | hstep
      · rw [hstep] at hpost
        exact hpost
      · rw [hstep] at hpost
        exact hpost
    | interrupt memory =>
      obtain ⟨s₁, hload, rfl⟩ := hstep
      exact (delayedLoad_idle hs hload).wellFormed

/-! ### Writes outside the registers -/

theorem total_memory (env : Environment σ) : Total env.memory := by
  constructor
  · intro m access _
    rfl
  · intro which s
    cases h : env.handler which s with
    | ok s' =>
      rw [handler_memory_ok h]
      exact (env.spares which s s' h).2
    | error e =>
      rw [handler_memory_error h]
      trivial

/-- The fetch does not stop the simulator, and the instruction only in the cases of
`oneInstruction_isSome`. -/
theorem inBounds_of_wellFormed (h : WellFormed s.registers) : InBounds env s := by
  have hload := (wellFormed_iff.mp h).2.loadable
  constructor
  · intro hnone
    have hfetch : Post False (Pending Loadable) (fun _ _ => True)
        (readMem env.memory (s.registers PCReg) 4 s) :=
      readMem_post (fun access hsize h => accessMem_post (total_memory env) h access hsize) hload _
        (by decide)
    rcases hread : readMem env.memory (s.registers PCReg) 4 s with _ | ⟨e | word, s₁⟩
    · rw [hread] at hfetch
      exact hfetch.elim
    · -- the fetch has ended the instruction
      have hpc : reg PCReg s = some (.ok (s.registers PCReg), s) := rfl
      unfold oneInstruction at hnone
      rw [bind_of_ok hpc, bind_apply, hread] at hnone
      cases hnone
    · rw [hread] at hfetch
      refine ⟨word, s₁, rfl, ?_⟩
      by_contra hcases
      rw [not_or, Bool.not_eq_true] at hcases
      have hsome := oneInstruction_isSome (total_memory env) hread hfetch hcases.1 hcases.2
      rw [hnone] at hsome
      cases hsome
  · obtain ⟨l, hl⟩ := exists_pending hload
    rw [delayedLoad_apply hl]
    rfl

/-! ### Up to the first exception -/

/-- Runs with any handler: all return the same, or all come to the same exception, with the registers
`r`, or all abort. -/
inductive Until (mem : MemorySystem σ) (r : Registers) (Q : α → State σ → Prop)
    (run : (ExceptionType → Comp Ending (State σ) Unit) → Option (Except Ending α × State σ)) : Prop where
  | ret (a : α) (s' : State σ) (hQ : Q a s') (h : ∀ handler, run handler = some (.ok a, s'))
  | raise (which : ExceptionType) (badVAddr : CInt) (m : σ)
      (rest : (ExceptionType → Comp Ending (State σ) Unit) → Unit → Comp Ending (State σ) α)
      (h : ∀ handler, run handler =
        (raiseException (mem.handledBy handler) which badVAddr >>= rest handler) ⟨r, m⟩)
  | abort (h : ∀ handler, run handler = none)

namespace Until

variable {Q : α → State σ → Prop} {T : β → State σ → Prop}

theorem bind {p : (ExceptionType → Comp Ending (State σ) Unit) → Comp Ending (State σ) α}
    {f : (ExceptionType → Comp Ending (State σ) Unit) → α → Comp Ending (State σ) β}
    (h : Until mem r Q fun handler => p handler s)
    (hnext : ∀ a s', Q a s' → Until mem r T fun handler => f handler a s') :
    Until mem r T fun handler => (p handler >>= f handler) s := by
  cases h with
  | ret a s' hQ hp =>
    have hrun : (fun handler => (p handler >>= f handler) s) = fun handler => f handler a s' := by
      funext handler
      exact bind_of_ok (hp handler)
    rw [hrun]
    exact hnext a s' hQ
  | raise which badVAddr m rest hp =>
    refine .raise which badVAddr m (fun handler u => rest handler u >>= f handler) ?_
    intro handler
    rw [bind_apply, hp handler, bind_apply, bind_apply]
    rcases raiseException (mem.handledBy handler) which badVAddr ⟨r, m⟩ with _ | ⟨e | u, s'⟩
    · rfl
    · rfl
    · rfl
  | abort hp => exact .abort fun handler => bind_of_abort (hp handler)

/-- What is returned, with the run that returns it. -/
theorem withRun
    {run : (ExceptionType → Comp Ending (State σ) Unit) → Option (Except Ending α × State σ)}
    (h : Until mem r Q run) :
    Until mem r (fun a s' => Q a s' ∧ ∀ handler, run handler = some (.ok a, s')) run := by
  cases h with
  | ret a s' hQ hrun => exact .ret a s' ⟨hQ, hrun⟩ hrun
  | raise which badVAddr m rest hrun => exact .raise which badVAddr m rest hrun
  | abort hrun => exact .abort hrun

theorem ite {c : Prop} [Decidable c]
    {p q : (ExceptionType → Comp Ending (State σ) Unit) → Comp Ending (State σ) α}
    (hp : c → Until mem r Q fun handler => p handler s)
    (hq : ¬ c → Until mem r Q fun handler => q handler s) :
    Until mem r Q fun handler => (if c then p handler else q handler) s := by
  by_cases hc : c
  · simp only [if_pos hc]
    exact hp hc
  · simp only [if_neg hc]
    exact hq hc

end Until

/-- The registers are those of the beginning. -/
abbrev Unwritten (r : Registers) (_ : α) (s : State σ) : Prop := s.registers = r

theorem raise_until {Q : α → State σ → Prop} (h : s.registers = r) (which : ExceptionType)
    (badVAddr : CInt) :
    Until mem r Q fun handler => raise (mem.handledBy handler) which badVAddr s := by
  subst h
  exact .raise which badVAddr s.memory (fun _ _ => stop .returned) fun _ => rfl

theorem accessMem_until (h : s.registers = r) (access : Access) :
    Until mem r (Unwritten r) fun handler => accessMem (mem.handledBy handler) access s := by
  have hattempt : Until mem r (Unwritten r)
      fun handler => attempt (mem.handledBy handler) access s := by
    rcases haccess : mem.access s.memory access with _ | exception | ⟨result, m⟩
    · refine .abort fun handler => ?_
      unfold attempt
      exact congrArg _ haccess
    · exact .ret _ s h fun handler => attempt_error haccess
    · exact .ret _ { s with memory := m } h fun handler => attempt_ok haccess
  apply hattempt.bind
  intro result s' h'
  cases result with
  | ok result => exact .ret result s' h' fun _ => rfl
  | error exception =>
    subst h'
    exact .raise exception access.addr s'.memory _ fun _ => rfl

theorem readMem_until (h : s.registers = r) (addr : CInt) (size : ℕ) :
    Until mem r (Unwritten r) fun handler => readMem (mem.handledBy handler) addr size s :=
  (accessMem_until h _).bind fun _ s' h' => .ret _ s' h' fun _ => rfl

theorem writeMem_until (h : s.registers = r) (addr : CInt) (size : ℕ) (value : CInt) :
    Until mem r (Unwritten r) fun handler => writeMem (mem.handledBy handler) addr size value s :=
  (accessMem_until h _).bind fun _ s' h' => .ret _ s' h' fun _ => rfl

/-! ### The `switch` -/

/-- Only registers of the instruction have been written, and the pending load has not been touched. -/
structure Kept (instr : Instruction) (r : Registers) (s : State σ) : Prop where
  other : ∀ i, i ∉ instr.writes → s.registers i = r i
  loadReg : s.registers LoadReg = r LoadReg
  loadValueReg : s.registers LoadValueReg = r LoadValueReg

variable {instr : Instruction}

theorem kept_of_eq (h : s.registers = r) : Kept instr r s := by
  subst h
  exact ⟨fun _ _ => rfl, rfl, rfl⟩

theorem Kept.set (h : Kept instr r s) {i : Register} (hi : i ∈ instr.writes) (hordinary : Ordinary i)
    (v : CInt) : Kept instr r ⟨Function.update s.registers i v, s.memory⟩ := by
  obtain ⟨hload, hvalue, -⟩ := hordinary
  refine ⟨?_, ?_, ?_⟩
  · intro j hj
    have hne : j ≠ i := by
      rintro rfl
      exact hj hi
    exact (Function.update_of_ne hne _ _).trans (h.other j hj)
  · exact (Function.update_of_ne hload.symm _ _).trans h.loadReg
  · exact (Function.update_of_ne hvalue.symm _ _).trans h.loadValueReg

/-- The `switch` is left. -/
abbrev Switched (instr : Instruction) (r : Registers) (nextLoadReg : CInt) (next : Next) (s : State σ) :
    Prop :=
  Kept instr r s ∧ next.nextLoadReg = nextLoadReg

theorem branch_until (h : Kept instr r s) (taken : Bool) (pcAfter : CInt) :
    Until mem r (Switched instr r 0) fun _ => branch instr taken pcAfter s := by
  cases taken with
  | false => exact .ret _ s ⟨h, rfl⟩ fun _ => rfl
  | true => exact .ret _ s ⟨h, rfl⟩ fun _ => rfl

theorem load_until (h : s.registers = r) (size : ℕ) (extend : CInt → CInt) (pcAfter : CInt) :
    Until mem r (Switched instr r (BitVec.ofNat 32 instr.rt))
      fun handler => load (mem.handledBy handler) instr size extend pcAfter s := by
  apply Until.ite
  · intro _
    exact raise_until h _ _
  · intro _
    apply (readMem_until h _ size).bind
    intro value s' h'
    exact .ret _ s' ⟨kept_of_eq h', rfl⟩ fun _ => rfl

theorem store_until (h : s.registers = r) (size : ℕ) (pcAfter : CInt) :
    Until mem r (Switched instr r 0) fun handler => store (mem.handledBy handler) instr size pcAfter s :=
  (writeMem_until h _ size _).bind fun _ s' h' => .ret _ s' ⟨kept_of_eq h', rfl⟩ fun _ => rfl

theorem oldValue_until (h : s.registers = r) :
    Until mem r (Unwritten r) fun _ => oldValue instr s := by
  apply Until.ite
  · intro _
    exact .ret _ s h fun _ => rfl
  · intro _
    exact .ret _ s h fun _ => rfl

theorem loadPart_until (h : s.registers = r) (merge : CInt → CInt → CInt → CInt) (pcAfter : CInt) :
    Until mem r (Switched instr r (BitVec.ofNat 32 instr.rt))
      fun handler => loadPart (mem.handledBy handler) instr merge pcAfter s := by
  apply Until.ite
  · intro _
    apply (readMem_until h _ 4).bind
    intro value s' h'
    apply (oldValue_until h').bind
    intro old s'' h''
    exact .ret _ s'' ⟨kept_of_eq h'', rfl⟩ fun _ => rfl
  · intro _
    exact .abort fun _ => rfl

theorem storePart_until (h : s.registers = r) (merge : CInt → CInt → CInt → CInt) (pcAfter : CInt) :
    Until mem r (Switched instr r 0)
      fun handler => storePart (mem.handledBy handler) instr merge pcAfter s := by
  apply Until.ite
  · intro _
    apply (readMem_until h _ 4).bind
    intro value s' h'
    apply (writeMem_until h' _ 4 _).bind
    intro _ s'' h''
    exact .ret _ s'' ⟨kept_of_eq h'', rfl⟩ fun _ => rfl
  · intro _
    exact .abort fun _ => rfl

/-- **The `switch` raises an exception before it writes a register**, or not at all. -/
theorem execute_until (h : s.registers = r) (pcAfter : CInt) :
    Until mem r (Switched instr r instr.nextLoadReg)
      fun handler => execute (mem.handledBy handler) instr pcAfter s := by
  have hkept : Kept instr r s := kept_of_eq h
  have hset (i : Register) (hi : i ∈ instr.writes) (hordinary : Ordinary i) (v : CInt) :
      Until mem r (Switched instr r 0)
        fun _ => (do setReg i v; return .pc pcAfter : Comp Ending (State σ) Next) s :=
    .ret _ _ ⟨hkept.set hi hordinary v, rfl⟩ fun _ => rfl
  have hset₂ (i j : Register) (hi : i ∈ instr.writes) (hj : j ∈ instr.writes) (hordinary : Ordinary i)
      (hordinary' : Ordinary j) (v w : CInt) : Until mem r (Switched instr r 0)
        fun _ => (do setReg i v; setReg j w; return .pc pcAfter : Comp Ending (State σ) Next) s :=
    .ret _ _ ⟨(hkept.set hi hordinary v).set hj hordinary' w, rfl⟩ fun _ => rfl
  unfold execute Instruction.nextLoadReg
  -- with the operation it is also known whether a load starts
  cases hop : instr.opCode <;> simp only [OpCode.isLoad, Bool.false_eq_true, if_false, if_true]
  case addu | and | nor | or | sllv | slt | sltu | srav | srlv | subu | xor =>
    exact hset instr.rd (by simp [Instruction.writes, hop]) (ordinary_gpr _) _
  case addiu | andi | lui | ori | slti | sltiu | xori =>
    exact hset instr.rt (by simp [Instruction.writes, hop]) (ordinary_gpr _) _
  case sll | sra | srl | mfhi | mflo =>
    exact hset instr.rd (by simp [Instruction.writes, hop]) (ordinary_gpr _) _
  case add | sub =>
    apply Until.ite
    · intro _
      exact raise_until h _ _
    · intro _
      exact hset instr.rd (by simp [Instruction.writes, hop]) (ordinary_gpr _) _
  case addi =>
    apply Until.ite
    · intro _
      exact raise_until h _ _
    · intro _
      exact hset instr.rt (by simp [Instruction.writes, hop]) (ordinary_gpr _) _
  case mthi => exact hset HiReg (by simp [Instruction.writes, hop]) (by decide) _
  case mtlo => exact hset LoReg (by simp [Instruction.writes, hop]) (by decide) _
  case mult | multu =>
    exact hset₂ HiReg LoReg (by simp [Instruction.writes, hop]) (by simp [Instruction.writes, hop])
      (by decide) (by decide) _ _
  case div =>
    have hhilo := hset₂ LoReg HiReg (by simp [Instruction.writes, hop])
      (by simp [Instruction.writes, hop]) (by decide) (by decide)
    apply Until.ite
    · intro _
      exact hhilo _ _
    · intro _
      apply Until.ite
      · -- the quotient of the least integer by -1 is not an `int`
        intro _
        exact .abort fun _ => rfl
      · intro _
        exact hhilo _ _
  case divu =>
    have hhilo := hset₂ LoReg HiReg (by simp [Instruction.writes, hop])
      (by simp [Instruction.writes, hop]) (by decide) (by decide)
    apply Until.ite
    · intro _
      exact hhilo _ _
    · intro _
      exact hhilo _ _
  case beq | bne => exact branch_until hkept _ _
  case bgez | bgtz | blez | bltz => exact branch_until hkept _ _
  case bgezal | bltzal =>
    exact branch_until (hkept.set (by simp [Instruction.writes, hop]) (by decide) _) _ _
  case j | jr => exact .ret _ s ⟨hkept, rfl⟩ fun _ => rfl
  case jal =>
    exact .ret _ _ ⟨hkept.set (by simp [Instruction.writes, hop]) (by decide) _, rfl⟩ fun _ => rfl
  case jalr =>
    exact .ret _ _ ⟨hkept.set (by simp [Instruction.writes, hop]) (ordinary_gpr _) _, rfl⟩ fun _ => rfl
  case lb | lbu | lh | lhu | lw => exact load_until h _ _ _
  case sb | sh | sw => exact store_until h _ _
  case lwl | lwr => exact loadPart_until h _ _
  case swl | swr => exact storePart_until h _ _
  case syscall | res | unimp => exact raise_until h _ _

/-! ### The pending load -/

theorem afterLoad_badVAddr (r : Registers) (badVAddr : CInt) (i : Fin NumGPRegs) :
    afterLoad (Function.update r BadVAddrReg badVAddr) i = afterLoad r i := by
  unfold afterLoad
  rw [Function.update_of_ne (ordinary_gpr i).2.2]
  rfl

/-- A run without an exception: the fetch, the `switch` and the rest. -/
structure Completed (mem : MemorySystem σ) (s : State σ) (word : CInt) (s₁ : State σ) (next : Next)
    (s₂ s' : State σ) : Prop where
  fetch : ∀ handler, readMem (mem.handledBy handler) (s.registers PCReg) 4 s = some (.ok word, s₁)
  switch : ∀ handler, execute (mem.handledBy handler) (decode word) (s₁.registers NextPCReg + 4) s₁ =
    some (.ok next, s₂)
  switched : Switched (decode word) s.registers (decode word).nextLoadReg next s₂
  complete : complete next s₂ = some (.ok (), s')

theorem oneInstruction_until (h : Small (s.registers LoadReg)) :
    Until mem s.registers (fun _ s' => ∃ word s₁ next s₂, Completed mem s word s₁ next s₂ s')
      fun handler => oneInstruction (mem.handledBy handler) s := by
  show Until mem s.registers _ fun handler =>
    (readMem (mem.handledBy handler) (s.registers PCReg) 4 >>= fun word => do
      let next ← execute (mem.handledBy handler) (decode word) ((← reg NextPCReg) + 4)
      complete next) s
  apply (readMem_until rfl _ 4).withRun.bind
  rintro word s₁ ⟨hs₁, hfetch⟩
  show Until mem s.registers _ fun handler =>
    (execute (mem.handledBy handler) (decode word) (s₁.registers NextPCReg + 4) >>= complete) s₁
  apply (execute_until hs₁ _).withRun.bind
  rintro next s₂ ⟨hswitched, hswitch⟩
  rw [← hswitched.1.loadReg] at h
  obtain ⟨l, hl⟩ := exists_pending h.loadable
  obtain ⟨s', hcomplete, -⟩ := exists_complete hl next
  exact .ret () s' ⟨word, s₁, next, s₂, hfetch, hswitch, hswitched, hcomplete⟩ fun _ => hcomplete

/-- **A load shows when the next instruction is completed or an exception is raised**, and not
before. -/
theorem delays_of_small (h : Small (s.registers LoadReg)) : Delays mem s := by
  cases @oneInstruction_until σ mem s h with
  | ret _ s' hcompleted hrun =>
    obtain ⟨word, s₁, next, s₂, hfetch, hswitch, ⟨hkept, hnext⟩, hcomplete⟩ := hcompleted
    have h₂ : Small (s₂.registers LoadReg) := by
      rw [hkept.loadReg]
      exact h
    obtain ⟨l, hl⟩ := exists_pending h₂.loadable
    obtain ⟨s'', hcomplete', -, hregisters⟩ := exists_complete hl next
    cases hcomplete.symm.trans hcomplete'
    refine .completed word s₁ next s₂ s' hfetch hswitch (fun i => hkept.other i)
      ⟨hkept.loadReg, hkept.loadValueReg⟩ hrun ?_ ⟨?_, ?_, hnext⟩
    · intro i
      rw [hregisters i (lasting_gpr i)]
      exact loadInto_gpr hl i _ _
    · rw [hregisters LoadReg (by decide), loadInto_loadReg]
    · rw [hregisters LoadValueReg (by decide), loadInto_loadValueReg]
  | raise which badVAddr m rest hrun =>
    obtain ⟨l, hl⟩ := exists_pending h.loadable
    refine .exception which ⟨loadInto l (Function.update s.registers BadVAddrReg badVAddr) 0 0, m⟩
      (fun handler => rest handler ()) ?_ ?_ ?_
    · intro handler
      have hraise := raiseException_apply (mem.handledBy handler) which badVAddr
        (show (⟨s.registers, m⟩ : State σ).registers LoadReg = BitVec.ofNat 32 l from hl)
      rw [hrun handler, bind_apply, hraise]
      rfl
    · intro i
      have hl' : Function.update s.registers BadVAddrReg badVAddr LoadReg = BitVec.ofNat 32 l := hl
      rw [← afterLoad_badVAddr s.registers badVAddr i]
      exact loadInto_gpr hl' i 0 0
    · exact loadInto_loadReg l (Function.update s.registers BadVAddrReg badVAddr) 0 0
  | abort hrun => exact .stopped hrun

theorem delaysUntilInterrupt_of_small (h : Small (s.registers LoadReg)) : DelaysUntilInterrupt s := by
  obtain ⟨l, hl⟩ := exists_pending h.loadable
  refine ⟨_, delayedLoad_apply hl 0 0, loadInto_loadReg l s.registers 0 0, ?_⟩
  intro i
  exact loadInto_gpr hl i 0 0

/-- **Registers over a run.**  Between instructions register 0 is 0 and the pending load is into one of
the general registers; no write is outside `registers`; a load shows when the next instruction is
completed or an exception or interrupt is taken, and not before. -/
theorem registers_over_runs (env : Environment σ) (numPages : CInt) (s : State σ)
    (h : (runs env numPages).Reachable s) :
    WellFormed s.registers ∧ InBounds env s ∧ Delays env.memory s ∧ DelaysUntilInterrupt s := by
  have hwell := wellFormed_of_reachable h
  have hsmall := (wellFormed_iff.mp hwell).2
  exact ⟨hwell, inBounds_of_wellFormed hwell, delays_of_small hsmall, delaysUntilInterrupt_of_small hsmall⟩

/-- `lw $1, 0($0)` -/
abbrev loadWord : CInt := 0x8c010000

/-- A memory that holds this instruction everywhere. -/
def loading : Environment Unit := .kernel (fun _ _ => .ok (some loadWord, ())) fun _ _ => none

/-- After the first instruction the load is pending, and the register has not changed. -/
theorem registers_over_runs_load : ∃ s, (runs loading 8).Reachable s ∧
    s.registers LoadReg = 1 ∧ s.registers LoadValueReg = loadWord ∧ s.registers 1 = 0 ∧
    WellFormed s.registers ∧ InBounds loading s ∧ Delays loading.memory s ∧ DelaysUntilInterrupt s := by
  have hrun : ∃ s, oneInstruction loading.memory ⟨initRegisters 8 fun _ => 0, ()⟩ = some (.ok (), s) ∧
      s.registers LoadReg = 1 ∧ s.registers LoadValueReg = loadWord ∧ s.registers 1 = 0 := by
    refine ⟨_, rfl, ?_, ?_, ?_⟩
    · decide +kernel
    · decide +kernel
    · decide +kernel
  obtain ⟨s, hstep, hload, hvalue, hold⟩ := hrun
  have hinit : (runs loading 8).Reachable ⟨initRegisters 8 fun _ => 0, ()⟩ := .of_init ⟨_, rfl⟩
  have hreach : (runs loading 8).Reachable s := hinit.tail (a := .instruction) (Or.inl hstep)
  exact ⟨s, hreach, hload, hvalue, hold, registers_over_runs loading 8 s hreach⟩

end Nachos.Mips
