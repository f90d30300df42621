import Nachos.Threads.Switch

/-!
# What `SWITCH` does

`run_switch` runs the code of `SWITCH`: the registers of the caller go to the object of the old thread,
those of the new thread come from its object.  `Suspended` says that memory holds what a thread needs to
be resumed; every step keeps that for all threads that do not run, so that `SWITCH` resumes a thread
where it has left off (`switch_returns`).
-/

namespace Nachos.Switch

open I386

/-! ### The code -/

/-- The registers that are saved and loaded one after the other. -/
def plainRegs : List Reg := [.ebx, .ecx, .edx, .esi, .edi, .ebp, .esp]

def saving (e : Word) : List Instr :=
  [.storeName .eax e, .load 4 .esp .eax] ++ ((plainRegs.map fun r => .store r (offset r) .eax) ++
    [.loadName e .ebx, .store .ebx (offset .eax) .eax, .load 0 .esp .ebx, .store .ebx pcOffset .eax])

def loading (e : Word) : List Instr :=
  [.load 8 .esp .eax, .load (offset .eax) .eax .ebx, .storeName .ebx e] ++
    ((plainRegs.map fun r => .load (offset r) .eax r) ++
      [.load pcOffset .eax .eax, .store .eax 4 .esp, .loadName e .eax])

theorem switchCode_eq (e : Word) : switchCode e = (saving e ++ loading e) ++ [.ret] := rfl

theorem offset_injective : Function.Injective offset := by
  intro r r' h
  cases r <;> cases r' <;> first | rfl | cases h

theorem aligned_offset (r : Reg) : Aligned (offset r) := by
  cases r <;> decide

theorem mem_plainRegs {r : Reg} (h : r ≠ .eax) : r ∈ plainRegs := by
  cases r <;> first | decide | exact absurd rfl h

theorem add_offset_mem (thread : Word) (r : Reg) : thread + offset r ∈ saved thread := by
  cases r <;> simp [saved, offset]

theorem add_pcOffset_mem (thread : Word) : thread + pcOffset ∈ saved thread := by
  simp [saved, pcOffset]

theorem offset_ne_pc (r : Reg) : offset r ≠ pcOffset := by
  cases r <;> decide

theorem add_offset_ne_pc (thread : Word) (r : Reg) : thread + offset r ≠ thread + pcOffset :=
  fun h => offset_ne_pc r ((BitVec.add_right_inj _).1 h)

variable {e old new : Word} {d : Data}

/-- The value of `%eax` and the return address go to the old thread. -/
theorem block_saveRest (he : Aligned e) (hesp : Aligned (d.regs .esp)) (hold : Aligned old)
    (heax : d.regs .eax = old) (hesp_old : d.regs .esp ∉ saved old) :
    ∃ d', block [.loadName e .ebx, .store .ebx (offset .eax) .eax, .load 0 .esp .ebx,
        .store .ebx pcOffset .eax] d = some d' ∧ d'.regs .esp = d.regs .esp ∧
      d'.mem (old + offset .eax) = d.mem e ∧ d'.mem (old + pcOffset) = d.mem (d.regs .esp) ∧
      ∀ a, a ≠ old + offset .eax → a ≠ old + pcOffset → d'.mem a = d.mem a := by
  have hstore : Aligned (old + offset .eax) := hold.add (aligned_offset .eax)
  have hpc : Aligned (old + pcOffset) := hold.add (by decide)
  have hne : d.regs .esp ≠ old + offset .eax := fun h => hesp_old (h ▸ add_offset_mem old .eax)
  have hload : Aligned (d.regs .esp + 0) := hesp.add (by decide)
  rw [← heax] at hstore hpc hne
  rw [block_loadName he, block_store (by exact hstore), block_load (by exact hload),
    block_store (by exact hpc), block_nil]
  refine ⟨_, rfl, rfl, ?_, ?_, ?_⟩
  · simp [heax, Data.mem_set, Function.update_of_ne (add_offset_ne_pc old .eax)]
  · rw [heax] at hne
    simp [heax, Data.mem_set, Function.update_of_ne hne]
  · intro a ha hapc
    simp [heax, Data.mem_set, Function.update_of_ne ha, Function.update_of_ne hapc]

/-- The first half of `SWITCH`. -/
theorem block_saving (he : Aligned e) (hesp : Aligned (d.regs .esp)) (hold : Aligned old)
    (ht1 : d.mem (d.regs .esp + 4) = old) (ht1_ne : d.regs .esp + 4 ≠ e) (hesp_ne : d.regs .esp ≠ e)
    (hesp_old : d.regs .esp ∉ saved old) (he_old : e ∉ saved old) :
    ∃ d', block (saving e) d = some d' ∧ d'.regs .esp = d.regs .esp ∧
      (∀ r, d'.mem (old + offset r) = d.regs r) ∧ d'.mem (old + pcOffset) = d.mem (d.regs .esp) ∧
      ∀ a, a ∉ saved old → a ≠ e → d'.mem a = d.mem a := by
  have hfirst : block [.storeName .eax e, .load 4 .esp .eax] d =
      some ((d.put e (d.regs .eax)).set .eax old) := by
    have hload : Aligned (d.regs .esp + 4) := hesp.add (by decide)
    rw [block_storeName he, block_load (by exact hload), block_nil, Data.mem_put, Data.regs_put,
      Function.update_of_ne ht1_ne, ht1]
  have haligned : ∀ r ∈ plainRegs,
      Aligned (((d.put e (d.regs .eax)).set .eax old).regs .eax + offset r) :=
    fun r _ => hold.add (aligned_offset r)
  obtain ⟨d₂, hsecond, hregs, hsaved, hother⟩ := block_stores haligned offset_injective (by decide)
  have heax : d₂.regs .eax = old := congrFun hregs .eax
  have hesp₂ : d₂.regs .esp = d.regs .esp := congrFun hregs .esp
  have hkept : ∀ a, a ∉ saved old → a ≠ e → d₂.mem a = d.mem a := by
    intro a ha hae
    rw [hother]
    · exact Function.update_of_ne hae _ _
    · rintro r - rfl
      exact ha (add_offset_mem old r)
  have he₂ : d₂.mem e = d.regs .eax := by
    rw [hother]
    · exact Function.update_self _ _ _
    · intro r _ h
      exact he_old (h ▸ add_offset_mem old r)
  obtain ⟨d₃, hthird, hesp₃, heax₃, hpc₃, hother₃⟩ := block_saveRest he (hesp₂ ▸ hesp) hold heax
    (hesp₂ ▸ hesp_old)
  refine ⟨d₃, ?_, hesp₃.trans hesp₂, ?_, ?_, ?_⟩
  · rw [saving, block_append hfirst, block_append hsecond]
    exact hthird
  · intro r
    by_cases hr : r = .eax
    · rw [hr, heax₃, he₂]
    · rw [hother₃ _ (fun h => hr (offset_injective ((BitVec.add_right_inj _).1 h)))
        (add_offset_ne_pc old r)]
      refine (hsaved r (mem_plainRegs hr)).trans ?_
      exact Function.update_of_ne hr _ _
  · rw [hpc₃, hesp₂, hkept _ hesp_old hesp_ne]
  · intro a ha hae
    rw [hother₃, hkept a ha hae]
    · intro h
      exact ha (h ▸ add_offset_mem old .eax)
    · intro h
      exact ha (h ▸ add_pcOffset_mem old)

/-- The second half of `SWITCH`, up to the return. -/
theorem block_loading (he : Aligned e) (hesp : Aligned (d.regs .esp)) (hnew : Aligned new)
    (ht2 : d.mem (d.regs .esp + 8) = new) (he_new : e ∉ saved new)
    (hesp_new : Aligned (d.mem (new + offset .esp))) (harg : d.mem (new + offset .esp) + 4 ≠ e) :
    ∃ d', block (loading e) d = some d' ∧ (∀ r, d'.regs r = d.mem (new + offset r)) ∧
      ∀ a, a ≠ e → a ≠ d.mem (new + offset .esp) + 4 → d'.mem a = d.mem a := by
  have hfirst : block [.load 8 .esp .eax, .load (offset .eax) .eax .ebx, .storeName .ebx e] d =
      some (((d.set .eax new).set .ebx (d.mem (new + offset .eax))).put e
        (d.mem (new + offset .eax))) := by
    have hload : Aligned ((d.set .eax new).regs .eax + offset .eax) := hnew.add (aligned_offset .eax)
    rw [block_load (hesp.add (by decide)), ht2, block_load hload, block_storeName he, block_nil]
    rfl
  have haligned : ∀ r ∈ plainRegs, Aligned ((((d.set .eax new).set .ebx
      (d.mem (new + offset .eax))).put e (d.mem (new + offset .eax))).regs .eax + offset r) :=
    fun r _ => hnew.add (aligned_offset r)
  obtain ⟨d₂, hsecond, hmem, hloaded, hother⟩ := block_loads haligned (by decide)
  have heax : d₂.regs .eax = new := hother .eax (by decide)
  have hmem₂ : ∀ a, a ≠ e → d₂.mem a = d.mem a := by
    intro a ha
    rw [hmem]
    exact Function.update_of_ne ha _ _
  have hold : ∀ {a}, a ∈ saved new → d₂.mem a = d.mem a := by
    intro a ha
    apply hmem₂
    rintro rfl
    exact he_new ha
  have hregs : ∀ r ∈ plainRegs, d₂.regs r = d.mem (new + offset r) := by
    intro r hr
    rw [← hold (add_offset_mem new r), hmem]
    exact hloaded r hr
  have hpc : Aligned (d₂.regs .eax + pcOffset) := by
    rw [heax]
    exact hnew.add (by decide)
  have hesp₂ := hregs .esp (by decide)
  have hstore : Aligned ((d₂.set .eax (d₂.mem (d₂.regs .eax + pcOffset))).regs .esp + 4) := by
    change Aligned (d₂.regs .esp + 4)
    rw [hesp₂]
    exact hesp_new.add (by decide)
  rw [loading, block_append hfirst, block_append hsecond, block_load hpc, block_store hstore,
    block_loadName he, block_nil]
  refine ⟨_, rfl, ?_, ?_⟩
  · intro r
    by_cases hr : r = .eax
    · have he₂ : d₂.mem e = d.mem (new + offset .eax) := by
        rw [hmem]
        exact Function.update_self _ _ _
      have hne : e ≠ d₂.regs .esp + 4 := by
        rw [hesp₂]
        exact harg.symm
      rw [hr, ← he₂, Data.regs_set, Function.update_self, Data.mem_put]
      exact Function.update_of_ne hne _ _
    · refine (Function.update_of_ne hr _ _).trans ((Function.update_of_ne hr _ _).trans ?_)
      exact hregs r (mem_plainRegs hr)
  · intro a hae ha
    have hne : a ≠ d₂.regs .esp + 4 := by
      rw [hesp₂]
      exact ha
    exact (Function.update_of_ne hne _ _).trans (hmem₂ a hae)

/-! ### Threads that do not run -/

variable {τ : Type} {sym : Symbols} {L : Layout τ sym} {mem mem' : Word → Word} {t u : τ} {c : Context}
  {a : Word}

/-- Memory holds what it takes to resume `t` with the context `c`. -/
structure Suspended (L : Layout τ sym) (mem : Word → Word) (t : τ) (c : Context) : Prop where
  regs : ∀ r, r ≠ .esp → mem (L.thread t + offset r) = c.regs r
  esp : mem (L.thread t + offset .esp) + 4 = c.regs .esp
  eip : mem (mem (L.thread t + offset .esp)) = c.eip
  returnAddress : mem (L.thread t + offset .esp) ∈ L.stack t
  argument : c.regs .esp ∈ L.stack t

namespace Layout

theorem notMem_saved (ha : a ∈ L.stack t) : a ∉ saved (L.thread u) :=
  Set.disjoint_left.1 (L.disjoint_stack_thread t u) ha

theorem ne_eaxSave (ha : a ∈ L.stack t) : a ≠ sym.eaxSave := by
  rintro rfl
  exact L.eaxSave_notMem_stack t ha

theorem saved_ne_eaxSave (ha : a ∈ saved (L.thread t)) : a ≠ sym.eaxSave := by
  rintro rfl
  exact L.eaxSave_notMem_saved t ha

theorem saved_notMem_saved (hne : t ≠ u) (ha : a ∈ saved (L.thread t)) :
    a ∉ saved (L.thread u) := Set.disjoint_left.1 (L.disjoint_threads t u hne) ha

theorem stack_notMem_stack (hne : t ≠ u) (ha : a ∈ L.stack t) : a ∉ L.stack u :=
  Set.disjoint_left.1 (L.disjoint_stacks t u hne) ha

end Layout

theorem Suspended.slot_eq (h : Suspended L mem t c) :
    c.regs .esp - 4 = mem (L.thread t + offset .esp) := by
  rw [← h.esp, BitVec.add_sub_cancel]

/-- The return address is on the stack. -/
theorem Suspended.slot (h : Suspended L mem t c) : c.regs .esp - 4 ∈ L.stack t :=
  h.slot_eq ▸ h.returnAddress

/-- Only the words in the object and the return address matter. -/
theorem Suspended.congr (h : Suspended L mem t c)
    (hsaved : ∀ a ∈ saved (L.thread t), mem' a = mem a)
    (hret : mem' (c.regs .esp - 4) = mem (c.regs .esp - 4)) : Suspended L mem' t c := by
  have hesp : mem' (L.thread t + offset .esp) = mem (L.thread t + offset .esp) :=
    hsaved _ (add_offset_mem _ _)
  rw [h.slot_eq] at hret
  constructor
  · intro r hr
    rw [hsaved _ (add_offset_mem _ _)]
    exact h.regs r hr
  · rw [hesp]
    exact h.esp
  · rw [hesp, hret]
    exact h.eip
  · rw [hesp]
    exact h.returnAddress
  · exact h.argument

variable {text : Text} {w : World τ}

/-- The thread that calls `SWITCH` can be resumed afterwards. -/
theorem suspended_leaving (h : Calls L w t) {mem : Word → Word}
    (hsaved : ∀ r, mem (L.thread w.current + offset r) = w.cpu.regs r)
    (hret : mem (w.cpu.regs .esp) = w.cpu.mem (w.cpu.regs .esp)) :
    Suspended L mem w.current (leaving w.cpu) := by
  have hesp : (leaving w.cpu).regs .esp = w.cpu.regs .esp + 4 :=
    Function.update_self Reg.esp _ w.cpu.regs
  constructor
  · intro r hr
    rw [hsaved]
    exact (Function.update_of_ne hr _ _).symm
  · rw [hsaved, hesp]
  · rw [hsaved, hret]
    rfl
  · rw [hsaved]
    exact h.returnAddress
  · rw [hesp]
    exact h.t1

/-- `c` is how `t` goes on when the current thread has called `SWITCH`. -/
inductive Resumes (L : Layout τ sym) (w : World τ) : τ → Context → Prop where
  | self : Resumes L w w.current (leaving w.cpu)
  | other {t : τ} {c : Context} (hne : t ≠ w.current) (h : Suspended L w.cpu.mem t c) : Resumes L w t c

theorem Resumes.argument (hc : Resumes L w t c) (h : Calls L w t) : c.regs .esp ∈ L.stack t := by
  cases hc with
  | self =>
    have hesp : (leaving w.cpu).regs .esp = w.cpu.regs .esp + 4 :=
      Function.update_self Reg.esp _ w.cpu.regs
    rw [hesp]
    exact h.t1
  | other _ hsuspended => exact hsuspended.argument

/-- **`SWITCH` resumes the new thread**, and writes only to the object of the old thread, to `_eax_save`
and to the argument of the call from which the new thread returns. -/
theorem run_switch (htext : Holds text sym.switch (switchCode sym.eaxSave)) (h : Calls L w t)
    (hc : Resumes L w t c) :
    ∃ s, runFor text (switchCode sym.eaxSave).length w.cpu = some s ∧ s.regs = c.regs ∧ s.eip = c.eip ∧
      (∀ r, s.mem (L.thread w.current + offset r) = w.cpu.regs r) ∧
      ∀ a, a ∉ saved (L.thread w.current) → a ≠ sym.eaxSave → a ≠ c.regs .esp →
        s.mem a = w.cpu.mem a := by
  have he := L.aligned_eaxSave
  have hesp := L.aligned_stack _ _ h.returnAddress
  obtain ⟨d₁, hsaving, hesp₁, hsaved, -, hmem₁⟩ := @block_saving sym.eaxSave _ w.cpu.toData he hesp
    (L.aligned_thread w.current) h.oldThread (L.ne_eaxSave h.t1) (L.ne_eaxSave h.returnAddress)
    (L.notMem_saved h.returnAddress) (L.eaxSave_notMem_saved _)
  have hstack : ∀ {u a}, a ∈ L.stack u → d₁.mem a = w.cpu.mem a := fun ha =>
    hmem₁ _ (L.notMem_saved ha) (L.ne_eaxSave ha)
  -- when the registers of the old thread have been saved, the new thread can be resumed
  have hsuspended : Suspended L d₁.mem t c := by
    cases hc with
    | self => exact suspended_leaving h hsaved (hstack h.returnAddress)
    | other hne hsuspended =>
      refine hsuspended.congr (fun a ha => ?_) (hstack hsuspended.slot)
      exact hmem₁ _ (L.saved_notMem_saved hne ha) (L.saved_ne_eaxSave ha)
  have ht2 : d₁.mem (d₁.regs .esp + 8) = L.thread t := by
    rw [hesp₁, hstack h.t2, h.newThread]
  have hne : c.regs .esp ≠ sym.eaxSave := L.ne_eaxSave hsuspended.argument
  have haligned := L.aligned_stack _ _ hsuspended.returnAddress
  obtain ⟨d₂, hloading, hregs, hmem₂⟩ := @block_loading sym.eaxSave _ d₁ he (hesp₁ ▸ hesp)
    (L.aligned_thread t) ht2 (L.eaxSave_notMem_saved t) haligned (hsuspended.esp ▸ hne)
  rw [hsuspended.esp] at hmem₂
  have hblock : block (saving sym.eaxSave ++ loading sym.eaxSave) w.cpu.toData = some d₂ := by
    rw [block_append hsaving, hloading]
  rw [← h.eip, switchCode_eq] at htext
  obtain ⟨eip, ⟨next, hret, -⟩, hrun⟩ := reaches_block htext hblock
  -- the stack pointer is the one of the new thread, and its return address is still there
  have hreturn : d₂.mem (d₂.regs .esp) = c.eip := by
    rw [hregs, hmem₂ _ (L.ne_eaxSave hsuspended.returnAddress), hsuspended.eip]
    rw [← hsuspended.esp]
    simp
  have hstep : step text ⟨d₂, eip⟩ = some ⟨d₂.set .esp (d₂.regs .esp + 4), c.eip⟩ := by
    rw [step_ret hret, hreturn]
    exact hregs .esp ▸ haligned
  refine ⟨⟨d₂.set .esp (d₂.regs .esp + 4), c.eip⟩, ?_, ?_, rfl, ?_, ?_⟩
  · rw [switchCode_eq, List.length_append, runFor_add hrun, List.length_singleton, runFor, hstep]
    rfl
  · funext r
    by_cases hr : r = .esp
    · rw [hr, ← hsuspended.esp, ← hregs]
      exact Function.update_self Reg.esp _ d₂.regs
    · rw [← hsuspended.regs r hr, ← hregs r]
      exact Function.update_of_ne hr _ _
  · intro r
    rw [← hsaved r]
    refine hmem₂ _ (L.saved_ne_eaxSave (add_offset_mem _ r)) fun heq => ?_
    exact L.notMem_saved hsuspended.argument (heq ▸ add_offset_mem _ r)
  · intro a ha hae haarg
    exact (hmem₂ a hae haarg).trans (hmem₁ a ha hae)

/-! ### `StackAllocate` -/

theorem machineState_eq (thread : Word) (i : ℕ) :
    machineState thread i = thread + BitVec.ofNat 32 (4 + 4 * i) := by
  unfold machineState index
  bv_omega

section

variable (stack func arg : Word)

/-- The words that `StackAllocate` writes. -/
theorem stackAllocate_eq (thread : Word) :
    stackAllocate sym thread stack func arg mem =
      Function.update (Function.update (Function.update (Function.update (Function.update
        (Function.update (Function.update (Function.update mem
          (thread + offset .esp) (index stack (StackSize - 5)))
          (index stack (StackSize - 5)) sym.threadRoot)
          (index stack 0) stackFencepost)
          (thread + pcOffset) sym.threadRoot)
          (thread + offset .ecx) sym.interruptEnable)
          (thread + offset .esi) func)
          (thread + offset .edx) arg)
          (thread + offset .edi) sym.threadFinish := by
  have hthread : thread + offset .esp = thread := BitVec.add_zero thread
  have htop : index stack (StackSize - 4) - 4 = index stack (StackSize - 5) := index_succ_sub _ _
  unfold stackAllocate
  rw [index_zero, hthread, htop]
  simp only [machineState_eq]
  rfl

variable (hstack : ∀ k < StackSize, index stack k ∈ L.stack t)
include hstack

/-- `StackAllocate` writes to the object and to the stack. -/
theorem stackAllocate_of_notMem (hsaved : a ∉ saved (L.thread t)) (ha : a ∉ L.stack t) :
    stackAllocate sym (L.thread t) stack func arg mem a = mem a := by
  have hobject : ∀ r, a ≠ L.thread t + offset r := fun r heq => hsaved (heq ▸ add_offset_mem _ r)
  have hpc : a ≠ L.thread t + pcOffset := fun heq => hsaved (heq ▸ add_pcOffset_mem _)
  have hword : ∀ k < StackSize, a ≠ index stack k := fun k hk heq => ha (heq ▸ hstack k hk)
  rw [stackAllocate_eq, Function.update_of_ne (hobject _), Function.update_of_ne (hobject _),
    Function.update_of_ne (hobject _), Function.update_of_ne (hobject _), Function.update_of_ne hpc,
    Function.update_of_ne (hword _ (by decide)), Function.update_of_ne (hword _ (by decide)),
    Function.update_of_ne (hobject _)]

/-- What `StackAllocate` leaves in the object. -/
theorem stackAllocate_offset (r : Reg) :
    stackAllocate sym (L.thread t) stack func arg mem (L.thread t + offset r) =
      if r = .esp then index stack (StackSize - 5)
      else (starting sym (L.thread t) stack func arg mem).regs r := by
  have hobject : ∀ k < StackSize, L.thread t + offset r ≠ index stack k := fun k hk heq =>
    L.notMem_saved (hstack k hk) (heq ▸ add_offset_mem _ r)
  have htop := hobject (StackSize - 5) (by decide)
  have hbottom := hobject 0 (by decide)
  rw [stackAllocate_eq]
  cases r <;>
    simp [htop, hbottom, offset_ne_pc, offset_injective.eq_iff, starting]

/-- The return address of a thread that has not run yet. -/
theorem stackAllocate_stackTop :
    stackAllocate sym (L.thread t) stack func arg mem (index stack (StackSize - 5)) = sym.threadRoot := by
  have hword := hstack (StackSize - 5) (by decide)
  have hobject : ∀ r, index stack (StackSize - 5) ≠ L.thread t + offset r := fun r heq =>
    L.notMem_saved hword (heq ▸ add_offset_mem _ r)
  have hpc : index stack (StackSize - 5) ≠ L.thread t + pcOffset := fun heq =>
    L.notMem_saved hword (heq ▸ add_pcOffset_mem _)
  have hbottom : index stack (StackSize - 5) ≠ index stack 0 := fun heq =>
    absurd ((BitVec.add_right_inj _).1 heq) (by decide)
  rw [stackAllocate_eq, Function.update_of_ne (hobject _), Function.update_of_ne (hobject _),
    Function.update_of_ne (hobject _), Function.update_of_ne (hobject _), Function.update_of_ne hpc,
    Function.update_of_ne hbottom, Function.update_self]

/-- A thread with a new stack is one that can be resumed. -/
theorem suspended_stackAllocate :
    Suspended L (stackAllocate sym (L.thread t) stack func arg mem) t
      (starting sym (L.thread t) stack func arg mem) := by
  have hesp : stackAllocate sym (L.thread t) stack func arg mem (L.thread t + offset .esp) =
      index stack (StackSize - 5) := by
    rw [stackAllocate_offset stack func arg hstack, if_pos rfl]
  constructor
  · intro r hr
    rw [stackAllocate_offset stack func arg hstack, if_neg hr]
  · rw [hesp, ← index_succ_sub, BitVec.sub_add_cancel]
    rfl
  · rw [hesp, stackAllocate_stackTop stack func arg hstack]
    rfl
  · rw [hesp]
    exact hstack _ (by decide)
  · exact hstack _ (by decide)

end

/-! ### Runs -/

/-- Every thread that has a context can be resumed with it. -/
structure Resumable (L : Layout τ sym) (w : World τ) : Prop where
  current : w.context w.current = none
  suspended : ∀ t c, w.context t = some c → Suspended L w.cpu.mem t c

theorem Resumable.ne (h : Resumable L w) (hc : w.context t = some c) : t ≠ w.current := by
  rintro rfl
  rw [h.current] at hc
  cases hc

theorem Resumable.resumes (h : Resumable L w) (hcalls : Calls L w t) : ∃ c, Resumes L w t c := by
  by_cases hne : t = w.current
  · exact ⟨leaving w.cpu, hne ▸ .self⟩
  · obtain ⟨c, hc⟩ := Option.isSome_iff_exists.1 (hcalls.suspended hne)
    exact ⟨c, .other hne (h.suspended t c hc)⟩

variable [DecidableEq τ] {w' : World τ} {e : Event τ}

theorem Resumable.step (htext : Holds text sym.switch (switchCode sym.eaxSave)) (h : Resumable L w)
    (hstep : Step text L w e w') : Resumable L w' := by
  cases hstep with
  | compute cpu hlive =>
    refine ⟨h.current, fun t c hc => ?_⟩
    exact (h.suspended t c hc).congr (fun a ha => hlive a ⟨t, c, hc, .inl ha⟩)
      (hlive _ ⟨t, c, hc, .inr rfl⟩)
  | fork t stack func arg hne hcontext hstack =>
    refine ⟨(Function.update_of_ne hne.symm _ _).trans h.current, fun u c hc => ?_⟩
    dsimp only at hc
    by_cases hu : u = t
    · subst u
      rw [Function.update_self] at hc
      cases hc
      exact suspended_stackAllocate stack func arg hstack
    · rw [Function.update_of_ne hu] at hc
      have hsuspended := h.suspended u c hc
      refine hsuspended.congr (fun a ha => ?_) ?_
      · exact stackAllocate_of_notMem stack func arg hstack (L.saved_notMem_saved hu ha)
          fun hmem => L.notMem_saved hmem ha
      · exact stackAllocate_of_notMem stack func arg hstack (L.notMem_saved hsuspended.slot)
          (L.stack_notMem_stack hu hsuspended.slot)
  | switch t cpu hcalls hrun =>
    obtain ⟨c, hresumes⟩ := h.resumes hcalls
    have hargument := hresumes.argument hcalls
    obtain ⟨s, hs, -, -, hsaved, hmem⟩ := run_switch htext hcalls hresumes
    obtain rfl : s = cpu := Option.some.inj (hs.symm.trans hrun)
    refine ⟨Function.update_self _ _ _, fun u c' hc' => ?_⟩
    dsimp only at hc'
    have hu : u ≠ t := by
      rintro rfl
      rw [Function.update_self] at hc'
      cases hc'
    -- the stack of the resumed thread is written to, and no other one
    have hstack : ∀ {a}, a ∈ L.stack u → s.mem a = w.cpu.mem a := by
      intro a ha
      refine hmem a (L.notMem_saved ha) (L.ne_eaxSave ha) ?_
      rintro rfl
      exact L.stack_notMem_stack hu ha hargument
    rw [Function.update_of_ne hu] at hc'
    by_cases hcurrent : u = w.current
    · subst u
      rw [Function.update_self] at hc'
      cases hc'
      exact suspended_leaving hcalls hsaved (hstack hcalls.returnAddress)
    · rw [Function.update_of_ne hcurrent] at hc'
      have hsuspended := h.suspended u c' hc'
      refine hsuspended.congr (fun a ha => ?_) (hstack hsuspended.slot)
      refine hmem a (L.saved_notMem_saved hcurrent ha) (L.saved_ne_eaxSave ha) ?_
      rintro rfl
      exact L.notMem_saved hargument ha
  | delete t =>
    have hsub : ∀ u c, Function.update w.context t none u = some c → w.context u = some c := by
      intro u c hc
      by_cases hu : u = t
      · subst u
        rw [Function.update_self] at hc
        cases hc
      · rwa [Function.update_of_ne hu] at hc
    refine ⟨?_, fun u c hc => h.suspended u c (hsub u c hc)⟩
    by_contra hne
    obtain ⟨c, hc⟩ := Option.ne_none_iff_exists'.1 hne
    exact h.ne (hsub _ c hc) rfl

theorem resumable_of_reachable (htext : Holds text sym.switch (switchCode sym.eaxSave))
    (h : (system text L).Reachable w) : Resumable L w := by
  refine h.invariant (fun w hinit => ?_) fun w e w' hw hstep => hw.step htext hstep
  exact ⟨hinit _, fun t c hc => by rw [hinit] at hc; cases hc⟩

omit [DecidableEq τ] in
/-- The running thread may write to its stack. -/
theorem Resumable.notMem_live (h : Resumable L w) (ha : a ∈ L.stack w.current) : a ∉ live L w := by
  rintro ⟨t, c, hc, hsaved | rfl⟩
  · exact L.notMem_saved ha hsaved
  · exact L.stack_notMem_stack (h.ne hc) (h.suspended t c hc).slot ha

/-- `t` is not resumed, and not deleted. -/
def Event.Spares (t : τ) : Event τ → Prop
  | .switch u => u ≠ t
  | .delete u => u ≠ t
  | _ => True

theorem Step.context_eq (hstep : Step text L w e w') (hspares : e.Spares t) (hcurrent : t ≠ w.current)
    (hc : w.context t = some c) : w'.context t = some c ∧ t ≠ w'.current := by
  cases hstep with
  | compute => exact ⟨hc, hcurrent⟩
  | fork u stack func arg hne hcontext =>
    have hu : t ≠ u := by
      rintro rfl
      rw [hcontext] at hc
      cases hc
    exact ⟨(Function.update_of_ne hu _ _).trans hc, hcurrent⟩
  | switch u =>
    refine ⟨?_, hspares.symm⟩
    exact (Function.update_of_ne hspares.symm _ _).trans ((Function.update_of_ne hcurrent _ _).trans hc)
  | delete u => exact ⟨(Function.update_of_ne hspares.symm _ _).trans hc, hcurrent⟩

/-- How a thread goes on does not change until it does. -/
theorem context_eq_of_run {as : List (Event τ)} (hrun : (system text L).Run w as w')
    (hspares : ∀ e ∈ as, e.Spares t) (hcurrent : t ≠ w.current) (hc : w.context t = some c) :
    w'.context t = some c := by
  induction hrun with
  | nil => exact hc
  | cons hstep _ ih =>
    obtain ⟨hfirst, hrest⟩ := List.forall_mem_cons.1 hspares
    obtain ⟨hc', hcurrent'⟩ := Step.context_eq hstep hfirst hcurrent hc
    exact ih hrest hcurrent' hc'

/-! ### Two threads -/

namespace TwoThreads

def symbols : Symbols := ⟨0, 32, 0x3000, 0x3100, 0x4000⟩

/-- The two routines, with instructions of one byte. -/
def routines : Text := fun a =>
  if a.toNat < 32 then (switchCode symbols.eaxSave)[a.toNat]?.map (·, a + 1)
  else threadRootCode[a.toNat - 32]?.map (·, a + 1)

theorem holds_switch : Holds routines symbols.switch (switchCode symbols.eaxSave) := by
  iterate 27 refine ⟨_, rfl, ?_⟩
  trivial

theorem holds_threadRoot : Holds routines symbols.threadRoot threadRootCode := by
  iterate 9 refine ⟨_, rfl, ?_⟩
  trivial

def thread : Bool → Word
  | false => 0x5000
  | true => 0x6000

/-- Where the stack begins. -/
def stackBase : Bool → Word
  | false => 0x10000
  | true => 0x20000

def stack (t : Bool) : Set Word := {a | Aligned a ∧ stackBase t ≤ a ∧ a < stackBase t + 0x4000}

theorem bounds_of_mem_saved {t : Bool} (ha : a ∈ saved (thread t)) :
    thread t ≤ a ∧ a < thread t + 0x1000 := by
  cases t <;> simp only [saved, thread, Set.mem_insert_iff, Set.mem_singleton_iff] at ha ⊢ <;>
    rcases ha with rfl | rfl | rfl | rfl | rfl | rfl | rfl | rfl | rfl <;> decide

theorem disjoint_threads (t u : Bool) (hne : t ≠ u) : Disjoint (saved (thread t)) (saved (thread u)) := by
  refine Set.disjoint_left.2 fun a ht hu => hne ?_
  have ht := bounds_of_mem_saved ht
  have hu := bounds_of_mem_saved hu
  cases t <;> cases u <;> simp only [thread] at ht hu ⊢ <;> bv_omega

theorem disjoint_stacks (t u : Bool) (hne : t ≠ u) : Disjoint (stack t) (stack u) := by
  refine Set.disjoint_left.2 fun a ht hu => hne ?_
  have ht := ht.2
  have hu := hu.2
  cases t <;> cases u <;> simp only [stackBase] at ht hu ⊢ <;> bv_omega

theorem disjoint_stack_thread (t u : Bool) : Disjoint (stack t) (saved (thread u)) := by
  refine Set.disjoint_left.2 fun a ht hu => ?_
  have ht := ht.2
  have hu := bounds_of_mem_saved hu
  cases t <;> cases u <;> simp only [stackBase, thread] at ht hu <;> bv_omega

theorem eaxSave_notMem_saved (t : Bool) : symbols.eaxSave ∉ saved (thread t) := by
  intro h
  have h := bounds_of_mem_saved h
  revert h
  cases t <;> decide

theorem eaxSave_notMem_stack (t : Bool) : symbols.eaxSave ∉ stack t := by
  rintro ⟨-, h⟩
  revert h
  cases t <;> decide

theorem aligned_thread (t : Bool) : Aligned (thread t) := by
  cases t <;> decide

def layout : Layout Bool symbols where
  thread := thread
  stack := stack
  aligned_eaxSave := rfl
  aligned_thread := aligned_thread
  aligned_stack _ _ h := h.1
  disjoint_threads := disjoint_threads
  disjoint_stacks := disjoint_stacks
  disjoint_stack_thread := disjoint_stack_thread
  eaxSave_notMem_saved := eaxSave_notMem_saved
  eaxSave_notMem_stack := eaxSave_notMem_stack

/-- Where the stack pointer is when a thread calls `SWITCH`. -/
def espOf (t : Bool) : Word := stackBase t + 0x100

theorem espOf_mem (t : Bool) : espOf t ∈ stack t ∧ espOf t + 4 ∈ stack t ∧ espOf t + 8 ∈ stack t := by
  cases t <;> refine ⟨⟨rfl, ?_⟩, ⟨rfl, ?_⟩, ⟨rfl, ?_⟩⟩ <;> decide

/-- The current thread calls `SWITCH(currentThread, t)`. -/
def calling (w : World Bool) (t : Bool) : World Bool where
  cpu.regs := Function.update (fun _ => 0) .esp (espOf w.current)
  cpu.mem := Function.update (Function.update w.cpu.mem (espOf w.current + 4) (thread w.current))
    (espOf w.current + 8) (thread t)
  cpu.eip := symbols.switch
  current := w.current
  context := w.context

variable {w : World Bool} {t : Bool}

theorem calls_calling (hcontext : t ≠ w.current → (w.context t).isSome) :
    Calls layout (calling w t) t where
  eip := rfl
  returnAddress := (espOf_mem w.current).1
  t1 := (espOf_mem w.current).2.1
  t2 := (espOf_mem w.current).2.2
  oldThread := (Function.update_of_ne (by simp [calling]) _ _).trans (Function.update_self _ _ _)
  newThread := Function.update_self _ _ _
  suspended := hcontext

theorem step_calling (h : (system routines layout).Reachable w) (t : Bool) :
    Step routines layout w .compute (calling w t) := by
  have hresumable := resumable_of_reachable holds_switch h
  refine .compute _ fun a ha => ?_
  have hne1 : a ≠ espOf w.current + 4 := by
    rintro rfl
    exact hresumable.notMem_live (espOf_mem w.current).2.1 ha
  have hne2 : a ≠ espOf w.current + 8 := by
    rintro rfl
    exact hresumable.notMem_live (espOf_mem w.current).2.2 ha
  exact (Function.update_of_ne hne2 _ _).trans (Function.update_of_ne hne1 _ _)

/-- The first thread. -/
def first : World Bool where
  cpu := ⟨⟨fun _ => 0, fun _ => 0⟩, 0⟩
  current := false
  context _ := none

/-- The second thread is forked. -/
def forked : World Bool where
  cpu := ⟨⟨fun _ => 0, stackAllocate symbols (thread true) (stackBase true) 0x3200 7 fun _ => 0⟩, 0⟩
  current := false
  context := Function.update (fun _ => none) true
    (some (starting symbols (thread true) (stackBase true) 0x3200 7 fun _ => 0))

theorem reachable_first : (system routines layout).Reachable first := .of_init fun _ => rfl

theorem stack_index (k : ℕ) (hk : k < StackSize) : index (stackBase true) k ∈ stack true := by
  unfold StackSize at hk
  refine ⟨?_, ?_, ?_⟩
  · unfold Aligned index stackBase
    rw [BitVec.toNat_add, BitVec.toNat_ofNat]
    change (0x20000 + _) % _ % 4 = 0
    omega
  · unfold index stackBase
    bv_omega
  · unfold index stackBase
    bv_omega

theorem step_fork : Step routines layout first (.fork true (stackBase true) 0x3200 7) forked :=
  .fork true (stackBase true) 0x3200 7 (by decide) rfl stack_index

theorem step_leaving : Step routines layout forked .compute (calling forked true) :=
  step_calling (reachable_first.tail step_fork) true

theorem calls_leaving : Calls layout (calling forked true) true := calls_calling fun _ => rfl

end TwoThreads

/-- `s` is behind the call of a function that is entered in `s₀`, with every register as it was. -/
structure Behind (s₀ s : State) : Prop where
  eip : s.eip = s₀.mem (s₀.regs .esp)
  esp : s.regs .esp = s₀.regs .esp + 4
  regs : ∀ r, r ≠ .esp → s.regs r = s₀.regs r

omit [DecidableEq τ] in
/-- `SWITCH` to a thread that has called `SWITCH` in `s₀`. -/
theorem run_switch_behind (htext : Holds text sym.switch (switchCode sym.eaxSave)) {s₀ : State}
    (hcalls : Calls L w t) (hc : Resumes L w t (leaving s₀)) :
    ∃ s, runFor text (switchCode sym.eaxSave).length w.cpu = some s ∧ Behind s₀ s ∧
      ∀ a ∈ L.stack t, a ≠ s₀.regs .esp + 4 → s.mem a = w.cpu.mem a := by
  have hesp : (leaving s₀).regs .esp = s₀.regs .esp + 4 := Function.update_self Reg.esp _ s₀.regs
  obtain ⟨s, hs, hregs, heip, -, hmem⟩ := run_switch htext hcalls hc
  refine ⟨s, hs, ⟨heip, ?_, ?_⟩, ?_⟩
  · rw [hregs, hesp]
  · intro r hr
    rw [hregs]
    exact Function.update_of_ne hr _ _
  · intro a ha hne
    exact hmem a (L.notMem_saved ha) (L.ne_eaxSave ha) (hesp ▸ hne)

/-- **To its caller `SWITCH` is a function that returns.**  A thread that switches to itself goes on behind
the call.  When a thread switches to another one, its stack is left alone; when it is switched to again, it
goes on behind the call.  Either way every register is as it was, and of the stack nothing is written but
the word of the argument. -/
theorem switch_returns (htext : Holds text sym.switch (switchCode sym.eaxSave))
    (hreach : (system text L).Reachable w) (hcalls : Calls L w u) :
    ∃ w₁, Step text L w (.switch u) w₁ ∧
      (u = w.current → Behind w.cpu w₁.cpu ∧
        ∀ a ∈ L.stack w.current, a ≠ w.cpu.regs .esp + 4 → w₁.cpu.mem a = w.cpu.mem a) ∧
      (u ≠ w.current → (∀ a ∈ L.stack w.current, w₁.cpu.mem a = w.cpu.mem a) ∧
        ∀ as w₂, (system text L).Run w₁ as w₂ → (∀ e ∈ as, e.Spares w.current) →
          Calls L w₂ w.current →
          ∃ s, runFor text (switchCode sym.eaxSave).length w₂.cpu = some s ∧ Behind w.cpu s ∧
            ∀ a ∈ L.stack w.current, a ≠ w.cpu.regs .esp + 4 → s.mem a = w₂.cpu.mem a) := by
  obtain ⟨c, hresumes⟩ := (resumable_of_reachable htext hreach).resumes hcalls
  obtain ⟨cpu, hrun, -, -, -, hmem⟩ := run_switch htext hcalls hresumes
  have hswitch := Step.switch u cpu hcalls hrun
  refine ⟨_, hswitch, ?_, fun hne => ⟨?_, ?_⟩⟩
  · rintro rfl
    obtain ⟨s, hs, hbehind⟩ := run_switch_behind htext hcalls .self
    obtain rfl : s = cpu := Option.some.inj (hs.symm.trans hrun)
    exact hbehind
  · intro a ha
    refine hmem a (L.notMem_saved ha) (L.ne_eaxSave ha) ?_
    rintro rfl
    exact L.stack_notMem_stack hne (hresumes.argument hcalls) ha
  · intro as w₂ hrun₂ hspares hcalls₂
    have hresumable := resumable_of_reachable htext (hrun₂.reachable (hreach.tail hswitch))
    have hcontext : w₂.context w.current = some (leaving w.cpu) := by
      refine context_eq_of_run hrun₂ hspares hne.symm ?_
      exact (Function.update_of_ne hne.symm _ _).trans (Function.update_self _ _ _)
    exact run_switch_behind htext hcalls₂
      (.other (hresumable.ne hcontext) (hresumable.suspended _ _ hcontext))

/-- The first thread switches to itself; and the second thread is forked, the first switches to it, and it
switches back. -/
theorem switch_returns_twoThreads :
    (∃ w₁, Step TwoThreads.routines TwoThreads.layout (TwoThreads.calling TwoThreads.first false)
      (.switch false) w₁ ∧ Behind (TwoThreads.calling TwoThreads.first false).cpu w₁.cpu) ∧
    ∃ w₁ w₂ s, Step TwoThreads.routines TwoThreads.layout (TwoThreads.calling TwoThreads.forked true)
        (.switch true) w₁ ∧
      (system TwoThreads.routines TwoThreads.layout).Reachable w₂ ∧ w₂.current = true ∧
      runFor TwoThreads.routines (switchCode TwoThreads.symbols.eaxSave).length w₂.cpu = some s ∧
      Behind (TwoThreads.calling TwoThreads.forked true).cpu s ∧ s.regs .esp = 0x10104 := by
  constructor
  · obtain ⟨w₁, hswitch, hself, -⟩ := switch_returns TwoThreads.holds_switch
      (TwoThreads.reachable_first.tail (TwoThreads.step_calling TwoThreads.reachable_first false))
      (TwoThreads.calls_calling fun h => absurd rfl h)
    exact ⟨w₁, hswitch, (hself rfl).1⟩
  · have hreach := (TwoThreads.reachable_first.tail TwoThreads.step_fork).tail TwoThreads.step_leaving
    obtain ⟨w₁, hswitch, -, hother⟩ := switch_returns TwoThreads.holds_switch hreach
      TwoThreads.calls_leaving
    -- the second thread runs, and calls `SWITCH` in its turn
    have hback := TwoThreads.step_calling (hreach.tail hswitch) false
    have hw₁ : w₁.current = true ∧ (w₁.context false).isSome := by
      cases hswitch
      exact ⟨rfl, rfl⟩
    obtain ⟨s, hs, hbehind, -⟩ := (hother nofun).2 _ _ (.cons hback (.nil _)) (by simp [Event.Spares])
      (TwoThreads.calls_calling fun _ => hw₁.2)
    exact ⟨w₁, _, s, hswitch, (hreach.tail hswitch).tail hback, hw₁.1, hs, hbehind, hbehind.esp⟩

/-! ### The first run of a thread -/

section

variable {s : State}

/-- `ThreadRoot` up to the first call. -/
theorem block_threadRoot {d : Data} (haligned : Aligned (d.regs .esp)) :
    ∃ d', block [.push .ebp, .move .esp .ebp, .push .edx] d = some d' ∧ Aligned (d'.regs .esp) ∧
      d'.mem (index (d'.regs .esp) 0) = d.regs .edx ∧ d'.regs .ecx = d.regs .ecx ∧
      d'.regs .esi = d.regs .esi ∧ d'.regs .edi = d.regs .edi := by
  have hfirst : Aligned (d.regs .esp - 4) := haligned.sub (by decide)
  have hsecond : Aligned (d.regs .esp - 4 - 4) := hfirst.sub (by decide)
  rw [block_push hfirst, block_move, block_push (by exact hsecond), block_nil]
  refine ⟨_, rfl, hsecond, ?_, rfl, rfl, rfl⟩
  rw [index_zero]
  exact Function.update_self _ _ _

/-- The calls that `ThreadRoot` makes: `StartupPC`, `InitialPC` with its argument, and `WhenDonePC`. -/
theorem threadRoot_makes (hroot : Holds text s.eip threadRootCode) (haligned : Aligned (s.regs .esp)) :
    Makes text 2 [⟨s.regs .ecx, []⟩, ⟨s.regs .esi, [s.regs .edx]⟩, ⟨s.regs .edi, []⟩] s := by
  obtain ⟨d, hblock, hesp, hedx, hecx, hesi, hedi⟩ := @block_threadRoot s.toData haligned
  refine Makes.of_block (l := [.push .ebp, .move .esp .ebp, .push .edx]) hroot hblock fun eip hheld => ?_
  rw [← hecx]
  refine Makes.call hheld hesp (by decide) (by decide) (by simp) fun s₁ hheld₁ hesp₁ hesi₁ hedi₁ hkept => ?_
  rw [← hesi, ← hesi₁]
  refine Makes.call hheld₁ (hesp₁ ▸ hesp) (by decide) (by simp) ?_
    fun s₂ hheld₂ hesp₂ _ hedi₂ _ => ?_
  · -- `StartupPC` has no parameter, so the argument is still on the stack
    intro i x hx
    obtain ⟨rfl, rfl⟩ : i = 0 ∧ s.regs .edx = x := by
      simpa [List.getElem?_eq_some_iff] using hx
    rw [hesp₁, hkept 0 le_rfl (by decide), ← hedx]
  · rw [← hedi, ← hedi₁, ← hedi₂]
    exact Makes.call hheld₂ (hesp₂ ▸ hesp₁ ▸ hesp) (by decide) (by decide) (by simp)
      fun _ _ _ _ _ _ => trivial

end

/-- **A thread that is forked enables interrupts, then calls its function with its argument, then
finishes**, each when the function called before has returned. -/
theorem forked_thread_calls (htext : Holds text sym.switch (switchCode sym.eaxSave))
    (hroot : Holds text sym.threadRoot threadRootCode) (hreach : (system text L).Reachable w)
    {w₁ w₂ : World τ} {as : List (Event τ)} {stack func arg : Word}
    (hfork : Step text L w (.fork t stack func arg) w₁) (hrun : (system text L).Run w₁ as w₂)
    (hspares : ∀ e ∈ as, e.Spares t) (hcalls : Calls L w₂ t) :
    ∃ s, runFor text (switchCode sym.eaxSave).length w₂.cpu = some s ∧
      Makes text 2 [⟨sym.interruptEnable, []⟩, ⟨func, [arg]⟩, ⟨sym.threadFinish, []⟩] s := by
  have hresumable := resumable_of_reachable htext (hrun.reachable (hreach.tail hfork))
  have hcontext : w₁.context t = some (starting sym (L.thread t) stack func arg w.cpu.mem) ∧
      t ≠ w₁.current := by
    cases hfork with
    | fork _ _ _ _ hne => exact ⟨Function.update_self _ _ _, hne⟩
  have hcontext₂ := context_eq_of_run hrun hspares hcontext.2 hcontext.1
  have hsuspended := hresumable.suspended _ _ hcontext₂
  obtain ⟨s, hs, hregs, heip, -⟩ :=
    run_switch htext hcalls (.other (hresumable.ne hcontext₂) hsuspended)
  have haligned : Aligned (s.regs .esp) := hregs ▸ L.aligned_stack _ _ hsuspended.argument
  have hecx : s.regs .ecx = sym.interruptEnable := congrFun hregs .ecx
  have hedx : s.regs .edx = arg := congrFun hregs .edx
  have hesi : s.regs .esi = func := congrFun hregs .esi
  have hedi : s.regs .edi = sym.threadFinish := congrFun hregs .edi
  refine ⟨s, hs, ?_⟩
  rw [← hecx, ← hedx, ← hesi, ← hedi]
  exact threadRoot_makes (heip ▸ hroot) haligned

/-- All three calls, when the functions return at once. -/
theorem forked_thread_calls_twoThreads :
    ∃ s s₁ s₁' s₂ s₂' s₃ : State,
      runFor TwoThreads.routines (switchCode TwoThreads.symbols.eaxSave).length
        (TwoThreads.calling TwoThreads.forked true).cpu = some s ∧
      (Enters TwoThreads.routines s s₁ ∧ s₁.eip = 0x3000 ∧ Returns 0 2 s₁ s₁') ∧
      (Enters TwoThreads.routines s₁' s₂ ∧ s₂.eip = 0x3200 ∧
        s₂.mem (index (s₂.regs .esp + 4) 0) = 7 ∧ Returns 1 2 s₂ s₂') ∧
      Enters TwoThreads.routines s₂' s₃ ∧ s₃.eip = 0x3100 := by
  obtain ⟨s, hs, s₁, hs₁, hbegins₁, h₁⟩ := @forked_thread_calls _ _ _ true _ _ _ TwoThreads.holds_switch
    TwoThreads.holds_threadRoot TwoThreads.reachable_first _ _ _ _ _ _ TwoThreads.step_fork
    (.cons TwoThreads.step_leaving (.nil _)) (by simp [Event.Spares]) TwoThreads.calls_leaving
  obtain ⟨s₁', hreturns₁⟩ := exists_returns 0 2 s₁
  obtain ⟨s₂, hs₂, hbegins₂, h₂⟩ := h₁ s₁' hreturns₁
  obtain ⟨s₂', hreturns₂⟩ := exists_returns 1 2 s₂
  obtain ⟨s₃, hs₃, hbegins₃, -⟩ := h₂ s₂' hreturns₂
  exact ⟨s, s₁, s₁', s₂, s₂', s₃, hs, ⟨hs₁, hbegins₁.eip, hreturns₁⟩,
    ⟨hs₂, hbegins₂.eip, hbegins₂.parameters 0 7 rfl, hreturns₂⟩, hs₃, hbegins₃.eip⟩

end Nachos.Switch
