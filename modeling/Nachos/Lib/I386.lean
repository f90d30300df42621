import Mathlib.Data.Nat.Notation
import Mathlib.Logic.Function.Basic

/-!
# A fragment of the i386

Eight registers, a memory of 32-bit words, and the instructions that assembly routines use to save and
load registers, to push and pop, to call and to return.  Words are at addresses that are multiples of
four, and an access to any other address is not part of the fragment.

The text of a program says which instruction is at an address and where the next one begins, so that
nothing depends on the encoding.  `Holds` places a list of instructions in the text.  A list without
jumps is a function of registers and memory (`block`), and running the text does what that function says
(`reaches_block`).  A routine that calls functions of which only the calling convention is known is
described by the calls that it makes (`Makes`).
-/

namespace I386

abbrev Word := BitVec 32

inductive Reg where
  | eax | ebx | ecx | edx | esi | edi | ebp | esp
  deriving DecidableEq

inductive Instr where
  /-- `movl %src,%dst` -/
  | move (src dst : Reg)
  /-- `movl disp(%base),%dst` -/
  | load (disp : Word) (base dst : Reg)
  /-- `movl %src,disp(%base)` -/
  | store (src : Reg) (disp : Word) (base : Reg)
  /-- `movl name,%dst`, for the name of the word at `a` -/
  | loadName (a : Word) (dst : Reg)
  /-- `movl %src,name` -/
  | storeName (src : Reg) (a : Word)
  /-- `pushl %r` -/
  | push (r : Reg)
  /-- `popl %r` -/
  | pop (r : Reg)
  /-- `call *%r` -/
  | call (r : Reg)
  | ret

def Aligned (a : Word) : Prop := a.toNat % 4 = 0

instance decidableAligned (a : Word) : Decidable (Aligned a) := inferInstanceAs (Decidable (_ = _))

theorem Aligned.add {a b : Word} (ha : Aligned a) (hb : Aligned b) : Aligned (a + b) := by
  unfold Aligned at ha hb ⊢
  rw [BitVec.toNat_add]
  omega

theorem Aligned.sub {a b : Word} (ha : Aligned a) (hb : Aligned b) : Aligned (a - b) := by
  unfold Aligned at ha hb ⊢
  rw [BitVec.toNat_sub]
  have hlt := b.isLt
  omega

/-- The address of word `i` of an array. -/
def index (array : Word) (i : ℕ) : Word := array + BitVec.ofNat 32 (4 * i)

theorem index_zero (array : Word) : index array 0 = array := BitVec.add_zero array

theorem index_succ_sub (array : Word) (i : ℕ) : index array (i + 1) - 4 = index array i := by
  unfold index
  bv_omega

/-! ### Registers and memory -/

structure Data where
  regs : Reg → Word
  mem : Word → Word

namespace Data

def read (d : Data) (a : Word) : Option Word := if Aligned a then some (d.mem a) else none

def put (d : Data) (a v : Word) : Data := { d with mem := Function.update d.mem a v }

def write (d : Data) (a v : Word) : Option Data := if Aligned a then some (d.put a v) else none

def set (d : Data) (r : Reg) (v : Word) : Data := { d with regs := Function.update d.regs r v }

def push (d : Data) (v : Word) : Option Data :=
  (d.set .esp (d.regs .esp - 4)).write (d.regs .esp - 4) v

variable (d : Data) {a : Word}

@[simp] theorem regs_put (a v : Word) : (d.put a v).regs = d.regs := rfl

@[simp] theorem mem_put (a v : Word) : (d.put a v).mem = Function.update d.mem a v := rfl

@[simp] theorem regs_set (r : Reg) (v : Word) : (d.set r v).regs = Function.update d.regs r v := rfl

theorem mem_set (r : Reg) (v : Word) : (d.set r v).mem = d.mem := rfl

theorem read_of_aligned (h : Aligned a) : d.read a = some (d.mem a) := if_pos h

theorem write_of_aligned (h : Aligned a) (v : Word) : d.write a v = some (d.put a v) := if_pos h

end Data

/-- An instruction that is followed by the next one; `none` for a call, a return and an access to an
address that is not aligned. -/
def Instr.exec : Instr → Data → Option Data
  | .move src dst, d => some (d.set dst (d.regs src))
  | .load disp base dst, d => (d.read (d.regs base + disp)).map (d.set dst)
  | .store src disp base, d => d.write (d.regs base + disp) (d.regs src)
  | .loadName a dst, d => (d.read a).map (d.set dst)
  | .storeName src a, d => d.write a (d.regs src)
  | .push r, d => d.push (d.regs r)
  | .pop r, d => (d.read (d.regs .esp)).map ((d.set .esp (d.regs .esp + 4)).set r)
  | .call _, _ => none
  | .ret, _ => none

/-- Instructions one after the other. -/
def block (l : List Instr) (d : Data) : Option Data := l.foldlM (fun d i => i.exec d) d

theorem block_nil (d : Data) : block [] d = some d := rfl

theorem block_cons (i : Instr) (l : List Instr) (d : Data) :
    block (i :: l) d = (i.exec d).bind (block l) := rfl

section

variable {l : List Instr} {d : Data}

theorem block_move (src dst : Reg) : block (.move src dst :: l) d = block l (d.set dst (d.regs src)) := rfl

theorem block_load {disp : Word} {base : Reg} (h : Aligned (d.regs base + disp)) (dst : Reg) :
    block (.load disp base dst :: l) d = block l (d.set dst (d.mem (d.regs base + disp))) := by
  rw [block_cons, Instr.exec, d.read_of_aligned h]
  rfl

theorem block_store {disp : Word} {base : Reg} (h : Aligned (d.regs base + disp)) (src : Reg) :
    block (.store src disp base :: l) d = block l (d.put (d.regs base + disp) (d.regs src)) := by
  rw [block_cons, Instr.exec, d.write_of_aligned h]
  rfl

theorem block_loadName {a : Word} (h : Aligned a) (dst : Reg) :
    block (.loadName a dst :: l) d = block l (d.set dst (d.mem a)) := by
  rw [block_cons, Instr.exec, d.read_of_aligned h]
  rfl

theorem block_storeName {a : Word} (h : Aligned a) (src : Reg) :
    block (.storeName src a :: l) d = block l (d.put a (d.regs src)) := by
  rw [block_cons, Instr.exec, d.write_of_aligned h]
  rfl

theorem block_push {r : Reg} (h : Aligned (d.regs .esp - 4)) :
    block (.push r :: l) d =
      block l ((d.set .esp (d.regs .esp - 4)).put (d.regs .esp - 4) (d.regs r)) := by
  rw [block_cons, Instr.exec, Data.push, Data.write_of_aligned _ h]
  rfl

end

theorem block_append {l l' : List Instr} {d d' : Data} (h : block l d = some d') :
    block (l ++ l') d = block l' d' := by
  have hbind : block (l ++ l') d = (block l d).bind (block l') := List.foldlM_append
  rw [hbind, h]
  rfl

/-- Saving registers at offsets from another one. -/
theorem block_stores {rs : List Reg} {offset : Reg → Word} {base : Reg} {d : Data}
    (haligned : ∀ r ∈ rs, Aligned (d.regs base + offset r)) (hinj : Function.Injective offset)
    (hnodup : rs.Nodup) :
    ∃ d', block (rs.map fun r => .store r (offset r) base) d = some d' ∧ d'.regs = d.regs ∧
      (∀ r ∈ rs, d'.mem (d.regs base + offset r) = d.regs r) ∧
      ∀ a, (∀ r ∈ rs, a ≠ d.regs base + offset r) → d'.mem a = d.mem a := by
  induction rs generalizing d with
  | nil => exact ⟨d, rfl, rfl, by simp, fun _ _ => rfl⟩
  | cons r rs ih =>
    obtain ⟨hr, hrs⟩ := List.forall_mem_cons.1 haligned
    obtain ⟨hnot, hnodup⟩ := List.nodup_cons.1 hnodup
    obtain ⟨d', hblock, hregs, hsaved, hother⟩ := @ih (d.put (d.regs base + offset r) (d.regs r)) hrs hnodup
    refine ⟨d', ?_, hregs, ?_, ?_⟩
    · rw [List.map_cons, block_store hr]
      exact hblock
    · rw [List.forall_mem_cons]
      refine ⟨?_, hsaved⟩
      -- the later registers are saved elsewhere
      have hlater : ∀ r' ∈ rs, d.regs base + offset r ≠ d.regs base + offset r' := by
        intro r' hr' heq
        rw [hinj (BitVec.add_right_inj _ |>.1 heq)] at hnot
        exact hnot hr'
      rw [hother _ hlater]
      exact Function.update_self _ _ _
    · intro a ha
      obtain ⟨har, hars⟩ := List.forall_mem_cons.1 ha
      rw [hother a hars]
      exact Function.update_of_ne har _ _

/-- Loading registers from offsets of another one. -/
theorem block_loads {rs : List Reg} {offset : Reg → Word} {base : Reg} {d : Data}
    (haligned : ∀ r ∈ rs, Aligned (d.regs base + offset r)) (hbase : base ∉ rs) :
    ∃ d', block (rs.map fun r => .load (offset r) base r) d = some d' ∧ d'.mem = d.mem ∧
      (∀ r ∈ rs, d'.regs r = d.mem (d.regs base + offset r)) ∧ ∀ r, r ∉ rs → d'.regs r = d.regs r := by
  induction rs generalizing d with
  | nil => exact ⟨d, rfl, rfl, by simp, fun _ _ => rfl⟩
  | cons r rs ih =>
    obtain ⟨hr, hrs⟩ := List.forall_mem_cons.1 haligned
    rw [List.mem_cons, not_or] at hbase
    have hkeep : (d.set r (d.mem (d.regs base + offset r))).regs base = d.regs base :=
      Function.update_of_ne hbase.1 _ _
    obtain ⟨d', hblock, hmem, hloaded, hother⟩ :=
      @ih (d.set r (d.mem (d.regs base + offset r))) (by rwa [hkeep]) hbase.2
    rw [hkeep] at hloaded
    refine ⟨d', ?_, hmem, ?_, ?_⟩
    · rw [List.map_cons, block_load hr]
      exact hblock
    · rw [List.forall_mem_cons]
      refine ⟨?_, hloaded⟩
      by_cases hmem : r ∈ rs
      · exact hloaded r hmem
      · rw [hother r hmem]
        exact Function.update_self _ _ _
    · intro r' hr'
      rw [List.mem_cons, not_or] at hr'
      rw [hother r' hr'.2]
      exact Function.update_of_ne hr'.1 _ _

/-! ### Programs -/

/-- The instruction at an address, and the address of the next one. -/
abbrev Text := Word → Option (Instr × Word)

structure State extends Data where
  eip : Word

/-- One instruction. -/
def step (text : Text) (s : State) : Option State :=
  match text s.eip with
  | none => none
  | some (.call r, next) => (s.push next).map fun d => ⟨d, s.regs r⟩
  | some (.ret, _) => (s.read (s.regs .esp)).map fun a => ⟨s.set .esp (s.regs .esp + 4), a⟩
  | some (i, next) => (i.exec s.toData).map fun d => ⟨d, next⟩

/-- `n` instructions. -/
def runFor (text : Text) : ℕ → State → Option State
  | 0, s => some s
  | n + 1, s => (step text s).bind (runFor text n)

/-- The instructions `l` are in the text from the address `a` on. -/
def Holds (text : Text) : Word → List Instr → Prop
  | _, [] => True
  | a, i :: l => ∃ next, text a = some (i, next) ∧ Holds text next l

variable {text : Text} {s s' : State} {l rest : List Instr}

theorem runFor_add {m n : ℕ} (h : runFor text m s = some s') :
    runFor text (m + n) s = runFor text n s' := by
  induction m generalizing s with
  | zero =>
    cases h
    rw [Nat.zero_add]
  | succ m ih =>
    obtain ⟨s₁, hstep, hrun⟩ := Option.bind_eq_some_iff.1 h
    rw [Nat.succ_add, runFor, hstep]
    exact ih hrun

theorem step_exec {i : Instr} {next : Word} {d : Data} (htext : text s.eip = some (i, next))
    (hexec : i.exec s.toData = some d) : step text s = some ⟨d, next⟩ := by
  unfold step
  rw [htext]
  cases i with
  | call r => cases hexec
  | ret => cases hexec
  | _ =>
    dsimp only
    rw [hexec]
    rfl

theorem step_ret {next : Word} (htext : text s.eip = some (.ret, next)) (h : Aligned (s.regs .esp)) :
    step text s = some ⟨s.set .esp (s.regs .esp + 4), s.mem (s.regs .esp)⟩ := by
  unfold step
  rw [htext]
  dsimp only
  rw [s.read_of_aligned h]
  rfl

/-- A function as it is entered: the stack pointer is at the return address. -/
def entered (s : State) (r : Reg) (next : Word) : State :=
  ⟨(s.set .esp (s.regs .esp - 4)).put (s.regs .esp - 4) next, s.regs r⟩

section

variable {r : Reg} {next : Word}

theorem step_call (htext : text s.eip = some (.call r, next)) (h : Aligned (s.regs .esp)) :
    step text s = some (entered s r next) := by
  unfold step
  rw [htext]
  dsimp only
  rw [Data.push, Data.write_of_aligned _ (h.sub (by decide))]
  rfl

theorem esp_entered : (entered s r next).regs .esp + 4 = s.regs .esp := BitVec.sub_add_cancel _ _

theorem returnAddress_entered : (entered s r next).mem ((entered s r next).regs .esp) = next :=
  Function.update_self _ _ _

/-- Calling a function does not write to the words on the stack. -/
theorem mem_entered {i : ℕ} (hi : i < 0x20000000) :
    (entered s r next).mem (index (s.regs .esp) i) = s.mem (index (s.regs .esp) i) := by
  refine Function.update_of_ne ?_ _ _
  unfold index
  bv_omega

end

/-- A list without jumps does what `block` says, and control comes to the instructions after it. -/
theorem reaches_block {d : Data} (htext : Holds text s.eip (l ++ rest))
    (hblock : block l s.toData = some d) :
    ∃ eip, Holds text eip rest ∧ runFor text l.length s = some ⟨d, eip⟩ := by
  induction l generalizing s with
  | nil =>
    cases hblock
    exact ⟨s.eip, htext, rfl⟩
  | cons i l ih =>
    obtain ⟨next, hi, hl⟩ := htext
    rw [block_cons] at hblock
    obtain ⟨d₁, hexec, hrest⟩ := Option.bind_eq_some_iff.1 hblock
    obtain ⟨eip, hheld, hrun⟩ := @ih ⟨d₁, next⟩ hl hrest
    refine ⟨eip, hheld, ?_⟩
    rw [List.length_cons, runFor, step_exec hi hexec]
    exact hrun

/-! ### Calls made by a routine -/

/-- What the caller of a function finds when it returns, by the convention for C: the stack as it was, with
`frame` words of the caller's own below the function's `arity` parameters, and the registers that a
function saves. -/
structure Returns (arity frame : ℕ) (s s' : State) : Prop where
  eip : s'.eip = s.mem (s.regs .esp)
  esp : s'.regs .esp = s.regs .esp + 4
  ebx : s'.regs .ebx = s.regs .ebx
  esi : s'.regs .esi = s.regs .esi
  edi : s'.regs .edi = s.regs .edi
  ebp : s'.regs .ebp = s.regs .ebp
  frame : ∀ i, arity ≤ i → i < frame → s'.mem (index (s.regs .esp + 4) i) = s.mem (index (s.regs .esp + 4) i)

/-- A function that is called, and its parameters. -/
structure Call where
  function : Word
  parameters : List Word

/-- The function has been entered, and its parameters are above the return address. -/
structure Call.Begins (c : Call) (s : State) : Prop where
  eip : s.eip = c.function
  parameters : ∀ i x, c.parameters[i]? = some x → s.mem (index (s.regs .esp + 4) i) = x

/-- The instructions of a routine up to the next call, and the call. -/
inductive Enters (text : Text) : State → State → Prop where
  | step {s s' s'' : State} (hnot : ∀ r next, text s.eip ≠ some (.call r, next))
      (hstep : step text s = some s') (h : Enters text s' s'') : Enters text s s''
  | call {s s' : State} {r : Reg} {next : Word} (htext : text s.eip = some (.call r, next))
      (hstep : step text s = some s') : Enters text s s'

/-- A routine makes these calls: the first one, and the others when that has returned. -/
def Makes (text : Text) (frame : ℕ) : List Call → State → Prop
  | [], _ => True
  | c :: calls, s => ∃ s₁, Enters text s s₁ ∧ c.Begins s₁ ∧
      ∀ s₂, Returns c.parameters.length frame s₁ s₂ → Makes text frame calls s₂

theorem not_call {i : Instr} {next : Word} {d : Data} (htext : text s.eip = some (i, next))
    (hexec : i.exec s.toData = some d) (r : Reg) (next' : Word) : text s.eip ≠ some (.call r, next') := by
  rw [htext]
  rintro ⟨⟩
  cases hexec

theorem Enters.of_block {d : Data} (htext : Holds text s.eip (l ++ rest))
    (hblock : block l s.toData = some d) :
    ∃ eip, Holds text eip rest ∧ ∀ s', Enters text ⟨d, eip⟩ s' → Enters text s s' := by
  induction l generalizing s with
  | nil =>
    cases hblock
    exact ⟨s.eip, htext, fun _ h => h⟩
  | cons i l ih =>
    obtain ⟨next, hi, hl⟩ := htext
    rw [block_cons] at hblock
    obtain ⟨d₁, hexec, hrest⟩ := Option.bind_eq_some_iff.1 hblock
    obtain ⟨eip, hheld, h⟩ := @ih ⟨d₁, next⟩ hl hrest
    exact ⟨eip, hheld, fun s' hd => .step (not_call hi hexec) (step_exec hi hexec) (h s' hd)⟩

variable {frame : ℕ} {c : Call} {calls : List Call}

/-- The instructions before a call. -/
theorem Makes.of_block {d : Data} (htext : Holds text s.eip (l ++ rest))
    (hblock : block l s.toData = some d)
    (h : ∀ eip, Holds text eip rest → Makes text frame (c :: calls) ⟨d, eip⟩) :
    Makes text frame (c :: calls) s := by
  obtain ⟨eip, hheld, henters⟩ := Enters.of_block htext hblock
  obtain ⟨s₁, hs₁, hbegins, hreturns⟩ := h eip hheld
  exact ⟨s₁, henters s₁ hs₁, hbegins, hreturns⟩

/-- A call of the function whose address is in a register, with its parameters on the stack. -/
theorem Makes.call {r : Reg} (htext : Holds text s.eip (.call r :: rest))
    (haligned : Aligned (s.regs .esp)) {parameters : List Word} (hsmall : frame < 0x20000000)
    (hlength : parameters.length ≤ frame)
    (hparameters : ∀ i x, parameters[i]? = some x → s.mem (index (s.regs .esp) i) = x)
    (h : ∀ s₁ : State, Holds text s₁.eip rest → s₁.regs .esp = s.regs .esp →
      s₁.regs .esi = s.regs .esi → s₁.regs .edi = s.regs .edi →
      (∀ i, parameters.length ≤ i → i < frame →
        s₁.mem (index (s.regs .esp) i) = s.mem (index (s.regs .esp) i)) →
      Makes text frame calls s₁) :
    Makes text frame (⟨s.regs r, parameters⟩ :: calls) s := by
  obtain ⟨next, hcall, hrest⟩ := htext
  refine ⟨entered s r next, .call hcall (step_call hcall haligned), ⟨rfl, fun i x hx => ?_⟩,
    fun s₁ hreturns => ?_⟩
  · have hi : i < parameters.length := (List.getElem?_eq_some_iff.1 hx).1
    rw [esp_entered, mem_entered (by omega)]
    exact hparameters i x hx
  · refine h s₁ ?_ ?_ hreturns.esi hreturns.edi fun i hle hlt => ?_
    · rw [hreturns.eip, returnAddress_entered]
      exact hrest
    · rw [hreturns.esp, esp_entered]
    · have hword := hreturns.frame i hle hlt
      rwa [esp_entered, mem_entered (by omega)] at hword

/-- A function that returns at once. -/
theorem exists_returns (arity frame : ℕ) (s : State) : ∃ s', Returns arity frame s s' :=
  ⟨⟨s.set .esp (s.regs .esp + 4), s.mem (s.regs .esp)⟩, rfl, rfl, rfl, rfl, rfl, rfl, fun _ _ _ => rfl⟩

end I386
