import Nachos.Lib.BlockingQueue
import Nachos.Threads.Equiv.KernelLocks
import Nachos.Threads.SynchList

/-!
# Where a thread stands in `Append` and `Remove`

What a thread has left to do with the list `i` is a short list of statements, its `residue`, whatever
else is on its stack; and its own code is a `Script`, in which the calls for the list `i` come in the
order of `Append` and `Remove`.  The two together tell where the thread stands (`Stage`).
-/

namespace Nachos.SynchList

open Kernel
open BlockingQueue (Status)

variable {τ σ μ κ ι α ξ δ : Type} [DecidableEq ι]

/-- The statement works on the lock or the condition of the list `i`. -/
def touches (i : ι) : Instr τ σ (ι ⊕ μ) (ι ⊕ κ) ξ → Bool
  | .p (.inr (.inl j)) => j = i
  | .v (.inr (.inl j)) => j = i
  | .assign (.inl j) => j = i
  | .release (.inl j) => j = i
  | .append (.inl j) => j = i
  | .returnWait (.inl j) => j = i
  | .signal (.inl j) => j = i
  | .broadcast (.inl j) => j = i
  | _ => false

/-- What `k` does with the list `i`. -/
def residue (i : ι) (k : List (Instr τ σ (ι ⊕ μ) (ι ⊕ κ) ξ)) :
    List (Instr τ σ (ι ⊕ μ) (ι ⊕ κ) ξ) :=
  k.filter (touches i)

/-- A call that has nothing to do with the list `i`. -/
def Plain (i : ι) : Op τ σ (ι ⊕ μ) (ι ⊕ κ) (Code ι α ξ) → Prop
  | .acquire l => l ≠ .inl i
  | .release l => l ≠ .inl i
  | .wait c l => c ≠ .inl i ∧ l ≠ .inl i
  | .signal c => c ≠ .inl i
  | .broadcast c => c ≠ .inl i
  | .fork _ func => ∃ x, func = .client x
  | .own (.add j _) => j ≠ i
  | .own (.loop j _) => j ≠ i
  | _ => True

/-- The calls for the list `i` come in the order of `Append` and `Remove`. -/
inductive Script (i : ι) : List (Op τ σ (ι ⊕ μ) (ι ⊕ κ) (Code ι α ξ)) → Prop where
  | nil : Script i []
  | plain {op ops} (hop : Plain i op) (h : Script i ops) : Script i (op :: ops)
  | append {x ops} (h : Script i ops) : Script i (append i (some x) ++ ops)
  | remove {receive ops} (h : Script i ops) : Script i (remove i receive ++ ops)

/-- Where a thread with the given residue and program stands. -/
inductive Stage (i : ι) : Status → List (Instr τ σ (ι ⊕ μ) (ι ⊕ κ) (Code ι α ξ)) →
    List (Op τ σ (ι ⊕ μ) (ι ⊕ κ) (Code ι α ξ)) → Prop where
  | away {ops} (h : Script i ops) : Stage i .outside [] ops
  | enterAdd {x ops} (h : Script i ops) : Stage i .outside [.p (.inr (.inl i)), .assign (.inl i)]
      (.own (.add i (some x)) :: .signal (.inl i) :: .release (.inl i) :: ops)
  | assignAdd {x ops} (h : Script i ops) : Stage i .adding [.assign (.inl i)]
      (.own (.add i (some x)) :: .signal (.inl i) :: .release (.inl i) :: ops)
  | add {x ops} (h : Script i ops) : Stage i .adding []
      (.own (.add i (some x)) :: .signal (.inl i) :: .release (.inl i) :: ops)
  | callSignal {ops} (h : Script i ops) :
      Stage i .owing [] (.signal (.inl i) :: .release (.inl i) :: ops)
  | signal {ops} (h : Script i ops) : Stage i .owing [.signal (.inl i)] (.release (.inl i) :: ops)
  | callRelease {ops} (h : Script i ops) : Stage i .leaving [] (.release (.inl i) :: ops)
  | release {ops} (h : Script i ops) : Stage i .leaving [.release (.inl i)] ops
  | give {ops} (h : Script i ops) : Stage i .leaving [.v (.inr (.inl i))] ops
  | enterLoop {receive ops} (h : Script i ops) :
      Stage i .outside [.p (.inr (.inl i)), .assign (.inl i)] (.own (.loop i receive) :: ops)
  | assignLoop {receive ops} (h : Script i ops) :
      Stage i .owing [.assign (.inl i)] (.own (.loop i receive) :: ops)
  | loop {receive ops} (h : Script i ops) : Stage i .owing [] (.own (.loop i receive) :: ops)
  | callWait {receive ops} (h : Script i ops) :
      Stage i .waiting [] (.wait (.inl i) (.inl i) :: .own (.loop i receive) :: ops)
  | releaseWait {receive ops} (h : Script i ops) : Stage i .waiting
      [.release (.inl i), .append (.inl i), .p (.inr (.inl i)), .assign (.inl i), .returnWait (.inl i)]
      (.own (.loop i receive) :: ops)
  | giveWait {receive ops} (h : Script i ops) : Stage i .waiting
      [.v (.inr (.inl i)), .append (.inl i), .p (.inr (.inl i)), .assign (.inl i),
        .returnWait (.inl i)] (.own (.loop i receive) :: ops)
  | append {receive ops} (h : Script i ops) : Stage i .unlisted
      [.append (.inl i), .p (.inr (.inl i)), .assign (.inl i), .returnWait (.inl i)]
      (.own (.loop i receive) :: ops)
  | asleep {receive ops} (h : Script i ops) : Stage i .asleep
      [.p (.inr (.inl i)), .assign (.inl i), .returnWait (.inl i)] (.own (.loop i receive) :: ops)
  | assignBack {receive ops} (h : Script i ops) :
      Stage i .owing [.assign (.inl i), .returnWait (.inl i)] (.own (.loop i receive) :: ops)
  | returnWait {receive ops} (h : Script i ops) :
      Stage i .owing [.returnWait (.inl i)] (.own (.loop i receive) :: ops)

/-! ### Scripts -/

section

variable {i : ι} {ops ops' : List (Op τ σ (ι ⊕ μ) (ι ⊕ κ) (Code ι α ξ))}

omit [DecidableEq ι] in
theorem Script.concat (h : Script i ops) (h' : Script i ops') : Script i (ops ++ ops') := by
  induction h with
  | nil => exact h'
  | plain hop _ ih => exact .plain hop ih
  | append _ ih =>
    rw [List.append_assoc]
    exact .append ih
  | remove _ ih =>
    rw [List.append_assoc]
    exact .remove ih

omit [DecidableEq ι] in
theorem plain_kernelCall (i : ι) (op : Op τ σ μ κ ξ) :
    Plain i (kernelCall op : Op τ σ (ι ⊕ μ) (ι ⊕ κ) (Code ι α ξ)) := by
  cases op <;> simp [kernelCall, Plain]

theorem Script.expand {call : Call τ σ μ κ ι α ξ} (hcall : ∀ j, call ≠ .append j none) :
    Script i call.expand := by
  cases call with
  | kernel op => exact .plain (plain_kernelCall i op) .nil
  | append j item =>
    cases item with
    | none => exact absurd rfl (hcall j)
    | some x =>
      by_cases hj : j = i
      · subst hj
        exact .append .nil
      · exact .plain (by simpa [Plain] using hj) (.plain hj
          (.plain (by simpa [Plain] using hj) (.plain (by simpa [Plain] using hj) .nil)))
  | remove j receive =>
    by_cases hj : j = i
    · subst hj
      exact .remove .nil
    · exact .plain (by simpa [Plain] using hj) (.plain hj .nil)

theorem Script.flatMap_expand {calls : List (Call τ σ μ κ ι α ξ)}
    (hcalls : ∀ j, .append j none ∉ calls) : Script i (calls.flatMap Call.expand) := by
  induction calls with
  | nil => exact .nil
  | cons call calls ih =>
    rw [List.flatMap_cons]
    refine (Script.expand ?_).concat (ih fun j hj => hcalls j (List.mem_cons_of_mem _ hj))
    rintro j rfl
    exact hcalls j List.mem_cons_self

omit [DecidableEq ι] in
/-- A thread in its script, doing nothing with the list, is outside. -/
theorem Stage.outside_of_script {st : Status} (h : Stage i st [] ops) (hops : Script i ops) :
    st = .outside := by
  cases h with
  | away => rfl
  | add => cases hops with | plain hop => exact absurd rfl hop
  | callSignal => cases hops with | plain hop => exact absurd rfl hop
  | callRelease => cases hops with | plain hop => exact absurd rfl hop
  | loop => cases hops with | plain hop => exact absurd rfl hop
  | callWait => cases hops with | plain hop => exact absurd rfl hop.1

/-! What the next statement of the residue leads to. -/

variable {st : Status} {r : List (Instr τ σ (ι ⊕ μ) (ι ⊕ κ) (Code ι α ξ))}

theorem Stage.of_p [DecidableEq μ] (h : Stage i st (.p (.inr (.inl i)) :: r) ops) :
    inside (.inl i) r = true ∧
      ((st = .outside ∧ ∃ st', (st' = .adding ∨ st' = .owing) ∧ Stage i st' r ops) ∨
        (st = .asleep ∧ Stage i .owing r ops)) := by
  cases h with
  | enterAdd h => exact ⟨if_pos rfl, Or.inl ⟨rfl, .adding, Or.inl rfl, .assignAdd h⟩⟩
  | enterLoop h => exact ⟨if_pos rfl, Or.inl ⟨rfl, .owing, Or.inr rfl, .assignLoop h⟩⟩
  | asleep h => exact ⟨if_pos rfl, Or.inr ⟨rfl, .assignBack h⟩⟩

omit [DecidableEq ι] in
theorem Stage.of_assign (h : Stage i st (.assign (.inl i) :: r) ops) : Stage i st r ops := by
  cases h with
  | assignAdd h => exact .add h
  | assignLoop h => exact .loop h
  | assignBack h => exact .returnWait h

omit [DecidableEq ι] in
theorem Stage.of_signal (h : Stage i st (.signal (.inl i) :: r) ops) :
    st = .owing ∧ r = [] ∧ Stage i .leaving r ops := by
  cases h with
  | signal h => exact ⟨rfl, rfl, .callRelease h⟩

omit [DecidableEq ι] in
theorem Stage.of_release (h : Stage i st (.release (.inl i) :: r) ops) :
    st.holds ∧ Stage i st (.v (.inr (.inl i)) :: r) ops := by
  cases h with
  | release h => exact ⟨trivial, .give h⟩
  | releaseWait h => exact ⟨trivial, .giveWait h⟩

omit [DecidableEq ι] in
theorem Stage.of_v (h : Stage i st (.v (.inr (.inl i)) :: r) ops) :
    (st = .leaving ∧ Stage i .outside r ops) ∨ (st = .waiting ∧ Stage i .unlisted r ops) := by
  cases h with
  | give h => exact Or.inl ⟨rfl, .away h⟩
  | giveWait h => exact Or.inr ⟨rfl, .append h⟩

omit [DecidableEq ι] in
theorem Stage.of_append (h : Stage i st (.append (.inl i) :: r) ops) :
    st = .unlisted ∧ Stage i .asleep r ops := by
  cases h with
  | append h => exact ⟨rfl, .asleep h⟩

omit [DecidableEq ι] in
theorem Stage.of_returnWait (h : Stage i st (.returnWait (.inl i) :: r) ops) :
    r = [] ∧ Stage i st r ops := by
  cases h with
  | returnWait h => exact ⟨rfl, .loop h⟩

omit [DecidableEq ι] in
/-- Nobody broadcasts on `listEmpty`. -/
theorem Stage.not_broadcast {j : Instr τ σ (ι ⊕ μ) (ι ⊕ κ) (Code ι α ξ)} {c : ι ⊕ κ}
    (h : Stage i st (j :: r) ops) : j ≠ .broadcast c := by
  cases h <;> nofun

end

/-! ### Residues -/

section

variable {i : ι} {j : Instr τ σ (ι ⊕ μ) (ι ⊕ κ) ξ} {k k₀ : List (Instr τ σ (ι ⊕ μ) (ι ⊕ κ) ξ)}

theorem residue_cons_of_touches (hj : touches i j = true) : residue i (j :: k) = j :: residue i k :=
  List.filter_cons_of_pos hj

theorem residue_cons_of_not (hj : touches i j = false) : residue i (j :: k) = residue i k :=
  List.filter_cons_of_neg (by simp [hj])

theorem residue_append : residue i (k₀ ++ k) = residue i k₀ ++ residue i k :=
  List.filter_append _ _

theorem residue_eq_nil (hk : ∀ j ∈ k, touches i j = false) : residue i k = [] := by
  apply List.filter_eq_nil_iff.2
  intro j hj
  simp [hk j hj]

/-- A statement that has nothing to do with the list puts nothing that has in front. -/
theorem residue_front {due : List ξ} {timer : Bool} (hj : touches i j = false)
    (hk₀ : k₀ ∈ j.front due timer) : residue i k₀ = [] := by
  apply residue_eq_nil
  refine forall_mem_front hk₀ rfl rfl (fun _ => rfl) rfl rfl rfl rfl rfl ?_ ?_ ?_ ?_
  · rintro x rfl
    exact hj
  · rintro l rfl
    cases l <;> exact hj
  · rintro c rfl
    cases c <;> exact hj
  · rintro c rfl
    cases c <;> exact hj

theorem inside_cons_of_not [DecidableEq μ] (hj : touches i j = false) :
    inside (.inl i) (j :: k) = inside (.inl i) k := by
  have hne : ∀ l : ι ⊕ μ, (∀ j', l = .inl j' → j' ≠ i) → l ≠ .inl i := by
    rintro l hl rfl
    exact hl i rfl rfl
  cases j with
  | assign l =>
    refine if_neg (hne l ?_)
    rintro j' rfl
    simpa [touches] using hj
  | release l =>
    refine if_neg (hne l ?_)
    rintro j' rfl
    simpa [touches] using hj
  | p x =>
    cases x with
    | inl x => rfl
    | inr l =>
      refine if_neg (hne l ?_)
      rintro j' rfl
      simpa [touches] using hj
  | v x =>
    cases x with
    | inl x => rfl
    | inr l =>
      refine if_neg (hne l ?_)
      rintro j' rfl
      simpa [touches] using hj
  | _ => rfl

/-- Whether a thread is inside `Acquire` or `Release` can be read off the residue. -/
theorem inside_residue [DecidableEq μ] (k : List (Instr τ σ (ι ⊕ μ) (ι ⊕ κ) ξ)) :
    inside (.inl i) (residue i k) = inside (.inl i) k := by
  induction k with
  | nil => rfl
  | cons j k ih =>
    by_cases hj : touches i j = true
    · rw [residue_cons_of_touches hj]
      cases j with
      | p x => cases x <;> simp only [inside, ih]
      | v x => cases x <;> simp only [inside, ih]
      | _ => simp only [inside, ih]
    · rw [Bool.not_eq_true] at hj
      rw [residue_cons_of_not hj, ih, inside_cons_of_not hj]

end

end Nachos.SynchList
