import Nachos.Threads.Kernel

/-!
# Synchronized lists (`threads/synchlist.cc`)

Threads use any number of synchronized lists, named by `ι`.  The list `i` has the lock `Sum.inl i` and
the condition `listEmpty` is `Sum.inl i` as well; `Sum.inr` names the locks and conditions that the
threads use besides.  Items are pointers, `none` for NULL.

`Append` and `Remove` are calls into the kernel with a piece of code in between that works on the
list.  `Remove` hands the item to the code after the call.
-/

namespace Nachos.SynchList

open Kernel

/-- The code of the threads: what `Append` and `Remove` do to the list, and the code of the threads
that call them. -/
inductive Code (ι α ξ : Type) where
  /-- `list->Append(item)` -/
  | add (i : ι) (item : Option α)
  /-- The loop of `Remove`, and what follows up to `Release`. -/
  | loop (i : ι) (receive : α → ξ)
  | client (x : ξ)

/-- The lists, with the items that have been appended to each and removed from it so far. -/
structure Data (ι α δ : Type) where
  list : ι → List (Option α)
  appended : ι → List (Option α)
  removed : ι → List (Option α)
  client : δ

/-- Empty lists. -/
def Data.new {ι α δ : Type} (d : δ) : Data ι α δ := ⟨fun _ => [], fun _ => [], fun _ => [], d⟩

variable {τ σ μ κ ι α ξ δ : Type}

/-- The calls of a thread's own code. -/
inductive Call (τ σ μ κ ι α ξ : Type) where
  | kernel (op : Op τ σ μ κ ξ)
  | append (i : ι) (item : Option α)
  | remove (i : ι) (receive : α → ξ)

/-- `SynchList::Append` -/
def append (i : ι) (item : Option α) : List (Op τ σ (ι ⊕ μ) (ι ⊕ κ) (Code ι α ξ)) :=
  [.acquire (.inl i), .own (.add i item), .signal (.inl i), .release (.inl i)]

/-- `SynchList::Remove` -/
def remove (i : ι) (receive : α → ξ) : List (Op τ σ (ι ⊕ μ) (ι ⊕ κ) (Code ι α ξ)) :=
  [.acquire (.inl i), .own (.loop i receive)]

/-- A call into the kernel made by the threads' own code. -/
def kernelCall : Op τ σ μ κ ξ → Op τ σ (ι ⊕ μ) (ι ⊕ κ) (Code ι α ξ)
  | .p s => .p s
  | .v s => .v s
  | .acquire l => .acquire (.inr l)
  | .release l => .release (.inr l)
  | .wait c l => .wait (.inr c) (.inr l)
  | .signal c => .signal (.inr c)
  | .broadcast c => .broadcast (.inr c)
  | .yield => .yield
  | .create t => .create t
  | .fork t func => .fork t (.client func)
  | .finish => .finish
  | .oneTick => .oneTick
  | .own x => .own (.client x)

def Call.expand : Call τ σ μ κ ι α ξ → List (Op τ σ (ι ⊕ μ) (ι ⊕ κ) (Code ι α ξ))
  | .kernel op => [kernelCall op]
  | .append i item => SynchList.append i item
  | .remove i receive => SynchList.remove i receive

section

variable [DecidableEq ι]

/-- `list->Append(item)` -/
def Data.add (d : Data ι α δ) (i : ι) (item : Option α) : Data ι α δ :=
  { d with list := Function.update d.list i (d.list i ++ [item]) }

/-- `list->Remove()`, when `rest` comes after the item. -/
def Data.remove (d : Data ι α δ) (i : ι) (rest : List (Option α)) : Data ι α δ :=
  { d with list := Function.update d.list i rest }

/-- The history of the list `i` goes on with an `Append`, -/
def Data.logAppend (d : Data ι α δ) (i : ι) (item : Option α) : Data ι α δ :=
  { d with appended := Function.update d.appended i (d.appended i ++ [item]) }

/-- and with a `Remove`. -/
def Data.logRemove (d : Data ι α δ) (i : ι) (item : Option α) : Data ι α δ :=
  { d with removed := Function.update d.removed i (d.removed i ++ [item]) }

/-- The pieces of `Append` and `Remove` outside the kernel, with a record in the history; `none` is the
failure of `ASSERT(item != NULL)`. -/
def exec (d : Data ι α δ) :
    Code ι α ξ → Option (Data ι α δ × List (Op τ σ (ι ⊕ μ) (ι ⊕ κ) (Code ι α ξ)))
  | .add i item => some ((d.add i item).logAppend i item, [])
  | .loop i receive =>
    match d.list i with
    | [] => some (d, [.wait (.inl i) (.inl i), .own (.loop i receive)])
    | some x :: rest =>
      some ((d.remove i rest).logRemove i (some x), [.release (.inl i), .own (.client (receive x))])
    | none :: _ => none
  | .client _ => none

end

/-- The code of the threads that use the lists, and of the interrupt handlers. -/
structure Client (τ σ μ κ ι α ξ δ : Type) where
  exec : τ → ξ → δ → δ → List (Call τ σ μ κ ι α ξ) → Prop
  handle : ξ → δ → δ → List σ → Prop

/-- No thread appends NULL. -/
def Client.NonNull (C : Client τ σ μ κ ι α ξ δ) : Prop :=
  ∀ t x d d' calls i, C.exec t x d d' calls → .append i none ∉ calls

variable [DecidableEq ι]

/-- The threads' code as a program for the kernel. -/
def program (C : Client τ σ μ κ ι α ξ δ) :
    Program τ σ (ι ⊕ μ) (ι ⊕ κ) (Code ι α ξ) (Data ι α δ) where
  exec t x d d' ops :=
    match x with
    | .client y => ∃ d₀ calls, C.exec t y d.client d₀ calls ∧ d' = { d with client := d₀ } ∧
        ops = calls.flatMap Call.expand
    | x => exec d x = some (d', ops)
  handle x d d' vs :=
    match x with
    | .client y => ∃ d₀, C.handle y d.client d₀ vs ∧ d' = { d with client := d₀ }
    | _ => False

end Nachos.SynchList
