import Nachos.Lib.Agenda
import Nachos.Lib.Heap
import Nachos.Lib.Transition

/-!
# Linked lists (`threads/list.cc`, `threads/list.h`)

A list is two pointers into a memory that holds the elements of all lists.  An address that is not in
use may be returned by `new`, also one that has been in use before; `delete` gives an element back.  A
pointer is an address or NULL, and following one that does not lead to an element is `none`.  Loops over
a list have fuel, for they need not end in an arbitrary memory.

`History` is what the lists are for: it keeps the items in the order of the list, and all that have been
inserted, with the number of the insertion, and removed.
-/

namespace Nachos

structure ListElement (P α : Type) where
  next : Option P
  key : ℤ
  item : α

/-- The elements in memory. -/
abbrev Elements (P α : Type) := P → Option (ListElement P α)

/-- `class List` -/
structure LinkedList (P : Type) where
  first : Option P
  last : Option P
  deriving DecidableEq

variable {P α ι : Type}

/-- The constructor of `ListElement`. -/
def ListElement.new (itemPtr : α) (sortKey : ℤ) : ListElement P α := ⟨none, sortKey, itemPtr⟩

/-- `p->next = next` -/
def Elements.setNext [DecidableEq P] (heap : Elements P α) (p next : Option P) :
    Option (Elements P α) := do
  let a ← p
  let c ← heap a
  return Function.update heap a (some { c with next })

namespace LinkedList

/-- The constructor of `List`. -/
def new : LinkedList P := ⟨none, none⟩

def isEmpty (l : LinkedList P) : Bool := l.first.isNone

section Operations

variable [DecidableEq P]

/-- `element` is the address that `new` has returned, here and in the other operations. -/
def append (heap : Elements P α) (l : LinkedList P) (element : P) (item : α) :
    Option (Elements P α × LinkedList P) := do
  let heap : Elements P α := Function.update heap element (some (.new item 0))
  if l.isEmpty then return (heap, ⟨some element, some element⟩)
  else
    let heap ← heap.setNext l.last (some element)
    return (heap, { l with last := some element })

def prepend (heap : Elements P α) (l : LinkedList P) (element : P) (item : α) :
    Option (Elements P α × LinkedList P) := do
  let heap : Elements P α := Function.update heap element (some (.new item 0))
  if l.isEmpty then return (heap, ⟨some element, some element⟩)
  else
    let heap ← heap.setNext (some element) l.first
    return (heap, { l with first := some element })

/-- The loop of `SortedInsert`, from `ptr` on: the element behind which the new one goes, or NULL when
that is the end of the list. -/
def place (heap : Elements P α) (sortKey : ℤ) : ℕ → P → Option (Option P)
  | 0, _ => none
  | fuel + 1, ptr => do
    match (← heap ptr).next with
    | none => return none
    | some next =>
      if sortKey < (← heap next).key then return some ptr else place heap sortKey fuel next

def sortedInsert (fuel : ℕ) (heap : Elements P α) (l : LinkedList P) (element : P) (item : α)
    (sortKey : ℤ) : Option (Elements P α × LinkedList P) := do
  let heap : Elements P α := Function.update heap element (some (.new item sortKey))
  match l.first with
  | none => return (heap, ⟨some element, some element⟩)
  | some first =>
    if sortKey < (← heap first).key then
      let heap ← heap.setNext (some element) l.first
      return (heap, { l with first := some element })
    else
      match ← place heap sortKey fuel first with
      | some ptr =>
        let heap ← heap.setNext (some element) (← heap ptr).next
        let heap ← heap.setNext (some ptr) (some element)
        return (heap, l)
      | none =>
        let heap ← heap.setNext l.last (some element)
        return (heap, { l with last := some element })

/-- `SortedRemove`: the item, and the key that is stored at `keyPtr`, unless the list is empty. -/
def sortedRemove (null : α) (heap : Elements P α) (l : LinkedList P) :
    Option ((α × Option ℤ) × Elements P α × LinkedList P) :=
  match l.first with
  | none => some ((null, none), heap, l)
  | some element => do
    let c ← heap element
    let l' := if l.first = l.last then new else { l with first := c.next }
    return ((c.item, some c.key), Function.update heap element none, l')

def remove (null : α) (heap : Elements P α) (l : LinkedList P) :
    Option (α × Elements P α × LinkedList P) := do
  let (thing, heap, l) ← sortedRemove null heap l
  return (thing.1, heap, l)

end Operations

end LinkedList

/-! ### Calls -/

inductive ListCall (P α : Type) where
  | append (element : P) (item : α)
  | prepend (element : P) (item : α)
  | remove
  | sortedInsert (element : P) (item : α) (sortKey : ℤ)
  | sortedRemove

/-- What a call returns, and what `*keyPtr` is then if it has been assigned. -/
inductive ListAnswer (α : Type) where
  | nothing
  | thing (item : α)
  | thingAndKey (item : α) (key : Option ℤ)
  deriving DecidableEq

namespace ListCall

/-- `new` returns an address that is not in use. -/
def Fresh (heap : Elements P α) : ListCall P α → Prop
  | .append element _ | .prepend element _ | .sortedInsert element _ _ => heap element = none
  | .remove | .sortedRemove => True

/-- One of the routines for sorted lists. -/
def Sorted : ListCall P α → Prop
  | .append _ _ | .prepend _ _ => False
  | .remove | .sortedInsert _ _ _ | .sortedRemove => True

end ListCall

def LinkedList.call [DecidableEq P] (null : α) (fuel : ℕ) (heap : Elements P α) (l : LinkedList P) :
    ListCall P α → Option (ListAnswer α × Elements P α × LinkedList P)
  | .append element item => do return (.nothing, ← append heap l element item)
  | .prepend element item => do return (.nothing, ← prepend heap l element item)
  | .remove => do
    let (thing, r) ← remove null heap l
    return (.thing thing, r)
  | .sortedInsert element item sortKey => do
    return (.nothing, ← sortedInsert fuel heap l element item sortKey)
  | .sortedRemove => do
    let ((thing, key), r) ← sortedRemove null heap l
    return (.thingAndKey thing key, r)

/-! ### What is on a list -/

/-- An item that has been inserted. -/
structure Entry (α : Type) where
  item : α
  key : ℤ
  /-- How many items have been inserted before it. -/
  number : ℕ

/-- The item and the key. -/
def Entry.data (e : Entry α) : α × ℤ := (e.item, e.key)

/-- Sorted by the key, and then by the insertion. -/
def Entry.Before (e e' : Entry α) : Prop := e.key < e'.key ∨ e.key = e'.key ∧ e.number < e'.number

structure History (α : Type) where
  inserted : List (Entry α)
  removed : List (Entry α)
  /-- What is on the list, in this order. -/
  contents : List (Entry α)

namespace History

def empty : History α := ⟨[], [], []⟩

/-- An item is inserted, at a place that depends on what is on the list. -/
def insert (h : History α) (place : Entry α → List (Entry α) → List (Entry α)) (item : α) (key : ℤ) :
    History α :=
  let e : Entry α := ⟨item, key, h.inserted.length⟩
  { h with inserted := h.inserted ++ [e], contents := place e h.contents }

/-- The first item is removed. -/
def remove (h : History α) : History α :=
  { h with removed := h.removed ++ h.contents.head?.toList, contents := h.contents.tail }

/-- What a call returns and does. -/
def call (null : α) (h : History α) : ListCall P α → ListAnswer α × History α
  | .append _ item => (.nothing, h.insert (fun e l => l ++ [e]) item 0)
  | .prepend _ item => (.nothing, h.insert (fun e l => e :: l) item 0)
  | .remove => (.thing (h.contents.head?.elim null Entry.item), h.remove)
  | .sortedInsert _ item sortKey => (.nothing, h.insert (Agenda.insertEntry Entry.key) item sortKey)
  | .sortedRemove =>
    (.thingAndKey (h.contents.head?.elim null Entry.item) (h.contents.head?.map Entry.key), h.remove)

end History

/-! ### Lists in one memory -/

/-- Any number of lists, with their histories. -/
structure Lists (ι P α : Type) where
  heap : Elements P α
  list : ι → LinkedList P
  history : ι → History α

namespace Lists

/-- Calls of the lists, in any order.  Other elements may be in memory from the beginning. -/
def system [DecidableEq ι] [DecidableEq P] (null : α) :
    Transition.System (Lists ι P α) (ι × ListCall P α) where
  init s := ∀ i, s.list i = .new ∧ s.history i = .empty
  step s a s' := a.2.Fresh s.heap ∧ ∃ fuel answer heap l,
    (s.list a.1).call null fuel s.heap a.2 = some (answer, heap, l) ∧
    s' = { heap
           list := Function.update s.list a.1 l
           history := Function.update s.history a.1 ((s.history a.1).call null a.2).2 }

/-- The list `i` is used with the routines for sorted lists only. -/
def SortedOnly (i : ι) (_ : Lists ι P α) (a : ι × ListCall P α) : Prop := a.1 = i → a.2.Sorted

/-- Following `next` from `first` visits the entries, each once, and ends at `last`. -/
def Visits (heap : Elements P α) (l : LinkedList P) (entries : List (Entry α)) : Prop :=
  ∃ nodes : List (P × ListElement P α),
    Heap.Segment ListElement.next heap l.first nodes none ∧
    (Heap.addrs nodes).Nodup ∧
    l.last = nodes.getLast?.map Prod.fst ∧
    nodes.map (fun x => (x.2.item, x.2.key)) = entries.map Entry.data

/-- The list `i` holds what has been inserted and not removed, and every call returns what the history
says. -/
structure Represented [DecidableEq P] (null : α) (s : Lists ι P α) (i : ι) : Prop where
  visits : Visits s.heap (s.list i) (s.history i).contents
  perm : ((s.history i).removed ++ (s.history i).contents).Perm (s.history i).inserted
  numbers : (s.history i).inserted.map Entry.number = List.range (s.history i).inserted.length
  returns : ∀ c : ListCall P α, c.Fresh s.heap → ∃ n, ∀ fuel ≥ n, ∃ r,
    (s.list i).call null fuel s.heap c = some (((s.history i).call null c).1, r)

/-- The list `i` is sorted by the keys, with equal keys in the order of insertion, and `SortedRemove`
returns the earliest entry among those with the least key, and that key. -/
structure Stable [DecidableEq P] (null : α) (s : Lists ι P α) (i : ι) : Prop where
  sorted : (s.history i).contents.Pairwise Entry.Before
  least : ∀ e ∈ (s.history i).contents, (∀ e' ∈ (s.history i).contents, e.key ≤ e'.key) →
    (∀ e' ∈ (s.history i).contents, e'.key = e.key → e.number ≤ e'.number) →
      ∃ r, (s.list i).sortedRemove null s.heap = some ((e.item, some e.key), r)

end Lists

end Nachos
