import Mathlib.Data.List.Nodup
import Mathlib.Logic.Function.Basic

/-!
# Linked cells

A heap holds cells of type `C` at addresses of type `P`; `none` is an address that is not in use.  Cells
are linked by `next`, where `none` is the null pointer.  `Segment next heap p l q` says that the links
lead from `p` through the nodes `l`, addresses with their cells, to `q`.

A heap is changed at one address at a time.  A segment does not depend on addresses that are not its own
(`Segment.congr`, `Segment.update`), and it can be taken apart at any node (`segment_append`): so a change
at one node leaves the nodes in front of it and behind it as they are.
-/

namespace Heap

variable {P C : Type*}

/-- The addresses of the nodes. -/
def addrs (l : List (P × C)) : List P := l.map Prod.fst

@[simp] theorem addrs_cons (x : P × C) (l : List (P × C)) : addrs (x :: l) = x.1 :: addrs l := rfl

@[simp] theorem addrs_append (l l' : List (P × C)) : addrs (l ++ l') = addrs l ++ addrs l' :=
  List.map_append

variable (next : C → Option P)

/-- The links lead from `p` through the nodes to `q`. -/
def Segment (heap : P → Option C) : Option P → List (P × C) → Option P → Prop
  | p, [], q => p = q
  | p, x :: l, q => p = some x.1 ∧ heap x.1 = some x.2 ∧ Segment heap (next x.2) l q

variable {next} {heap heap' : P → Option C} {p q : Option P} {l l' : List (P × C)} {x : P × C}

/-- Both parts, and the pointer where they meet. -/
theorem segment_append : Segment next heap p (l ++ l') q ↔
    ∃ r, Segment next heap p l r ∧ Segment next heap r l' q := by
  induction l generalizing p with
  | nil =>
    constructor
    · intro h
      exact ⟨p, rfl, h⟩
    · rintro ⟨r, rfl, h⟩
      exact h
  | cons x l ih =>
    constructor
    · rintro ⟨hp, hx, h⟩
      obtain ⟨r, hl, hl'⟩ := ih.mp h
      exact ⟨r, ⟨hp, hx, hl⟩, hl'⟩
    · rintro ⟨r, ⟨hp, hx, hl⟩, hl'⟩
      exact ⟨hp, hx, ih.mpr ⟨r, hl, hl'⟩⟩

theorem segment_concat : Segment next heap p (l ++ [x]) q ↔
    Segment next heap p l (some x.1) ∧ heap x.1 = some x.2 ∧ next x.2 = q := by
  rw [segment_append]
  constructor
  · rintro ⟨r, hl, rfl, hx, hq⟩
    exact ⟨hl, hx, hq⟩
  · rintro ⟨hl, hx, hq⟩
    exact ⟨_, hl, rfl, hx, hq⟩

theorem Segment.heap_eq (h : Segment next heap p l q) (hx : x ∈ l) : heap x.1 = some x.2 := by
  induction l generalizing p with
  | nil => exact absurd hx List.not_mem_nil
  | cons y l ih =>
    obtain ⟨-, hy, hl⟩ := h
    rcases List.mem_cons.mp hx with rfl | hx
    · exact hy
    · exact ih hl hx

/-- An address that is not in use is not one of the segment. -/
theorem Segment.not_mem_addrs {a : P} (h : Segment next heap p l q) (ha : heap a = none) :
    a ∉ addrs l := by
  intro hmem
  obtain ⟨x, hx, rfl⟩ := List.mem_map.mp hmem
  rw [h.heap_eq hx] at ha
  cases ha

/-- A segment depends on its own addresses only. -/
theorem Segment.congr (h : Segment next heap p l q) (hsame : ∀ a ∈ addrs l, heap' a = heap a) :
    Segment next heap' p l q := by
  induction l generalizing p with
  | nil => exact h
  | cons x l ih =>
    obtain ⟨hp, hx, hl⟩ := h
    refine ⟨hp, ?_, ih hl fun a ha => hsame a (List.mem_cons_of_mem _ ha)⟩
    rw [hsame x.1 List.mem_cons_self]
    exact hx

section Update

variable [DecidableEq P]

theorem Segment.update {a : P} {c : Option C} (h : Segment next heap p l q) (ha : a ∉ addrs l) :
    Segment next (Function.update heap a c) p l q := by
  apply h.congr
  intro b hb
  apply Function.update_of_ne
  rintro rfl
  exact ha hb

end Update

end Heap
