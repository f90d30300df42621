import Nachos.Threads.List

/-!
# What linked lists hold

One list is two pointers and the nodes between them (`Represents`).  There are two ways to put an
element into it, in front (`Represents.front`) and behind a node (`Represents.behind`), and one to take
an element out of it (`Represents.behead`); each changes the memory at the nodes of the list and at the
new element only (`Local`).  So the lists in one memory do not disturb each other (`Separate`), and every
one of them does what its history says.
-/

namespace Nachos

open Heap

variable {P α ι : Type}

/-- Inserting by the key, for entries that have an item and a key. -/
theorem map_insertEntry {ε : Type} (f : ε → α × ℤ) (e : ε) (entries : List ε) :
    (Agenda.insertEntry (fun e => (f e).2) e entries).map f =
      Agenda.insertEntry Prod.snd (f e) (entries.map f) :=
  List.map_orderedInsert _ _ _ _ _ (fun _ _ => Iff.rfl) (fun _ _ => Iff.rfl)

/-! ### One list -/

namespace LinkedList

variable {heap heap' : Elements P α} {l l' : LinkedList P} {nodes nodes₁ nodes₂ : List (P × ListElement P α)}
  {x : P × ListElement P α} {element : P} {item : α} {sortKey : ℤ}

/-- The items and keys of nodes. -/
def data (nodes : List (P × ListElement P α)) : List (α × ℤ) :=
  nodes.map fun x => (x.2.item, x.2.key)

/-- The list consists of the nodes. -/
structure Represents (heap : Elements P α) (l : LinkedList P) (nodes : List (P × ListElement P α)) :
    Prop where
  segment : Segment ListElement.next heap l.first nodes none
  nodup : (addrs nodes).Nodup
  last : l.last = nodes.getLast?.map Prod.fst

/-- Nodes have been replaced by others: memory is the same elsewhere, and only the addresses `fresh` are
new. -/
structure Local (fresh : List P) (nodes nodes' : List (P × ListElement P α))
    (heap heap' : Elements P α) : Prop where
  same : ∀ a, a ∉ fresh → a ∉ addrs nodes → heap' a = heap a
  owned : ∀ a ∈ addrs nodes', a ∈ fresh ∨ a ∈ addrs nodes

theorem represents_new (heap : Elements P α) : Represents heap new [] := ⟨rfl, List.nodup_nil, rfl⟩

theorem Represents.first_eq (h : Represents heap l nodes) : l.first = nodes.head?.map Prod.fst := by
  cases nodes with
  | nil => exact h.segment
  | cons x nodes => exact h.segment.1

theorem Represents.isEmpty (h : Represents heap l nodes) : l.isEmpty = nodes.isEmpty := by
  unfold LinkedList.isEmpty
  rw [h.first_eq]
  cases nodes <;> rfl

/-- `first == last` is the test for one element. -/
theorem Represents.first_eq_last_iff (h : Represents heap l (x :: nodes)) :
    l.first = l.last ↔ nodes = [] := by
  rw [h.first_eq, h.last]
  rcases List.eq_nil_or_concat' nodes with rfl | ⟨nodes, y, rfl⟩
  · simp
  · have hne : x.1 ≠ y.1 := by
      intro hxy
      refine (List.nodup_cons.mp h.nodup).1 ?_
      exact List.mem_map.mpr ⟨y, List.mem_append_right _ List.mem_cons_self, hxy.symm⟩
    rw [← List.cons_append, List.getLast?_concat]
    simp [hne]

/-! ### The place for a key -/

/-- The nodes that a new one with the key goes behind. -/
structure Cut (sortKey : ℤ) (nodes₁ nodes₂ : List (P × ListElement P α)) : Prop where
  le : ∀ x ∈ nodes₁, x.2.key ≤ sortKey
  lt : ∀ x ∈ nodes₂.head?, sortKey < x.2.key

theorem cut_single (hx : x.2.key ≤ sortKey) (hlt : ∀ y ∈ nodes₂.head?, sortKey < y.2.key) :
    Cut sortKey [x] nodes₂ := by
  refine ⟨?_, hlt⟩
  intro y hy
  rwa [List.mem_singleton.mp hy]

theorem place_of_end {a : P} {c : ListElement P α} (ha : heap a = some c) (hnext : c.next = none)
    (fuel : ℕ) : place heap sortKey (fuel + 1) a = some none := by
  unfold place
  rw [ha, Option.bind_eq_bind, Option.bind_some, hnext]
  rfl

theorem place_of_next {a b : P} {c d : ListElement P α} (ha : heap a = some c)
    (hnext : c.next = some b) (hb : heap b = some d) (fuel : ℕ) :
    place heap sortKey (fuel + 1) a =
      if sortKey < d.key then some (some a) else place heap sortKey fuel b := by
  rw [place, ha, Option.bind_eq_bind, Option.bind_some, hnext]
  dsimp only
  rw [hb, Option.bind_some]
  rfl

/-- The loop ends, and finds the last node with at most the key. -/
theorem place_spec {a : P} (h : Segment ListElement.next heap (some a) (x :: nodes) none)
    (hx : x.2.key ≤ sortKey) {fuel : ℕ} (hfuel : nodes.length < fuel) :
    ∃ nodes₁ y nodes₂, x :: nodes = nodes₁ ++ y :: nodes₂ ∧ Cut sortKey (nodes₁ ++ [y]) nodes₂ ∧
      place heap sortKey fuel a = some (if nodes₂.isEmpty then none else some y.1) := by
  induction nodes generalizing a x fuel with
  | nil =>
    obtain ⟨n, rfl⟩ := Nat.exists_eq_succ_of_ne_zero (Nat.ne_of_gt hfuel)
    obtain ⟨ha, hheap, hnext⟩ := h
    cases ha
    exact ⟨[], x, [], rfl, cut_single hx (by simp), place_of_end hheap hnext n⟩
  | cons z nodes ih =>
    obtain ⟨n, rfl⟩ := Nat.exists_eq_succ_of_ne_zero (Nat.ne_zero_of_lt hfuel)
    obtain ⟨ha, hheap, hrest⟩ := h
    cases ha
    rw [place_of_next hheap hrest.1 hrest.2.1]
    split_ifs with hz
    · refine ⟨[], x, z :: nodes, rfl, cut_single hx ?_, rfl⟩
      intro y hy
      cases hy
      exact hz
    · -- the loop goes on from the next node
      have hseg : Segment ListElement.next heap (some z.1) (z :: nodes) none := ⟨rfl, hrest.2⟩
      obtain ⟨nodes₁, y, nodes₂, hsplit, hcut, hplace⟩ :=
        ih hseg (not_lt.mp hz) (Nat.lt_of_succ_lt_succ hfuel)
      refine ⟨x :: nodes₁, y, nodes₂, ?_, ⟨?_, hcut.lt⟩, hplace⟩
      · rw [hsplit, List.cons_append]
      · intro w hw
        rcases List.mem_cons.mp hw with rfl | hw
        · exact hx
        · exact hcut.le w hw

theorem Cut.insertEntry (h : Cut sortKey nodes₁ nodes₂) (item : α) :
    Agenda.insertEntry Prod.snd (item, sortKey) (data (nodes₁ ++ nodes₂)) =
      data nodes₁ ++ (item, sortKey) :: data nodes₂ := by
  unfold data
  rw [List.map_append]
  apply Agenda.insertEntry_append
  · intro b hb
    obtain ⟨x, hx, rfl⟩ := List.mem_map.mp hb
    exact h.le x hx
  · intro b hb
    rw [List.head?_map] at hb
    obtain ⟨x, hx, rfl⟩ := Option.mem_map.mp hb
    exact h.lt x hx

/-! ### Changes -/

section Changes

variable [DecidableEq P]

/-- A new element in front. -/
theorem Represents.front (h : Represents heap l nodes) (hfresh : heap element = none)
    {c : ListElement P α} (hc : c.next = l.first) (hfirst : l'.first = some element)
    (hlast : l'.last = if nodes.isEmpty then some element else l.last) :
    Represents (Function.update heap element (some c)) l' ((element, c) :: nodes) := by
  have hnew := h.segment.not_mem_addrs hfresh
  refine ⟨⟨hfirst, Function.update_self _ _ _, ?_⟩, List.nodup_cons.mpr ⟨hnew, h.nodup⟩, ?_⟩
  · show Segment ListElement.next _ c.next nodes none
    rw [hc]
    exact h.segment.update hnew
  · rw [hlast]
    cases nodes with
    | nil => rfl
    | cons y nodes =>
      rw [h.last]
      rfl

theorem local_front {c : ListElement P α} :
    Local [element] nodes ((element, c) :: nodes) heap (Function.update heap element (some c)) := by
  constructor
  · intro a ha _
    exact Function.update_of_ne (fun h => ha (List.mem_singleton.mpr h)) _ _
  · intro a ha
    rcases List.mem_cons.mp ha with rfl | ha
    · exact Or.inl (List.mem_singleton.mpr rfl)
    · exact Or.inr ha

/-- A new element behind a node. -/
theorem Represents.behind (h : Represents heap l (nodes₁ ++ x :: nodes₂)) (hfresh : heap element = none)
    {c : ListElement P α} (hc : c.next = x.2.next) (hfirst : l'.first = l.first)
    (hlast : l'.last = if nodes₂.isEmpty then some element else l.last) :
    Represents (Function.update (Function.update heap element (some c)) x.1
        (some { x.2 with next := some element })) l'
      (nodes₁ ++ (x.1, { x.2 with next := some element }) :: (element, c) :: nodes₂) := by
  have hnew := h.segment.not_mem_addrs hfresh
  have hnodup := h.nodup
  obtain ⟨r, hseg₁, rfl, hx, hseg₂⟩ := segment_append.mp h.segment
  rw [addrs_append, addrs_cons] at hnew hnodup
  have hperm : (addrs nodes₁ ++ x.1 :: element :: addrs nodes₂).Perm
      (element :: (addrs nodes₁ ++ x.1 :: addrs nodes₂)) := by
    rw [List.append_cons, List.append_cons _ x.1 (addrs nodes₂)]
    exact List.perm_middle
  obtain ⟨hx₁, hx₂⟩ : x.1 ∉ addrs nodes₁ ∧ x.1 ∉ addrs nodes₂ := by
    have := List.nodup_middle.mp hnodup
    rw [List.nodup_cons, List.mem_append, not_or] at this
    exact this.1
  obtain ⟨hnew₁, hnew₂⟩ : element ∉ addrs nodes₁ ∧ element ∉ x.1 :: addrs nodes₂ := by
    rwa [List.mem_append, not_or] at hnew
  obtain ⟨hne, hnew₂⟩ : element ≠ x.1 ∧ element ∉ addrs nodes₂ := by
    rwa [List.mem_cons, not_or] at hnew₂
  refine ⟨segment_append.mpr ⟨some x.1, ?_, rfl, Function.update_self _ _ _, rfl, ?_, ?_⟩, ?_, ?_⟩
  · rw [hfirst]
    exact (hseg₁.update hnew₁).update hx₁
  · rw [Function.update_of_ne hne, Function.update_self]
  · show Segment ListElement.next _ c.next nodes₂ none
    rw [hc]
    exact (hseg₂.update hnew₂).update hx₂
  · rw [addrs_append, addrs_cons, addrs_cons, hperm.nodup_iff]
    exact List.nodup_cons.mpr ⟨hnew, hnodup⟩
  · rw [hlast]
    cases nodes₂ with
    | nil => simp
    | cons y nodes₂ =>
      rw [h.last]
      simp [List.getLast?_append, List.getLast?_cons_cons]

theorem local_behind {c c' : ListElement P α} :
    Local [element] (nodes₁ ++ x :: nodes₂) (nodes₁ ++ (x.1, c') :: (element, c) :: nodes₂) heap
      (Function.update (Function.update heap element (some c)) x.1 (some c')) := by
  constructor
  · intro a ha hown
    have hx : a ≠ x.1 := by
      rintro rfl
      exact hown (by simp)
    rw [Function.update_of_ne hx, Function.update_of_ne (fun h => ha (List.mem_singleton.mpr h))]
  · intro a ha
    simp only [addrs_append, addrs_cons, List.mem_append, List.mem_cons] at ha ⊢
    tauto

/-- The first element is deleted. -/
theorem Represents.behead (h : Represents heap l (x :: nodes)) (hfirst : l'.first = x.2.next)
    (hlast : l'.last = if nodes.isEmpty then none else l.last) :
    Represents (Function.update heap x.1 none) l' nodes := by
  obtain ⟨hx, hnodup⟩ := List.nodup_cons.mp h.nodup
  refine ⟨?_, hnodup, ?_⟩
  · rw [hfirst]
    exact h.segment.2.2.update hx
  · rw [hlast]
    cases nodes with
    | nil => rfl
    | cons y nodes =>
      rw [h.last]
      rfl

theorem local_behead : Local [] (x :: nodes) nodes heap (Function.update heap x.1 none) := by
  constructor
  · intro a _ hown
    apply Function.update_of_ne
    rintro rfl
    exact hown List.mem_cons_self
  · intro a ha
    exact Or.inr (List.mem_cons_of_mem _ ha)

/-! ### The operations -/

theorem setNext_eq {a : P} {c : ListElement P α} (h : heap a = some c) (next : Option P) :
    Elements.setNext heap (some a) next = some (Function.update heap a (some { c with next })) := by
  unfold Elements.setNext
  rw [Option.bind_eq_bind, Option.bind_some, h]
  rfl

/-- What a call does to a list: `result` is on it afterwards. -/
def Becomes (heap : Elements P α) (nodes : List (P × ListElement P α)) (fresh : List P)
    (result : List (α × ℤ)) (r : Elements P α × LinkedList P) : Prop :=
  ∃ nodes', Represents r.1 r.2 nodes' ∧ Local fresh nodes nodes' heap r.1 ∧ data nodes' = result

/-- A node after a new element has been allocated. -/
theorem Represents.allocated (h : Represents heap l nodes) (hfresh : heap element = none)
    {c : ListElement P α} (hx : x ∈ nodes) :
    Function.update heap element (some c) x.1 = some x.2 := by
  rw [Function.update_of_ne, h.segment.heap_eq hx]
  rintro rfl
  rw [h.segment.heap_eq hx] at hfresh
  cases hfresh

/-- `last->next = element; last = element;` -/
theorem Represents.atEnd (h : Represents heap l (nodes ++ [x])) (hfresh : heap element = none)
    (item : α) (sortKey : ℤ) :
    ∃ heap', Elements.setNext (Function.update heap element (some (.new item sortKey))) l.last
        (some element) = some heap' ∧
      Becomes heap (nodes ++ [x]) [element] (data (nodes ++ [x]) ++ [(item, sortKey)])
        (heap', { l with last := some element }) := by
  have hlast : l.last = some x.1 := by
    rw [h.last, List.getLast?_concat]
    rfl
  have hx : x ∈ nodes ++ [x] := List.mem_append_right _ (List.mem_singleton.mpr rfl)
  have hnext : x.2.next = none := (segment_concat.mp h.segment).2.2
  rw [hlast, setNext_eq (h.allocated hfresh hx)]
  refine ⟨_, rfl, _, h.behind hfresh hnext.symm rfl rfl, local_behind, ?_⟩
  simp [data, ListElement.new]

/-- `element->next = first; first = element;` -/
theorem Represents.inFront (h : Represents heap l (x :: nodes)) (hfresh : heap element = none)
    (item : α) (sortKey : ℤ) :
    ∃ heap', Elements.setNext (Function.update heap element (some (.new item sortKey))) (some element)
        l.first = some heap' ∧
      Becomes heap (x :: nodes) [element] ((item, sortKey) :: data (x :: nodes))
        (heap', { l with first := some element }) := by
  rw [setNext_eq (Function.update_self _ _ _), Function.update_idem]
  exact ⟨_, rfl, _, h.front hfresh rfl rfl rfl, local_front, rfl⟩

/-- The only element. -/
theorem Represents.single (h : Represents heap l []) (hfresh : heap element = none) (item : α)
    (sortKey : ℤ) :
    Becomes heap [] [element] [(item, sortKey)]
      (Function.update heap element (some (.new item sortKey)), ⟨some element, some element⟩) :=
  ⟨_, h.front hfresh h.segment.symm rfl rfl, local_front, rfl⟩

theorem append_becomes (h : Represents heap l nodes) (hfresh : heap element = none) (item : α) :
    ∃ r, append heap l element item = some r ∧
      Becomes heap nodes [element] (data nodes ++ [(item, 0)]) r := by
  unfold append
  rw [h.isEmpty]
  rcases List.eq_nil_or_concat' nodes with rfl | ⟨nodes, x, rfl⟩
  · exact ⟨_, rfl, h.single hfresh item 0⟩
  · obtain ⟨heap', hset, hbecomes⟩ := h.atEnd hfresh item 0
    have hsome : (nodes ++ [x]).isEmpty = false := by simp
    rw [hsome]
    dsimp only
    rw [if_neg Bool.false_ne_true, hset]
    exact ⟨_, rfl, hbecomes⟩

theorem prepend_becomes (h : Represents heap l nodes) (hfresh : heap element = none) (item : α) :
    ∃ r, prepend heap l element item = some r ∧
      Becomes heap nodes [element] ((item, 0) :: data nodes) r := by
  unfold prepend
  rw [h.isEmpty]
  cases nodes with
  | nil => exact ⟨_, rfl, h.single hfresh item 0⟩
  | cons x nodes =>
    obtain ⟨heap', hset, hbecomes⟩ := h.inFront hfresh item 0
    dsimp only
    rw [List.isEmpty_cons, if_neg Bool.false_ne_true, hset]
    exact ⟨_, rfl, hbecomes⟩

theorem sortedRemove_nil (h : Represents heap l []) (null : α) :
    sortedRemove null heap l = some ((null, none), heap, l) := by
  have hfirst : l.first = none := h.segment
  unfold sortedRemove
  rw [hfirst]

theorem sortedRemove_cons (h : Represents heap l (x :: nodes)) (null : α) :
    ∃ r, sortedRemove null heap l = some ((x.2.item, some x.2.key), r) ∧
      Becomes heap (x :: nodes) [] (data nodes) r := by
  obtain ⟨hfirst, hx, hrest⟩ := h.segment
  have hremove : sortedRemove null heap l = some ((x.2.item, some x.2.key),
      Function.update heap x.1 none,
      if l.first = l.last then new else { l with first := x.2.next }) := by
    unfold sortedRemove
    rw [hfirst]
    dsimp only
    rw [hx]
    rfl
  refine ⟨_, hremove, nodes, h.behead ?_ ?_, local_behead, rfl⟩
  · -- with one element the pointer that is not followed is NULL as well
    split_ifs with hone
    · rw [h.first_eq_last_iff.mp hone] at hrest
      exact hrest.symm
    · rfl
  · split_ifs with hone hnil hnil
    · rfl
    · rw [h.first_eq_last_iff.mp hone] at hnil
      exact absurd rfl hnil
    · exact absurd (h.first_eq_last_iff.mpr (List.isEmpty_iff.mp hnil)) hone
    · rfl

/-- `element->next = ptr->next; ptr->next = element;` -/
theorem Represents.inside (h : Represents heap l (nodes₁ ++ x :: nodes₂)) (hnodes : nodes₂.isEmpty = false)
    (hfresh : heap element = none) (item : α) (sortKey : ℤ) :
    ∃ heap₁ heap₂, Elements.setNext (Function.update heap element (some (.new item sortKey)))
        (some element) x.2.next = some heap₁ ∧
      heap₁.setNext (some x.1) (some element) = some heap₂ ∧
      Becomes heap (nodes₁ ++ x :: nodes₂) [element]
        (data (nodes₁ ++ [x]) ++ (item, sortKey) :: data nodes₂) (heap₂, l) := by
  have hx : x ∈ nodes₁ ++ x :: nodes₂ := List.mem_append_right _ List.mem_cons_self
  rw [setNext_eq (Function.update_self _ _ _), Function.update_idem]
  refine ⟨_, _, rfl, setNext_eq (h.allocated hfresh hx) _, _, h.behind hfresh rfl rfl ?_,
    local_behind, ?_⟩
  · rw [hnodes]
    rfl
  · simp [data, ListElement.new]

/-- The loop does not see the new element, which is not linked yet. -/
theorem sortedInsert_becomes (h : Represents heap l nodes) (hfresh : heap element = none) (item : α)
    (sortKey : ℤ) {fuel : ℕ} (hfuel : nodes.length ≤ fuel) :
    ∃ r, sortedInsert fuel heap l element item sortKey = some r ∧
      Becomes heap nodes [element] (Agenda.insertEntry Prod.snd (item, sortKey) (data nodes)) r := by
  obtain ⟨first, last⟩ := l
  cases nodes with
  | nil =>
    obtain rfl : first = none := h.segment
    exact ⟨_, rfl, h.single hfresh item sortKey⟩
  | cons x nodes =>
    obtain rfl : first = some x.1 := h.segment.1
    have hx := @Represents.allocated _ _ _ _ _ _ element _ h hfresh (.new item sortKey) List.mem_cons_self
    unfold sortedInsert
    dsimp only
    rw [hx, Option.bind_eq_bind, Option.bind_some]
    split_ifs with hfront
    · obtain ⟨heap', hset, hbecomes⟩ := h.inFront hfresh item sortKey
      have hcut : Cut sortKey [] (x :: nodes) := ⟨by simp, by simpa using hfront⟩
      refine ⟨_, by rw [hset]; rfl, ?_⟩
      have hdata := hcut.insertEntry item
      rw [List.nil_append] at hdata
      rw [hdata]
      exact hbecomes
    · have hseg : Segment ListElement.next (Function.update heap element (some (.new item sortKey)))
          (some x.1) (x :: nodes) none := h.segment.update (h.segment.not_mem_addrs hfresh)
      obtain ⟨nodes₁, y, nodes₂, hsplit, hcut, hplace⟩ := place_spec hseg (not_lt.mp hfront) hfuel
      have hdata := hcut.insertEntry item
      rw [List.append_assoc, List.singleton_append] at hdata
      rw [hsplit] at h ⊢
      rw [hplace, hdata, Option.bind_eq_bind, Option.bind_some]
      cases nodes₂ with
      | nil =>
        obtain ⟨heap', hset, hbecomes⟩ := h.atEnd hfresh item sortKey
        refine ⟨_, ?_, hbecomes⟩
        rw [List.isEmpty_nil, if_pos rfl]
        dsimp only
        rw [hset]
        rfl
      | cons z nodes₂ =>
        have hy : y ∈ nodes₁ ++ y :: z :: nodes₂ := List.mem_append_right _ List.mem_cons_self
        obtain ⟨heap₁, heap₂, hset₁, hset₂, hbecomes⟩ := h.inside rfl hfresh item sortKey
        refine ⟨_, ?_, hbecomes⟩
        rw [List.isEmpty_cons, if_neg Bool.false_ne_true]
        dsimp only
        rw [h.allocated hfresh hy, Option.bind_some, hset₁]
        show (heap₁.setNext (some y.1) (some element)).bind _ = _
        rw [hset₂]
        rfl

/-! ### Fuel -/

omit [DecidableEq P] in
theorem place_mono {n m : ℕ} (hnm : n ≤ m) {a : P} {r : Option P}
    (h : place heap sortKey n a = some r) : place heap sortKey m a = some r := by
  induction n generalizing a m with
  | zero => cases h
  | succ n ih =>
    obtain ⟨m, rfl⟩ := Nat.exists_eq_succ_of_ne_zero (Nat.ne_zero_of_lt hnm)
    rw [place] at h ⊢
    obtain ⟨c, hc, h⟩ := Option.bind_eq_some_iff.mp h
    rw [hc, Option.bind_eq_bind, Option.bind_some]
    cases hnext : c.next with
    | none =>
      rw [hnext] at h
      exact h
    | some b =>
      rw [hnext] at h
      obtain ⟨d, hd, h⟩ := Option.bind_eq_some_iff.mp h
      dsimp only
      rw [hd, Option.bind_some]
      split_ifs at h ⊢ with hlt
      · exact h
      · exact ih (Nat.le_of_succ_le_succ hnm) h

theorem sortedInsert_mono {n m : ℕ} (hnm : n ≤ m) {r : Elements P α × LinkedList P}
    (h : sortedInsert n heap l element item sortKey = some r) :
    sortedInsert m heap l element item sortKey = some r := by
  unfold sortedInsert at h ⊢
  cases hfirst : l.first with
  | none =>
    rw [hfirst] at h
    exact h
  | some first =>
    rw [hfirst] at h
    dsimp only at h ⊢
    obtain ⟨c, hc, h⟩ := Option.bind_eq_some_iff.mp h
    rw [hc, Option.bind_eq_bind, Option.bind_some]
    split_ifs at h ⊢ with hlt
    · exact h
    · obtain ⟨ptr, hptr, h⟩ := Option.bind_eq_some_iff.mp h
      rw [place_mono hnm hptr]
      exact h

theorem call_mono {null : α} {n m : ℕ} (hnm : n ≤ m) {c : ListCall P α}
    {r : ListAnswer α × Elements P α × LinkedList P} (h : l.call null n heap c = some r) :
    l.call null m heap c = some r := by
  cases c with
  | sortedInsert element item sortKey =>
    obtain ⟨r', hr', h⟩ := Option.bind_eq_some_iff.mp h
    show (sortedInsert m heap l element item sortKey).bind _ = _
    rw [sortedInsert_mono hnm hr']
    exact h
  | append => exact h
  | prepend => exact h
  | remove => exact h
  | sortedRemove => exact h

/-! ### Calls -/

/-- The address of the new element. -/
def allocated : ListCall P α → List P
  | .append element _ | .prepend element _ | .sortedInsert element _ _ => [element]
  | .remove | .sortedRemove => []

theorem sortedRemove_becomes {ε : Type} (f : ε → α × ℤ) {entries : List ε} (h : Represents heap l nodes)
    (hdata : data nodes = entries.map f) (null : α) :
    ∃ r, sortedRemove null heap l = some ((entries.head?.elim null fun e => (f e).1,
        entries.head?.map fun e => (f e).2), r) ∧
      Becomes heap nodes [] (entries.tail.map f) r := by
  cases nodes with
  | nil =>
    obtain rfl : entries = [] := List.map_eq_nil_iff.mp hdata.symm
    exact ⟨_, sortedRemove_nil h null, [], h, ⟨fun _ _ _ => rfl, fun _ ha => Or.inr ha⟩, rfl⟩
  | cons x nodes =>
    cases entries with
    | nil => cases hdata
    | cons e entries =>
      obtain ⟨hhead, htail⟩ := List.cons.inj hdata
      obtain ⟨r, hr, hbecomes⟩ := sortedRemove_cons h null
      refine ⟨r, ?_, ?_⟩
      · rw [hr]
        show some ((x.2.item, some x.2.key), r) = some (((f e).1, some (f e).2), r)
        rw [← hhead]
      · rw [show data nodes = entries.map f from htail] at hbecomes
        exact hbecomes

/-- **A call does what the history says.** -/
theorem call_becomes {null : α} {history : History α} (h : Represents heap l nodes)
    (hdata : data nodes = history.contents.map Entry.data) {c : ListCall P α} (hfresh : c.Fresh heap)
    {fuel : ℕ} (hfuel : nodes.length ≤ fuel) :
    ∃ r, l.call null fuel heap c = some ((history.call null c).1, r) ∧
      Becomes heap nodes (allocated c) ((history.call null c).2.contents.map Entry.data) r := by
  cases c with
  | append element item =>
    obtain ⟨r, hr, hbecomes⟩ := append_becomes h hfresh item
    refine ⟨r, by rw [call, hr]; rfl, ?_⟩
    rw [hdata] at hbecomes
    rwa [History.call, History.insert, List.map_append]
  | prepend element item =>
    obtain ⟨r, hr, hbecomes⟩ := prepend_becomes h hfresh item
    refine ⟨r, by rw [call, hr]; rfl, ?_⟩
    rwa [hdata] at hbecomes
  | remove =>
    obtain ⟨r, hr, hbecomes⟩ := sortedRemove_becomes Entry.data h hdata null
    exact ⟨r, by rw [call, remove, hr]; rfl, hbecomes⟩
  | sortedInsert element item sortKey =>
    obtain ⟨r, hr, hbecomes⟩ := sortedInsert_becomes h hfresh item sortKey hfuel
    refine ⟨r, by rw [call, hr]; rfl, ?_⟩
    have hmap : (Agenda.insertEntry Entry.key ⟨item, sortKey, history.inserted.length⟩
        history.contents).map Entry.data = Agenda.insertEntry Prod.snd (item, sortKey)
          (history.contents.map Entry.data) := map_insertEntry Entry.data _ _
    rw [hdata, ← hmap] at hbecomes
    exact hbecomes
  | sortedRemove =>
    obtain ⟨r, hr, hbecomes⟩ := sortedRemove_becomes Entry.data h hdata null
    exact ⟨r, by rw [call, hr]; rfl, hbecomes⟩

/-- What the first call to return does. -/
theorem becomes_of_call {null : α} {history : History α} (h : Represents heap l nodes)
    (hdata : data nodes = history.contents.map Entry.data) {c : ListCall P α} (hfresh : c.Fresh heap)
    {fuel : ℕ} {answer : ListAnswer α} {r : Elements P α × LinkedList P}
    (hcall : l.call null fuel heap c = some (answer, r)) :
    Becomes heap nodes (allocated c) ((history.call null c).2.contents.map Entry.data) r := by
  obtain ⟨r', hr', hbecomes⟩ := @call_becomes _ _ _ _ _ _ null _ h hdata _ hfresh
    (max fuel nodes.length) (le_max_right _ _)
  rw [call_mono (le_max_left _ _) hcall] at hr'
  cases hr'
  exact hbecomes

/-! ### Agendas -/

/-- **`SortedInsert` on an agenda**, such as the pending interrupts with their times. -/
theorem sortedInsert_agenda {key : α → ℤ} {q : Agenda key} (h : Represents heap l nodes)
    (hdata : data nodes = q.entries.map fun a => (a, key a)) (hfresh : heap element = none) (a : α)
    {fuel : ℕ} (hfuel : nodes.length ≤ fuel) :
    ∃ r, sortedInsert fuel heap l element a (key a) = some r ∧
      Becomes heap nodes [element] ((q.sortedInsert a).entries.map fun a => (a, key a)) r := by
  obtain ⟨r, hr, hbecomes⟩ := sortedInsert_becomes h hfresh a (key a) hfuel
  rw [hdata, ← map_insertEntry (fun a => (a, key a))] at hbecomes
  exact ⟨r, hr, hbecomes⟩

/-- **`SortedRemove` on an agenda.** -/
theorem sortedRemove_agenda {key : α → ℤ} {q q' : Agenda key} {a : α} (h : Represents heap l nodes)
    (hdata : data nodes = q.entries.map fun a => (a, key a)) (hq : q.sortedRemove = some (a, q'))
    (null : α) :
    ∃ r, sortedRemove null heap l = some ((a, some (key a)), r) ∧
      Becomes heap nodes [] (q'.entries.map fun a => (a, key a)) r := by
  rw [Agenda.entries_of_sortedRemove_some hq] at hdata
  exact sortedRemove_becomes _ h hdata null

end Changes

end LinkedList

/-! ### Histories -/

namespace History

variable {h : History α}

/-- Every item that has been inserted has been removed or is on the list. -/
structure Consistent (h : History α) : Prop where
  perm : (h.removed ++ h.contents).Perm h.inserted
  numbers : h.inserted.map Entry.number = List.range h.inserted.length

theorem consistent_empty : Consistent (empty : History α) := ⟨.nil, rfl⟩

theorem Consistent.insert (hh : h.Consistent) {place : Entry α → List (Entry α) → List (Entry α)}
    (hplace : ∀ e l, (place e l).Perm (e :: l)) (item : α) (key : ℤ) :
    (h.insert place item key).Consistent := by
  constructor
  · have hcontents := (hplace ⟨item, key, h.inserted.length⟩ h.contents).append_left h.removed
    have hinserted := (hh.perm.cons _).trans (List.perm_append_singleton
      (⟨item, key, h.inserted.length⟩ : Entry α) _).symm
    exact (hcontents.trans List.perm_middle).trans hinserted
  · show (h.inserted ++ [_]).map Entry.number = List.range (h.inserted ++ [_]).length
    rw [List.map_append, hh.numbers, List.length_append, List.length_singleton, List.range_succ]
    rfl

theorem Consistent.remove (hh : h.Consistent) : h.remove.Consistent := by
  obtain ⟨inserted, removed, contents⟩ := h
  refine ⟨?_, hh.numbers⟩
  cases contents with
  | nil => simpa [History.remove] using hh.perm
  | cons e contents => simpa [History.remove] using hh.perm

theorem Consistent.call (hh : h.Consistent) (null : α) (c : ListCall P α) :
    (h.call null c).2.Consistent := by
  cases c with
  | append element item => exact hh.insert (fun e l => List.perm_append_singleton e l) item 0
  | prepend element item => exact hh.insert (fun _ _ => .refl _) item 0
  | remove => exact hh.remove
  | sortedInsert element item sortKey =>
    exact hh.insert (fun _ _ => Agenda.perm_insertEntry) item sortKey
  | sortedRemove => exact hh.remove

/-- The entries on the list have been inserted before. -/
theorem Consistent.number_lt (hh : h.Consistent) {e : Entry α} (he : e ∈ h.contents) :
    e.number < h.inserted.length := by
  have hmem : e ∈ h.inserted := hh.perm.mem_iff.mp (List.mem_append_right _ he)
  have hnumber := List.mem_map_of_mem (f := Entry.number) hmem
  rw [hh.numbers] at hnumber
  exact List.mem_range.mp hnumber

/-- The newest entry goes behind those with the same key. -/
theorem pairwise_before_insertEntry {e : Entry α} {l : List (Entry α)} (hl : l.Pairwise Entry.Before)
    (hnew : ∀ e' ∈ l, e'.number < e.number) :
    (Agenda.insertEntry Entry.key e l).Pairwise Entry.Before := by
  induction l with
  | nil => exact List.pairwise_singleton _ e
  | cons b l ih =>
    obtain ⟨hb, hrest⟩ := List.pairwise_cons.mp hl
    unfold Agenda.insertEntry
    rw [List.orderedInsert_cons]
    split_ifs with hlt
    · refine List.pairwise_cons.mpr ⟨?_, hl⟩
      intro c hc
      rcases List.mem_cons.mp hc with rfl | hc
      · exact Or.inl hlt
      · rcases hb c hc with hkey | ⟨hkey, -⟩
        · exact Or.inl (hlt.trans hkey)
        · exact Or.inl (hkey ▸ hlt)
    · refine List.pairwise_cons.mpr ⟨?_, ih hrest fun c hc => hnew c (List.mem_cons_of_mem b hc)⟩
      intro c hc
      rcases List.mem_cons.mp (Agenda.perm_insertEntry.mem_iff.mp hc) with rfl | hc
      · -- the new entry, behind one with a smaller key or the same
        rcases lt_or_eq_of_le (not_lt.mp hlt) with hkey | hkey
        · exact Or.inl hkey
        · exact Or.inr ⟨hkey, hnew b List.mem_cons_self⟩
      · exact hb c hc

theorem pairwise_call (hh : h.Consistent) (hsorted : h.contents.Pairwise Entry.Before) (null : α)
    {c : ListCall P α} (hc : c.Sorted) : (h.call null c).2.contents.Pairwise Entry.Before := by
  cases c with
  | append => exact hc.elim
  | prepend => exact hc.elim
  | remove => exact hsorted.tail
  | sortedInsert element item sortKey =>
    exact pairwise_before_insertEntry hsorted fun e he => hh.number_lt he
  | sortedRemove => exact hsorted.tail

end History

/-! ### Lists in one memory -/

namespace Lists

open LinkedList

variable {s s' : Lists ι P α}

/-- The lists have their own nodes, and these hold what the histories say. -/
def Separate (s : Lists ι P α) : Prop :=
  ∃ nodes : ι → List (P × ListElement P α),
    (∀ i, Represents s.heap (s.list i) (nodes i)) ∧
    (∀ i, data (nodes i) = (s.history i).contents.map Entry.data) ∧
    ∀ i j, i ≠ j → ∀ a ∈ addrs (nodes i), a ∉ addrs (nodes j)

theorem heap_of_mem_allocated {heap : Elements P α} {c : ListCall P α} (hfresh : c.Fresh heap) {a : P}
    (ha : a ∈ allocated c) : heap a = none := by
  cases c with
  | append | prepend | sortedInsert => rwa [List.mem_singleton.mp ha]
  | remove | sortedRemove => exact absurd ha List.not_mem_nil

variable [DecidableEq ι] [DecidableEq P] {null : α}

/-- A call of one list leaves the others alone. -/
theorem Separate.step {a : ι × ListCall P α} (hs : s.Separate) (hstep : (system null).step s a s') :
    s'.Separate := by
  obtain ⟨i, c⟩ := a
  obtain ⟨nodes, hrepr, hdata, hdisjoint⟩ := hs
  obtain ⟨hfresh, fuel, answer, heap, l, hcall, rfl⟩ := hstep
  obtain ⟨nodes', hrepr', hlocal, hdata'⟩ := becomes_of_call (hrepr i) (hdata i) hfresh hcall
  -- what is new was not in use, so no list has it
  have hnew : ∀ j, ∀ a ∈ allocated c, a ∉ addrs (nodes j) := by
    intro j a ha
    exact (hrepr j).segment.not_mem_addrs (heap_of_mem_allocated hfresh ha)
  have hother : ∀ j, j ≠ i → ∀ a ∈ addrs nodes', a ∉ addrs (nodes j) := by
    intro j hj a ha
    rcases hlocal.owned a ha with ha | ha
    · exact hnew j a ha
    · exact hdisjoint i j hj.symm a ha
  refine ⟨Function.update nodes i nodes', ?_, ?_, ?_⟩
  · intro j
    by_cases hj : j = i
    · subst hj
      simpa using hrepr'
    · simp only [Function.update_of_ne hj]
      refine ⟨(hrepr j).segment.congr ?_, (hrepr j).nodup, (hrepr j).last⟩
      intro a ha
      exact hlocal.same a (fun h => hnew j a h ha) (hdisjoint j i hj a ha)
  · intro j
    by_cases hj : j = i
    · subst hj
      simpa using hdata'
    · simpa only [Function.update_of_ne hj] using hdata j
  · intro j k hjk a ha
    by_cases hj : j = i
    · subst hj
      rw [Function.update_self] at ha
      rw [Function.update_of_ne hjk.symm]
      exact hother k hjk.symm a ha
    · rw [Function.update_of_ne hj] at ha
      by_cases hk : k = i
      · subst hk
        rw [Function.update_self]
        exact fun h => hother j hj a h ha
      · rw [Function.update_of_ne hk]
        exact hdisjoint j k hjk a ha

theorem separate_of_reachable (h : (system null).Reachable s) : s.Separate := by
  apply h.invariant
  · intro s hs
    refine ⟨fun _ => [], ?_, ?_, ?_⟩
    · intro i
      rw [(hs i).1]
      exact represents_new s.heap
    · intro i
      rw [(hs i).2]
      rfl
    · intro i j _ a ha
      exact absurd ha List.not_mem_nil
  · intro s a s' hs hstep
    exact hs.step hstep

theorem history_consistent (h : (system null).Reachable s) (i : ι) : (s.history i).Consistent := by
  apply h.invariant
  · intro s hs
    rw [(hs i).2]
    exact History.consistent_empty
  · rintro s a s' hs ⟨-, fuel, answer, heap, l, -, rfl⟩
    by_cases hi : i = a.1
    · subst hi
      simpa using hs.call null a.2
    · simpa only [Function.update_of_ne hi] using hs

theorem sorted_of_reachable {i : ι} (h : ((system null).restrict (SortedOnly i)).Reachable s) :
    (s.history i).contents.Pairwise Entry.Before := by
  have hboth : (s.history i).Consistent ∧ (s.history i).contents.Pairwise Entry.Before := by
    apply h.invariant
    · intro s hs
      rw [(hs i).2]
      exact ⟨History.consistent_empty, .nil⟩
    · rintro s a s' ⟨hs, hsorted⟩ ⟨hallowed, -, fuel, answer, heap, l, -, rfl⟩
      by_cases hi : i = a.1
      · subst hi
        simpa using ⟨hs.call null a.2, History.pairwise_call hs hsorted null (hallowed rfl)⟩
      · simpa only [Function.update_of_ne hi] using ⟨hs, hsorted⟩
  exact hboth.2

theorem represented_of_reachable (h : (system null).Reachable s) (i : ι) : Represented null s i := by
  obtain ⟨nodes, hrepr, hdata, -⟩ := separate_of_reachable h
  obtain ⟨hperm, hnumbers⟩ := history_consistent h i
  refine ⟨?_, hperm, hnumbers, ?_⟩
  · exact ⟨nodes i, (hrepr i).segment, (hrepr i).nodup, (hrepr i).last, hdata i⟩
  · intro c hfresh
    refine ⟨(nodes i).length, ?_⟩
    intro fuel hfuel
    obtain ⟨r, hr, -⟩ := call_becomes (hrepr i) (hdata i) hfresh hfuel
    exact ⟨r, hr⟩

theorem stable_of_reachable {i : ι} (h : ((system null).restrict (SortedOnly i)).Reachable s) :
    Stable null s i := by
  have hsorted := sorted_of_reachable h
  obtain ⟨nodes, hrepr, hdata, -⟩ := separate_of_reachable h.of_restrict
  obtain ⟨r, hr, -⟩ := sortedRemove_becomes Entry.data (hrepr i) (hdata i) null
  refine ⟨hsorted, ?_⟩
  intro e he hkey hnumber
  cases hcontents : (s.history i).contents with
  | nil =>
    rw [hcontents] at he
    exact absurd he List.not_mem_nil
  | cons e' rest =>
    rw [hcontents] at he hkey hnumber hsorted hr
    have heq : e = e' := by
      rcases List.mem_cons.mp he with rfl | hrest
      · rfl
      · -- the first entry would have to come before `e`
        exfalso
        rcases (List.pairwise_cons.mp hsorted).1 e hrest with hlt | ⟨hsame, hlt⟩
        · exact absurd (hkey e' List.mem_cons_self) (not_le.mpr hlt)
        · exact absurd (hnumber e' List.mem_cons_self hsame) (not_le.mpr hlt)
    subst heq
    exact ⟨r, hr⟩

/-- **Linked lists hold what has been inserted and not removed.**  The links lead from `first` to `last`
through these items, once each; every operation returns, with what the history says.  A list that is used
with the routines for sorted lists only is sorted by the keys, with equal keys in the order of insertion,
and `SortedRemove` returns the earliest item of those with the least key. -/
theorem lists_hold (null : α) (i : ι) :
    (∀ s : Lists ι P α, (system null).Reachable s → Represented null s i) ∧
    ∀ s : Lists ι P α, ((system null).restrict (SortedOnly i)).Reachable s → Stable null s i :=
  ⟨fun _ h => represented_of_reachable h i, fun _ h => stable_of_reachable h⟩

/-- Three items, two of them with the same key. -/
theorem lists_hold_threeItems : ∃ s : Lists Unit ℕ ℕ,
    ((system 0).restrict (SortedOnly ())).Reachable s ∧
    (s.history ()).contents.map Entry.item = [20, 10, 30] ∧
    Represented 0 s () ∧ Stable 0 s () := by
  let s₀ : Lists Unit ℕ ℕ := ⟨fun _ => none, fun _ => .new, fun _ => .empty⟩
  have h₀ : ((system 0).restrict (SortedOnly ())).Reachable s₀ := .of_init fun _ => ⟨rfl, rfl⟩
  have h₁ := h₀.tail (a := ((), (.sortedInsert 0 10 5 : ListCall ℕ ℕ)))
    ⟨fun _ => trivial, rfl, 0, _, _, _, rfl, rfl⟩
  have h₂ := h₁.tail (a := ((), (.sortedInsert 1 20 3 : ListCall ℕ ℕ)))
    ⟨fun _ => trivial, rfl, 1, _, _, _, rfl, rfl⟩
  have h₃ := h₂.tail (a := ((), (.sortedInsert 2 30 5 : ListCall ℕ ℕ)))
    ⟨fun _ => trivial, rfl, 2, _, _, _, rfl, rfl⟩
  exact ⟨_, h₃, rfl, (lists_hold 0 ()).1 _ h₃.of_restrict, (lists_hold 0 ()).2 _ h₃⟩

end Lists

end Nachos
