import Nachos.Filesys.Directory
import Nachos.Lib.BoundedMap
import Nachos.Lib.Calls

/-!
# The directory is a bounded map

A name counts up to its end, or for its first `FileNameMaxLen` characters (`chars`): `strncmp` compares
these, and `strncpy` copies these.  So an entry that is in use stores a key and a sector, the bytes left
over from an earlier name do not matter, and the table is a map with at most `tableSize` keys.
-/

namespace Nachos

open Memory

/-! ### Names -/

/-- The characters of a name before its end, at most `n` of them. -/
def chars (name : Buf) (n : ℕ) : List Byte := ((List.range n).map name).takeWhile (· ≠ 0)

theorem chars_succ (name : Buf) (n : ℕ) :
    chars name (n + 1) = if name 0 = 0 then [] else name 0 :: chars (name.offset 1) n := by
  have hrest : (List.map (name ∘ Nat.succ) (List.range n)) =
      (List.range n).map (name.offset 1) := by
    apply List.map_congr_left
    intro k _
    simp [Bytes.offset, Nat.add_comm 1 k]
  unfold chars
  rw [List.range_succ_eq_map, List.map_cons, List.map_map, List.takeWhile_cons, hrest]
  by_cases hend : name 0 = 0 <;> simp [hend]

theorem strncmp_iff {s1 s2 : Buf} {n : ℕ} : strncmp s1 s2 n = true ↔ chars s1 n = chars s2 n := by
  induction n generalizing s1 s2 with
  | zero => simp [strncmp, chars]
  | succ n ih =>
    rw [strncmp, chars_succ, chars_succ]
    by_cases hsame : s1 0 = s2 0
    · rw [if_neg (not_not.2 hsame), hsame]
      by_cases hend : s2 0 = 0
      · simp [hend]
      · rw [if_neg hend, if_neg hend, if_neg hend, ih]
        simp
    · rw [if_pos hsame]
      -- the names differ here, so at most one of them ends here
      by_cases hend : s1 0 = 0
      · have hend' : s2 0 ≠ 0 := fun h => hsame (hend.trans h.symm)
        rw [if_pos hend, if_neg hend']
        simp
      · rw [if_neg hend]
        by_cases hend' : s2 0 = 0
        · rw [if_pos hend']
          simp
        · rw [if_neg hend']
          simp [hsame]

/-- What `strncpy` has copied. -/
theorem chars_of_copy {n : ℕ} {s1 s2 : Buf}
    (h : ∀ k < n, s1 k = if (List.range (k + 1)).any (s2 · = 0) then 0 else s2 k) :
    chars s1 n = chars s2 n := by
  induction n generalizing s1 s2 with
  | zero => rfl
  | succ n ih =>
    have h0 : s1 0 = s2 0 := by
      rw [h 0 (by omega)]
      split_ifs with hz
      · have hzero : s2 0 = 0 := by simpa using hz
        exact hzero.symm
      · rfl
    rw [chars_succ, chars_succ, h0]
    by_cases hend : s2 0 = 0
    · rw [if_pos hend, if_pos hend]
    · -- no end of the string here, so the rest is a copy of the rest
      rw [if_neg hend, if_neg hend]
      congr 1
      apply ih
      intro k hk
      have hk' := h (k + 1) (by omega)
      have hany : (List.range (k + 1 + 1)).any (s2 · = 0) =
          (List.range (k + 1)).any (s2.offset 1 · = 0) := by
        rw [List.range_succ_eq_map, List.any_cons, decide_eq_false hend, Bool.false_or, List.any_map]
        congr 1
        funext j
        simp [Bytes.offset, Nat.add_comm 1 j]
      rw [hany] at hk'
      simpa [Bytes.offset, Nat.add_comm 1 k] using hk'

namespace Directory

variable {dir : Directory} {name : Buf} {i j : ℕ} {s : ℤ}

/-- The key of a name. -/
def key (name : Buf) : List Byte := chars name FileNameMaxLen

/-! ### Looking for a name -/

theorem findIndex_some (h : dir.findIndex name = some i) :
    i < dir.tableSize ∧ (dir.table i).inUse ≠ 0 ∧ key (dir.nameOf i) = key name := by
  have hmatch := List.find?_some h
  rw [decide_eq_true_eq, strncmp_iff] at hmatch
  exact ⟨List.mem_range.1 (List.mem_of_find?_eq_some h), hmatch⟩

theorem findIndex_none (h : dir.findIndex name = none) (hj : j < dir.tableSize)
    (huse : (dir.table j).inUse ≠ 0) : key (dir.nameOf j) ≠ key name := by
  have hnot := List.find?_eq_none.1 h j (List.mem_range.2 hj)
  rw [decide_eq_true_eq, strncmp_iff] at hnot
  exact fun hname => hnot ⟨huse, hname⟩

theorem find_of_findIndex_none (h : dir.findIndex name = none) : dir.find name = -1 := by
  rw [find, h]

theorem find_of_findIndex (h : dir.findIndex name = some i) :
    dir.find name = (dir.table i).sector.toInt := by
  rw [find, h]

theorem findIndex_of_unique (hi : i < dir.tableSize) (huse : (dir.table i).inUse ≠ 0)
    (hname : key (dir.nameOf i) = key name)
    (hother : ∀ j < dir.tableSize, j ≠ i → (dir.table j).inUse ≠ 0 →
      key (dir.nameOf j) ≠ key name) : dir.findIndex name = some i := by
  cases hindex : dir.findIndex name with
  | none => exact absurd hname (findIndex_none hindex hi huse)
  | some j =>
    obtain ⟨hj, huse', hname'⟩ := findIndex_some hindex
    by_contra hne
    exact hother j hj (fun h => hne (by rw [h])) huse' hname'

/-- Only the entries of the table matter. -/
theorem findIndex_congr {dir' : Directory} (hsize : dir'.tableSize = dir.tableSize)
    (htable : ∀ j < dir.tableSize, dir'.table j = dir.table j) :
    dir'.findIndex name = dir.findIndex name := by
  unfold findIndex
  rw [hsize, ← List.head?_filter, ← List.head?_filter]
  congr 1
  apply List.filter_congr
  intro j hj
  unfold nameOf
  rw [htable j (List.mem_range.1 hj)]

/-! ### Adding a name -/

theorem addAt_of_ne (h : j ≠ i) : (dir.addAt i name s).table j = dir.table j :=
  Function.update_of_ne h _ _

theorem addAt_self (dir : Directory) (i : ℕ) (name : Buf) (s : ℤ) :
    ((dir.addAt i name s).table i).inUse = 1 ∧ ((dir.addAt i name s).table i).sector = int s := by
  simp [addAt]

theorem nameOf_addAt_of_ne (h : j ≠ i) : (dir.addAt i name s).nameOf j = dir.nameOf j := by
  unfold nameOf
  rw [addAt_of_ne h]

/-- The new name replaces the one the entry had before. -/
theorem key_addAt (dir : Directory) (i : ℕ) (name : Buf) (s : ℤ) :
    key ((dir.addAt i name s).nameOf i) = key name := by
  apply chars_of_copy
  intro k hk
  have hk' : k < 9 := hk
  have hmod : k % 10 = k := Nat.mod_eq_of_lt (by omega)
  simp [nameOf, addAt, strncpy, hmod, hk']

theorem addAt_congr {dir' : Directory} (hi : dir'.table i = dir.table i)
    (hj : dir'.table j = dir.table j) :
    (dir'.addAt i name s).table j = (dir.addAt i name s).table j := by
  unfold addAt nameOf
  simp only [Function.update_apply, hi, hj]

/-- `Find` finds the entry that `Add` has filled in. -/
theorem findIndex_addAt (h : dir.findIndex name = none) (hi : i < dir.tableSize) (s : ℤ) :
    (dir.addAt i name s).findIndex name = some i := by
  have hi' : i < (dir.addAt i name s).tableSize := hi
  apply findIndex_of_unique hi'
  · rw [(dir.addAt_self i name s).1]
    decide
  · exact dir.key_addAt i name s
  · intro j hj hji huse
    rw [addAt_of_ne hji] at huse
    rw [nameOf_addAt_of_ne hji]
    exact findIndex_none h hj huse

/-- `Add` fills the first unused entry, or fails: the name is there or no entry is unused. -/
theorem add_cases (dir : Directory) (name : Buf) (s : ℤ) :
    dir.add name s = (false, dir) ∧ (dir.findIndex name ≠ none ∨
      ∀ i < dir.tableSize, (dir.table i).inUse ≠ 0) ∨
    ∃ i < dir.tableSize, dir.findIndex name = none ∧ (dir.table i).inUse = 0 ∧
      (∀ j < i, (dir.table j).inUse ≠ 0) ∧ dir.add name s = (true, dir.addAt i name s) := by
  unfold add
  split_ifs with hfound
  · exact Or.inl ⟨rfl, Or.inl (Option.isSome_iff_ne_none.1 hfound)⟩
  · rw [Option.not_isSome_iff_eq_none] at hfound
    cases hfree : (List.range dir.tableSize).find? fun i => (dir.table i).inUse = 0 with
    | none =>
      refine Or.inl ⟨rfl, Or.inr ?_⟩
      intro i hi
      simpa using List.find?_eq_none.1 hfree i (List.mem_range.2 hi)
    | some i =>
      obtain ⟨hunused, hi, hbefore⟩ := List.find?_range_eq_some.1 hfree
      refine Or.inr ⟨i, List.mem_range.1 hi, hfound, of_decide_eq_true hunused, ?_, rfl⟩
      intro j hj
      simpa using hbefore j hj

/-! ### Removing a name -/

theorem remove_of_findIndex (h : dir.findIndex name = some i) :
    dir.remove name = (true, { dir with
      table := Function.update dir.table i { dir.table i with inUse := 0 } }) := by
  rw [remove, h]

/-! ### Whole histories -/

/-- A call of the directory. -/
inductive Call where
  | add (name : Buf) (newSector : CInt)
  | remove (name : Buf)
  | find (name : Buf)

/-- What a call returns. -/
inductive Answer where
  | success (result : Bool)
  | sector (result : ℤ)
  deriving DecidableEq

def call (dir : Directory) : Call → Option (Answer × Directory)
  | .add name newSector =>
    let (result, dir) := dir.add name newSector.toInt
    some (.success result, dir)
  | .remove name =>
    let (result, dir) := dir.remove name
    some (.success result, dir)
  | .find name => some (.sector (dir.find name), dir)

/-- The map from keys to sectors, with room for `tableSize` keys. -/
def mapCall (tableSize : ℕ) (m : Finmap fun _ : List Byte => ℤ) :
    Call → Answer × Finmap fun _ : List Byte => ℤ
  | .add name newSector =>
    let (result, m) := BoundedMap.add tableSize m (key name) newSector.toInt
    (.success result, m)
  | .remove name =>
    let (result, m) := BoundedMap.remove m (key name)
    (.success result, m)
  | .find name => (.sector ((m.lookup (key name)).getD (-1)), m)

/-- What entry `i` stores. -/
def slot (dir : Directory) (i : ℕ) : Option (List Byte × ℤ) :=
  if (dir.table i).inUse ≠ 0 then some (key (dir.nameOf i), (dir.table i).sector.toInt) else none

theorem slot_of_inUse (h : (dir.table i).inUse ≠ 0) :
    dir.slot i = some (key (dir.nameOf i), (dir.table i).sector.toInt) := if_pos h

theorem slot_eq_none : dir.slot i = none ↔ (dir.table i).inUse = 0 := by
  unfold slot
  split_ifs with h <;> simpa using h

theorem slot_addAt (dir : Directory) (i : ℕ) (name : Buf) (newSector : CInt) :
    (dir.addAt i name newSector.toInt).slot =
      Function.update dir.slot i (some (key name, newSector.toInt)) := by
  funext j
  obtain ⟨huse, hsector⟩ := dir.addAt_self i name newSector.toInt
  by_cases hji : j = i
  · subst hji
    rw [Function.update_self, slot_of_inUse (by rw [huse]; decide), key_addAt, hsector, int_toInt]
  · unfold slot
    rw [Function.update_of_ne hji, addAt_of_ne hji, nameOf_addAt_of_ne hji]

theorem slot_remove (h : dir.findIndex name = some i) :
    (dir.remove name).2.slot = Function.update dir.slot i none := by
  rw [remove_of_findIndex h]
  funext j
  by_cases hji : j = i
  · subst hji
    rw [Function.update_self, slot_eq_none]
    simp
  · unfold slot nameOf
    simp only [Function.update_of_ne hji]

/-- The table stores the map. -/
structure Represents (tableSize : ℕ) (dir : Directory) (m : Finmap fun _ : List Byte => ℤ) :
    Prop where
  size : dir.tableSize = tableSize
  stores : BoundedMap.Stores tableSize dir.slot m

namespace Represents

variable {tableSize : ℕ} {m : Finmap fun _ : List Byte => ℤ}

theorem lookup_of_findIndex (h : Represents tableSize dir m) (hindex : dir.findIndex name = some i) :
    i < tableSize ∧ dir.slot i = some (key name, dir.find name) ∧
      m.lookup (key name) = some (dir.find name) := by
  obtain ⟨hi, huse, hname⟩ := findIndex_some hindex
  rw [h.size] at hi
  have hslot : dir.slot i = some (key name, dir.find name) := by
    rw [slot_of_inUse huse, hname, find_of_findIndex hindex]
  exact ⟨hi, hslot, (h.stores.lookup_iff _ _).2 ⟨i, hi, hslot⟩⟩

theorem notMem_of_findIndex (h : Represents tableSize dir m) (hindex : dir.findIndex name = none) :
    key name ∉ m := by
  intro hmem
  obtain ⟨i, hi, v, hslot⟩ := h.stores.mem_iff.1 hmem
  have huse : (dir.table i).inUse ≠ 0 := by
    intro hzero
    rw [slot_eq_none.2 hzero] at hslot
    cases hslot
  rw [slot_of_inUse huse] at hslot
  exact findIndex_none hindex (by rwa [h.size]) huse (Prod.mk.inj (Option.some.inj hslot)).1

theorem mem_iff (h : Represents tableSize dir m) : key name ∈ m ↔ dir.findIndex name ≠ none := by
  cases hindex : dir.findIndex name with
  | none => simp [h.notMem_of_findIndex hindex]
  | some i => simp [Finmap.mem_of_lookup_eq_some (h.lookup_of_findIndex hindex).2.2]

/-- A call answers as the map does. -/
theorem refines (tableSize : ℕ) :
    Calls.Refines call (mapCall tableSize) (fun _ => True) (Represents tableSize) := by
  intro dir m c _ h
  cases c with
  | add name newSector =>
    rcases dir.add_cases name newSector.toInt with ⟨hadd, hwhy⟩ | ⟨i, hi, hindex, hfree, -, hadd⟩
    · -- the name is there, or every slot is in use
      have hfail : BoundedMap.add tableSize m (key name) newSector.toInt = (false, m) := by
        apply if_pos
        rcases hwhy with hfound | hfull
        · exact Or.inl (h.mem_iff.2 hfound)
        · refine Or.inr (h.stores.le_card_of_full ?_)
          intro j hj hslot
          exact hfull j (by rwa [h.size]) (slot_eq_none.1 hslot)
      refine ⟨dir, ?_, ?_⟩
      · simp only [call, mapCall, hadd, hfail]
      · simpa only [mapCall, hfail] using h
    · rw [h.size] at hi
      have hnew := h.notMem_of_findIndex hindex
      have hroom := h.stores.card_lt_of_free hi (slot_eq_none.2 hfree)
      have hdone : BoundedMap.add tableSize m (key name) newSector.toInt =
          (true, m.insert (key name) newSector.toInt) := by
        apply if_neg
        rw [not_or]
        exact ⟨hnew, Nat.not_le.2 hroom⟩
      refine ⟨dir.addAt i name newSector.toInt, ?_, h.size, ?_⟩
      · simp only [call, mapCall, hadd, hdone]
      · simp only [mapCall, hdone]
        rw [slot_addAt]
        exact h.stores.insert hi (slot_eq_none.2 hfree) hnew
  | remove name =>
    cases hindex : dir.findIndex name with
    | none =>
      have hfail : BoundedMap.remove m (key name) = (false, m) :=
        if_neg (h.notMem_of_findIndex hindex)
      refine ⟨dir, ?_, ?_⟩
      · simp only [call, mapCall, hfail, remove, hindex]
      · simpa only [mapCall, hfail] using h
    | some i =>
      obtain ⟨hi, hslot, hlookup⟩ := h.lookup_of_findIndex hindex
      have hdone : BoundedMap.remove m (key name) = (true, m.erase (key name)) :=
        if_pos (Finmap.mem_of_lookup_eq_some hlookup)
      have hsize : (dir.remove name).2.tableSize = dir.tableSize := by
        rw [remove_of_findIndex hindex]
      refine ⟨(dir.remove name).2, ?_, hsize.trans h.size, ?_⟩
      · simp only [call, mapCall, hdone, remove_of_findIndex hindex]
      · simp only [mapCall, hdone]
        rw [slot_remove hindex]
        exact h.stores.erase hi hslot
  | find name =>
    refine ⟨dir, ?_, h⟩
    cases hindex : dir.findIndex name with
    | none =>
      simp only [call, mapCall, find_of_findIndex_none hindex,
        Finmap.lookup_eq_none.2 (h.notMem_of_findIndex hindex), Option.getD_none]
    | some i =>
      simp only [call, mapCall, (h.lookup_of_findIndex hindex).2.2, Option.getD_some]

end Represents

/-- **The directory is a bounded map on truncated names**: from an empty directory of any size, any
sequence of calls is answered as by the map, which never has more than `tableSize` keys; and no two
entries in use have the same key. -/
theorem bounded_map (garbage : ℕ → DirectoryEntry) (tableSize : ℕ) (calls : List Call) :
    (Calls.runSpec (mapCall tableSize) ∅ calls).2.keys.card ≤ tableSize ∧
    ∃ dir, Calls.run call (new garbage tableSize) calls =
        some ((Calls.runSpec (mapCall tableSize) ∅ calls).1, dir) ∧
      dir.tableSize = tableSize ∧
      ∀ i < tableSize, ∀ j < tableSize, (dir.table i).inUse ≠ 0 → (dir.table j).inUse ≠ 0 →
        key (dir.nameOf i) = key (dir.nameOf j) → i = j := by
  have hstart : Represents tableSize (new garbage tableSize) ∅ :=
    ⟨rfl, .empty fun i _ => slot_eq_none.2 rfl⟩
  obtain ⟨dir, hrun, hend⟩ :=
    (Represents.refines tableSize).run calls (fun _ _ => trivial) hstart
  refine ⟨hend.stores.card_le, dir, hrun, hend.size, ?_⟩
  intro i hi j hj huse huse' hkey
  apply hend.stores.distinct i hi j hj _ _ _ (slot_of_inUse huse)
  rw [hkey]
  exact slot_of_inUse huse'

end Directory

end Nachos
