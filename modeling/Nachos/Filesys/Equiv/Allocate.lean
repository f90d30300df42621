import Nachos.Filesys.Equiv.FileSystem

/-!
## What `Allocate` takes and what `Deallocate` gives back

* `allocate_safe_iff`: when `Allocate` records only sectors that were clear and that it has marked, or
  returns FALSE with the map unchanged.  It does not when the sectors of a short file are scattered,
  when the disk has exactly the sectors of a longer file and none for its second-level table, and when
  the file has more than 57 sectors.
* `deallocate_allocate_iff`: when `Deallocate` restores the map.  It does not when a sector in the
  second-level table is 128 or above, since it reads one `char` of each entry.
-/

namespace Nachos

open Storage Memory

namespace FileHeader

variable {ab : Prop} {d d' : Disk} {h h₀ : FileHeader} {m m' : BitMap} {size : ℕ} {l : List ℕ}
  {table : Sector}

/-! ### The free map before and after -/

theorem Takes.perm_clears (ht : Takes m l m') : m.clears.Perm (l ++ m'.clears) := by
  have hclears : ∀ s, s ∈ m'.clears ↔ s ∉ l ∧ s ∈ m.clears := by
    intro s
    rw [BitMap.mem_clears, BitMap.mem_clears, ht.numBits, ht.bit, Bool.or_eq_false_iff,
      decide_eq_false_iff_not]
    tauto
  have hnodup : (l ++ m'.clears).Nodup := by
    apply List.Nodup.append ht.nodup m'.clears_nodup
    intro s hs hs'
    exact ((hclears s).1 hs').1 hs
  apply (List.perm_ext_iff_of_nodup m.clears_nodup hnodup).2
  intro s
  rw [List.mem_append, hclears]
  by_cases hs : s ∈ l
  · have hfree := BitMap.mem_clears.2 (ht.free s hs)
    simp only [hs, hfree, true_or]
  · simp only [hs, false_or, not_false_eq_true, true_and]

/-- The sectors `l` are on the disk and pairwise distinct, were clear in `m` and are marked in `m'`,
and there are as many clear sectors less. -/
structure Obtains (m : BitMap) (l : List ℤ) (m' : BitMap) : Prop where
  inRange : ∀ s ∈ l, Disk.InRange s
  nodup : l.Nodup
  clear : ∀ s ∈ l, m.bit s.toNat = false
  marked : ∀ s ∈ l, m'.bit s.toNat = true
  numClear : m'.numClear + l.length = m.numClear

theorem Takes.obtains (ht : Takes m l m') (hbits : m.numBits ≤ NumSectors) :
    Obtains m (l.map Int.ofNat) m' := by
  have hmem : ∀ s ∈ l.map Int.ofNat, ∃ x ∈ l, s = (x : ℤ) := by
    intro s hs
    obtain ⟨x, hx, rfl⟩ := List.mem_map.1 hs
    exact ⟨x, hx, rfl⟩
  refine ⟨?_, ht.nodup.map fun _ _ => Int.ofNat.inj, ?_, ?_, ?_⟩
  · intro s hs
    obtain ⟨x, hx, rfl⟩ := hmem s hs
    have hlt := (ht.free x hx).1
    exact ⟨Int.natCast_nonneg x, Int.ofNat_lt.2 (by omega)⟩
  · intro s hs
    obtain ⟨x, hx, rfl⟩ := hmem s hs
    exact (ht.free x hx).2
  · intro s hs
    obtain ⟨x, hx, rfl⟩ := hmem s hs
    rw [Int.toNat_natCast, ht.bit, decide_eq_true hx, Bool.true_or]
  · rw [BitMap.numClear_eq, BitMap.numClear_eq, ht.perm_clears.length_eq, List.length_append,
      List.length_map, Nat.add_comm]

/-! ### What `Allocate` does with a file of more than 26 sectors -/

/-- Every clear sector has the number it is stored as. -/
theorem toInt_clear (hbits : m.numBits ≤ NumSectors) (i : ℕ) :
    (int (m.clears.getD i 0 : ℕ)).toInt = (m.clears.getD i 0 : ℕ) := by
  apply toInt_int_natCast
  by_cases hi : i < m.clears.length
  · rw [List.getD_eq_getElem _ _ hi]
    have hlt := (BitMap.mem_clears.1 (m.clears.getElem_mem hi)).1
    have hmax : NumSectors < 2 ^ 31 := by decide
    omega
  · rw [List.getD_eq_default _ _ (by omega)]
    decide

theorem listed_of_lt {n : ℕ} (hn : NumDirect < n) (hmax : n < 2 ^ 32)
    (hns : h.numSectors = int (n : ℕ)) : h.listed d = h.table ++ (List.range (n - 25)).map fun j =>
      (Layout.decodeArray (d (h.dataSectors 25).toInt.toNat).bytes j : CInt).toInt := by
  rw [listed, hns, toNat_int_natCast hmax, if_neg (by omega)]
  rfl

/-- The sectors of a file that has been allocated with room for its table. -/
theorem listed_indexed (hbits : m.numBits ≤ NumSectors) (hn : NumDirect < sectorsFor size)
    (hmax : sectorsFor size ≤ 57) (hroom : sectorsFor size + 1 ≤ m.clears.length)
    (hns : h.numSectors = int (sectorsFor size : ℕ))
    (hdata : ∀ i < NumDirect, h.dataSectors (Fin.ofNat NumDirect i) = int (m.clears.getD i 0 : ℕ))
    (htable : ∀ j < sectorsFor size - 25, (Layout.decodeArray table.bytes j : CInt)
      = int (m.clears.getD (NumDirect + j) 0 : ℕ)) :
    h.listed (Function.update d (m.clears.getD 25 0) table)
      = (m.clears.take (sectorsFor size + 1)).map Int.ofNat := by
  have hn' : 26 < sectorsFor size := hn
  have hindex : (h.dataSectors 25).toInt.toNat = m.clears.getD 25 0 := by
    rw [show (25 : Fin NumDirect) = Fin.ofNat NumDirect 25 from rfl, hdata 25 (by decide),
      toInt_clear hbits, Int.toNat_natCast]
  rw [listed_of_lt hn (by omega) hns, hindex, Function.update_self]
  have hlen : h.table.length = 26 := length_table h
  apply List.ext_getElem
  · rw [List.length_append, List.length_map, List.length_range, List.length_map, List.length_take,
      hlen]
    omega
  intro i h1 h2
  have hi : i < sectorsFor size + 1 := by
    rw [List.length_map, List.length_take] at h2
    omega
  have hget : ((m.clears.take (sectorsFor size + 1)).map Int.ofNat)[i] = (m.clears.getD i 0 : ℕ) := by
    rw [List.getElem_map, List.getElem_take, List.getD_eq_getElem _ _ (by omega)]
    rfl
  rw [hget, List.getElem_append]
  split_ifs with hi26
  · rw [getElem_table, hdata i (by rw [hlen] at hi26; exact hi26), toInt_clear hbits]
  · rw [hlen] at hi26
    have hsum : NumDirect + (i - 26) = i := by
      simp only [NumDirect]
      omega
    rw [List.getElem_map, List.getElem_range, htable _ (by rw [hlen]; omega), hlen, hsum,
      toInt_clear hbits]

/-- Without room for the table, the last entry of it is `-1`. -/
theorem wp_allocate_overdrawn (hbits : m.numBits ≤ NumSectors) (hn : NumDirect < sectorsFor size)
    (hmax : sectorsFor size ≤ 57) (hroom : sectorsFor size = m.clears.length) :
    (h.allocate m size).wp ab (fun r d' => r.1 = true ∧ (-1 : ℤ) ∈ r.2.1.listed d') d := by
  have hn' : 26 < sectorsFor size := hn
  apply wp_allocate_table hbits hn hmax hroom.le
  intro h' table _ hns hdata htable
  refine ⟨rfl, ?_⟩
  have hindex : (h'.dataSectors 25).toInt.toNat = m.clears.getD 25 0 := by
    rw [show (25 : Fin NumDirect) = Fin.ofNat NumDirect 25 from rfl, hdata 25 (by decide),
      toInt_clear hbits, Int.toNat_natCast]
  have hshort : (-1 : ℤ) ∈ (tableOf m size).1 := by
    apply BitMap.findMany_short
    rw [(BitMap.findMany_spec (by omega)).2.2.1, List.length_drop]
    simp only [NumDirect]
    omega
  obtain ⟨j, hj, hentry⟩ := List.mem_iff_getElem.1 hshort
  have hj' : j < sectorsFor size - 25 := by
    rwa [tableOf, BitMap.length_findMany] at hj
  rw [listed_of_lt hn (by omega) hns]
  apply List.mem_append_right
  apply List.mem_map.2
  refine ⟨j, List.mem_range.2 hj', ?_⟩
  rw [hindex, Function.update_self, htable j hj, List.get_eq_getElem, hentry]
  rfl

/-! ### When `Allocate` returns -/

theorem wp_allocate_full (hfull : m.clears.length < sectorsFor size)
    {Q : Bool × FileHeader × BitMap → Disk → Prop} (hQ : ∀ h', Q (false, h', m) d) :
    (h.allocate m size).wp ab Q d := by
  have hdiv : divRoundUp size (SectorSize : ℕ) = (sectorsFor size : ℕ) :=
    divRoundUp_eq size (by decide)
  unfold allocate
  simp only [hdiv, Prog.wp_do]
  refine wp_setCreatTime fun t₁ => wp_setLastVisitTime fun t₂ => wp_setLastModifyTime fun t₃ => ?_
  rw [BitMap.numClear_eq, if_pos (by omega), Prog.wp_pure]
  exact hQ _

/-- The search for a run does not return. -/
theorem wp_allocate_scattered (hn : sectorsFor size ≤ NumDirect)
    (hroom : sectorsFor size ≤ m.clears.length)
    (hnone : m.firstFind (sectorsFor size : ℕ) = none) :
    (h.allocate m size).wp True (fun _ _ => False) d := by
  have hdiv : divRoundUp size (SectorSize : ℕ) = (sectorsFor size : ℕ) :=
    divRoundUp_eq size (by decide)
  have hn' : sectorsFor size ≤ 26 := hn
  have hnat : (int (sectorsFor size : ℕ)).toNat = sectorsFor size := toNat_int_natCast (by omega)
  unfold allocate
  simp only [hdiv, hnat, Prog.wp_do]
  refine wp_setCreatTime fun t₁ => wp_setLastVisitTime fun t₂ => wp_setLastModifyTime fun t₃ => ?_
  rw [BitMap.numClear_eq, if_neg (by omega), if_pos hn, Prog.wp_do, hnone, Prog.wp_ofOption_none]
  trivial

/-- More than 32 entries do not fit the array for the second-level table. -/
theorem wp_allocate_overflow (hmax : 57 < sectorsFor size) (hsize : size < 2 ^ 31)
    (hroom : sectorsFor size ≤ m.clears.length) :
    (h.allocate m size).wp True (fun _ _ => False) d := by
  have hdiv : divRoundUp size (SectorSize : ℕ) = (sectorsFor size : ℕ) :=
    divRoundUp_eq size (by decide)
  have hlt : sectorsFor size < 2 ^ 32 := by
    simp only [sectorsFor, SectorSize]
    omega
  have hnat : (int (sectorsFor size : ℕ)).toNat = sectorsFor size := toNat_int_natCast hlt
  unfold allocate
  simp only [hdiv, hnat, Prog.wp_do]
  refine wp_setCreatTime fun t₁ => wp_setLastVisitTime fun t₂ => wp_setLastModifyTime fun t₃ => ?_
  rw [BitMap.numClear_eq, if_neg (by omega), if_neg (by simp only [NumDirect]; omega),
    if_neg (by simp only [NumDirect]; omega), Prog.wp_abort]
  trivial

/-- The outcomes that are wanted of `Allocate`: the sectors recorded are obtained, and the
second-level table has at most 32 entries; or FALSE, and the map unchanged. -/
def Allocated (m : BitMap) (r : Bool × FileHeader × BitMap) (d' : Disk) : Prop :=
  if r.1 then
    Obtains m (r.2.1.listed d') r.2.2 ∧ r.2.1.numSectors.toNat - (NumDirect - 1) ≤ SectorSize / 4
  else r.2.2 = m

/-- There is no room for `n` sectors; or there is, and the `n` sectors of a short file are in one run,
or there is also room for the second-level table of a longer file. -/
def AllocatesWell (m : BitMap) (n : ℕ) : Prop :=
  m.numClear < n ∨ n ≤ NumDirect ∧ (∃ i, m.ClearRun i n) ∨
    NumDirect < n ∧ n ≤ 57 ∧ n < m.numClear

theorem firstFind_eq_none_of (hbits : m.numBits = NumSectors) {n : ℕ} (hroom : n ≤ m.clears.length)
    (hrun : ¬ ∃ i, m.ClearRun i n) : m.firstFind n = none := by
  have hpos : 0 < m.numBits := by
    rw [hbits]
    decide
  apply BitMap.firstFind_eq_none hpos
  · -- one clear bit is a run
    rintro rfl
    obtain ⟨s, hs⟩ := List.exists_mem_of_length_pos hroom
    obtain ⟨hlt, hclear⟩ := BitMap.mem_clears.1 hs
    refine hrun ⟨s, hlt, ?_⟩
    intro j hj
    obtain rfl : j = 0 := by omega
    exact hclear
  · intro i _ hi
    exact hrun ⟨i, hi⟩

theorem wp_allocate_of_well (hbits : m.numBits = NumSectors) (hwell : AllocatesWell m (sectorsFor size)) :
    (h.allocate m size).wp False (Allocated m) d := by
  by_cases hroom : m.clears.length < sectorsFor size
  · apply wp_allocate_full hroom
    intro h'
    rfl
  rcases hwell with hfull | ⟨hn, i, hrun⟩ | ⟨hn, hmax, hclear⟩
  · rw [BitMap.numClear_eq] at hfull
    omega
  · apply wp_allocate_direct hn
    · intro hfull
      omega
    · intro h' m' l hlen hl ht _
      have hn' : l.length ≤ NumDirect := hlen ▸ hn
      have hlisted : h'.listed d = l.map Int.ofNat := by
        apply hl.listed_eq hn'
        intro s hs
        exact hbits ▸ (ht.free s hs).1
      show Obtains m (h'.listed d) m' ∧ h'.numSectors.toNat - (NumDirect - 1) ≤ SectorSize / 4
      rw [hlisted, hl.numSectors, toNat_int_natCast (hn'.trans_lt (by decide))]
      refine ⟨ht.obtains hbits.le, ?_⟩
      simp only [NumDirect, SectorSize] at hn' ⊢
      omega
    · intro hnone
      have hpos : 0 < m.numBits := by
        rw [hbits]
        decide
      obtain ⟨j, hj, hjrun⟩ := hrun.exists_lt hpos
      have hex : ∃ r, m.firstFind (sectorsFor size : ℕ) = some r := BitMap.exists_firstFind hj hjrun
      rw [hnone] at hex
      exact nomatch hex
  · rw [BitMap.numClear_eq] at hclear
    apply wp_allocate_indexed hbits.le hn hmax hclear
    intro h' m' table _ hns hdata htable ht
    show Obtains m (h'.listed _) m' ∧ h'.numSectors.toNat - (NumDirect - 1) ≤ SectorSize / 4
    rw [listed_indexed hbits.le hn hmax hclear hns hdata htable, hns, toNat_int_natCast (by omega)]
    refine ⟨ht.obtains hbits.le, ?_⟩
    simp only [NumDirect, SectorSize]
    omega

/-- **`Allocate` hands out what it has** exactly when there is no room at all, when a short file fits
into one run, and when a longer one of at most 57 sectors has room for its table as well. -/
theorem allocate_safe_iff (h : FileHeader) (d : Disk) (hbits : m.numBits = NumSectors)
    (hsize : size < 2 ^ 31) :
    (h.allocate m size).wp False (Allocated m) d ↔ AllocatesWell m (sectorsFor size) := by
  constructor
  swap
  · exact wp_allocate_of_well hbits
  intro hwp
  by_contra hnot
  unfold AllocatesWell at hnot
  rw [BitMap.numClear_eq] at hnot
  obtain ⟨r, d', hrun, hr⟩ := Prog.exists_yields_of_wp hwp
  by_cases hn : sectorsFor size ≤ NumDirect
  · have hnone : m.firstFind (sectorsFor size : ℕ) = none := by
      apply firstFind_eq_none_of hbits (by omega)
      intro hex
      exact hnot (Or.inr (Or.inl ⟨hn, hex⟩))
    exact hrun.of_wp (wp_allocate_scattered hn (by omega) hnone)
  by_cases hmax : sectorsFor size ≤ 57
  · have hlen : sectorsFor size = m.clears.length := by omega
    obtain ⟨htrue, hmem⟩ := hrun.of_wp (wp_allocate_overdrawn hbits.le (by omega) hmax hlen)
    rw [Allocated, htrue, if_pos rfl] at hr
    exact absurd (hr.1.inRange _ hmem).1 (by decide)
  · exact hrun.of_wp (wp_allocate_overflow (by omega) hsize (by omega))

/-- 26 sectors of an empty disk. -/
theorem allocate_safe_iff_short :
    (zero.allocate (.allClear NumSectors) (26 * SectorSize : ℕ)).wp False
      (Allocated (.allClear NumSectors)) blank := by
  apply (allocate_safe_iff zero blank rfl (by decide)).2
  refine Or.inr (Or.inl ⟨by decide, 0, by decide, ?_⟩)
  intro j _
  exact BitMap.bit_allClear _ _

/-- A map with the first 27 sectors clear and no others. -/
def last27 : BitMap := ⟨NumSectors, fun k => if k = 0 then 0xF8000000 else 0xFFFFFFFF⟩

/-- With 27 clear sectors, `Allocate` creates a file of 27 sectors: the sector of its last block is
`-1`. -/
theorem no_room_for_table : ∃ h m' d',
    (zero.allocate last27 (27 * SectorSize : ℕ)).Yields blank (true, h, m') d' ∧
      (-1 : ℤ) ∈ h.listed d' ∧ ¬ Allocated last27 (true, h, m') d' := by
  have hclears : sectorsFor (27 * SectorSize) = last27.clears.length := by
    rw [← BitMap.numClear_eq]
    decide +kernel
  have hwp : (zero.allocate last27 (27 * SectorSize : ℕ)).wp False
      (fun r d' => r.1 = true ∧ (-1 : ℤ) ∈ r.2.1.listed d') blank :=
    wp_allocate_overdrawn le_rfl (by decide) (by decide) hclears
  obtain ⟨⟨_, h, m'⟩, d', hrun, rfl, hmem⟩ := Prog.exists_yields_of_wp hwp
  refine ⟨h, m', d', hrun, hmem, ?_⟩
  rintro ⟨hobtains, -⟩
  exact absurd (hobtains.inRange _ hmem).1 (by decide)

/-! ### Giving sectors back -/

theorem clearSectors_append (m : BitMap) (l l' : List ℤ) :
    clearSectors m (l ++ l') = (clearSectors m l).bind (clearSectors · l') := by
  induction l generalizing m with
  | nil => rfl
  | cons s l ih =>
    rw [List.cons_append, clearSectors, clearSectors]
    cases m.clear s with
    | none => rfl
    | some m₁ => exact ih m₁

theorem clearSectors_spec {l : List ℤ} (h : clearSectors m l = some m') :
    m'.numBits = m.numBits ∧ ∀ s : ℕ, m'.bit s = (decide ((s : ℤ) ∉ l) && m.bit s) := by
  induction l generalizing m with
  | nil =>
    obtain rfl := Option.some.inj h
    simp
  | cons x l ih =>
    rw [clearSectors, BitMap.clear] at h
    split_ifs at h with hx
    · obtain ⟨hnum, hbit⟩ := ih h
      refine ⟨hnum, ?_⟩
      intro s
      have hsx : (s : ℤ) = x ↔ s = x.toNat := by
        have := hx.1
        omega
      rw [hbit, BitMap.bit_clearBit, ← Bool.and_assoc, ← Bool.decide_and]
      congr 1
      rw [decide_eq_decide, List.mem_cons, hsx]
      tauto
    · cases h

theorem exists_clearSectors {l : List ℤ} (hl : ∀ s ∈ l, m.InRange s) :
    ∃ m', clearSectors m l = some m' := by
  induction l generalizing m with
  | nil => exact ⟨m, rfl⟩
  | cons x l ih =>
    rw [List.forall_mem_cons] at hl
    rw [clearSectors, BitMap.clear, if_pos hl.1]
    exact ih hl.2

/-- Clearing what was taken restores the map. -/
theorem Takes.restored {m'' : BitMap} (ht : Takes m l m') (hnum : m''.numBits = m'.numBits)
    (hbit : ∀ s, m''.bit s = (decide (s ∉ l) && m'.bit s)) : m'' = m := by
  apply BitMap.ext_bit (hnum.trans ht.numBits)
  intro s
  rw [hbit, ht.bit]
  by_cases hs : s ∈ l
  · simp [hs, (ht.free s hs).2]
  · simp [hs]

/-- The sectors that `Deallocate` takes from a second-level table. -/
def cells (table : Sector) (count : ℕ) : List ℤ :=
  (List.range count).map fun j => (table.bytes (j * 4)).toInt

theorem cells_lt {count : ℕ} {s : ℤ} (h : s ∈ cells table count) : s < 128 := by
  obtain ⟨j, -, rfl⟩ := List.mem_map.1 h
  have hlt := BitVec.toInt_lt (x := table.bytes (j * 4))
  simpa using hlt

theorem wp_deallocate_indexed {n t : ℕ} (hn : NumDirect < n) (hmax : n ≤ 57)
    (hns : h.numSectors = int (n : ℕ)) (ht : t < NumSectors) (hindex : (h.dataSectors 25).toInt = t)
    {Q : BitMap → Disk → Prop} :
    (h.deallocate m).wp False Q d ↔
      ∃ m'', clearSectors m (cells (d t) (n - 25) ++ h.table) = some m'' ∧ Q m'' d := by
  have hnat : (int (n : ℕ)).toNat = n := toNat_int_natCast (by omega)
  have hcount : n - (NumDirect - 1) = n - 25 := rfl
  rw [deallocate, hns, hnat, if_neg (by omega), Prog.wp_do, hindex, wp_readSector ht, hcount,
    if_pos (by omega), Prog.wp_do, clearSectors_append]
  show Prog.wp False _ (Prog.ofOption (clearSectors m (cells (d t) (n - 25)))) d ↔ _
  cases clearSectors m (cells (d t) (n - 25)) with
  | none => simp
  | some m₁ =>
    rw [Prog.wp_ofOption_some, Option.bind_some]
    cases clearSectors m₁ h.table with
    | none => simp
    | some m₂ => simp

/-- The header's table and the cells of the second-level table are the sectors allocated when these
are below 128. -/
theorem mem_cells_append_table (hbits : m.numBits ≤ NumSectors) (hn : NumDirect < sectorsFor size)
    (hmax : sectorsFor size ≤ 57) (hroom : sectorsFor size + 1 ≤ m.clears.length)
    (hns : h.numSectors = int (sectorsFor size : ℕ))
    (hdata : ∀ i < NumDirect, h.dataSectors (Fin.ofNat NumDirect i) = int (m.clears.getD i 0 : ℕ))
    (htable : ∀ j < sectorsFor size - 25, (Layout.decodeArray table.bytes j : CInt)
      = int (m.clears.getD (NumDirect + j) 0 : ℕ))
    (hlow : ∀ j < sectorsFor size - 25, m.clears.getD (NumDirect + j) 0 < 128) (s : ℤ) :
    s ∈ cells table (sectorsFor size - 25) ++ h.table ↔
      s ∈ (m.clears.take (sectorsFor size + 1)).map Int.ofNat := by
  have hindex : (h.dataSectors 25).toInt.toNat = m.clears.getD 25 0 := by
    rw [show (25 : Fin NumDirect) = Fin.ofNat NumDirect 25 from rfl, hdata 25 (by decide),
      toInt_clear hbits, Int.toNat_natCast]
  rw [← listed_indexed (d := fun _ => table) hbits hn hmax hroom hns hdata htable,
    listed_of_lt hn (by omega) hns, hindex, Function.update_self, List.mem_append, List.mem_append,
    or_comm, cells]
  have hcells : (List.range (sectorsFor size - 25)).map (fun j => (table.bytes (j * 4)).toInt) =
      (List.range (sectorsFor size - 25)).map fun j =>
        (Layout.decodeArray table.bytes j : CInt).toInt := by
    apply List.map_congr_left
    intro j hj
    have hj' := List.mem_range.1 hj
    have hlt : m.clears.getD (NumDirect + j) 0 < NumSectors := (hlow j hj').trans (by decide)
    rw [(toInt_lowByte hlt (htable j hj')).2 (hlow j hj'), htable j hj', toInt_clear hbits]
  rw [hcells]

/-- A file of at most 26 sectors gives back what it was given. -/
theorem wp_allocate_restored (hbits : m.numBits = NumSectors) (hn : sectorsFor size ≤ NumDirect) :
    (h₀.allocate m size).wp True (fun r d' => r.1 = true →
      (r.2.1.deallocate r.2.2).wp False (fun m'' _ => m'' = m) d') d := by
  apply wp_allocate_direct hn
  · intro _ h' hfalse
    cases hfalse
  · intro h' m' l hlen hl ht _ _
    have hlen' : l.length ≤ NumDirect := hlen ▸ hn
    have hmarked : ∀ s ∈ l, s < m'.numBits ∧ m'.bit s = true := by
      intro s hs
      refine ⟨ht.numBits.symm ▸ (ht.free s hs).1, ?_⟩
      rw [ht.bit, decide_eq_true hs, Bool.true_or]
    apply wp_deallocate_direct ?_ (hl.listed_eq hlen' ?_) ht.nodup hmarked
    · intro m'' hnum hbit
      exact ht.restored hnum hbit
    · rw [hl.numSectors, toNat_int_natCast (hlen'.trans_lt (by decide))]
      exact hlen'
    · intro s hs
      exact hbits ▸ (ht.free s hs).1
  · exact fun _ => trivial

section Indexed

variable (hbits : m.numBits = NumSectors) (hn : NumDirect < sectorsFor size)
  (hmax : sectorsFor size ≤ 57) (hroom : sectorsFor size + 1 ≤ m.clears.length)
  (hns : h.numSectors = int (sectorsFor size : ℕ))
  (hdata : ∀ i < NumDirect, h.dataSectors (Fin.ofNat NumDirect i) = int (m.clears.getD i 0 : ℕ))
  (htable : ∀ j < sectorsFor size - 25, (Layout.decodeArray table.bytes j : CInt)
    = int (m.clears.getD (NumDirect + j) 0 : ℕ))
  (ht : Takes m (m.clears.take (sectorsFor size + 1)) m')

include hbits hn hroom hdata ht in
/-- The last sector of the file is given back only if it is the value of a `char`. -/
theorem last_lt_of_restored
    (hclear : clearSectors m' (cells table (sectorsFor size - 25) ++ h.table) = some m) :
    m.clears.getD (sectorsFor size) 0 < 128 := by
  have hn' : 26 < sectorsFor size := hn
  have hmem : m.clears.getD (sectorsFor size) 0 ∈ m.clears.take (sectorsFor size + 1) := by
    rw [List.getD_eq_getElem _ _ (by omega)]
    exact List.mem_iff_getElem.2 ⟨sectorsFor size, by rw [List.length_take]; omega,
      List.getElem_take⟩
  have hfree := (ht.free _ hmem).2
  rw [(clearSectors_spec hclear).2, ht.bit, decide_eq_true hmem, Bool.true_or, Bool.and_true,
    decide_eq_false_iff_not, not_not, List.mem_append] at hfree
  rcases hfree with hcell | htab
  · have hlt := cells_lt hcell
    omega
  · -- the header's table has the sectors before it
    obtain ⟨i, hi, hget⟩ := List.mem_iff_getElem.1 htab
    have hi' : i < 26 := by rwa [length_table] at hi
    rw [getElem_table, hdata i hi', toInt_clear hbits.le, Int.natCast_inj,
      List.getD_eq_getElem _ _ (by omega), List.getD_eq_getElem _ _ (by omega),
      m.clears_nodup.getElem_inj_iff] at hget
    omega

include hbits hn hmax hroom hns hdata htable ht in
theorem restored_of_low
    (hlow : ∀ j < sectorsFor size - 25, m.clears.getD (NumDirect + j) 0 < 128) :
    clearSectors m' (cells table (sectorsFor size - 25) ++ h.table) = some m := by
  have hmem := mem_cells_append_table hbits.le hn hmax hroom hns hdata htable hlow
  have hrange : ∀ s ∈ cells table (sectorsFor size - 25) ++ h.table, m'.InRange s := by
    intro s hs
    have hs' := (ht.obtains hbits.le).inRange s ((hmem s).1 hs)
    rw [BitMap.InRange, ht.numBits, hbits]
    exact hs'
  obtain ⟨m'', hm''⟩ := exists_clearSectors hrange
  obtain ⟨hnum, hbit⟩ := clearSectors_spec hm''
  rw [hm'', Option.some.injEq]
  apply ht.restored hnum
  intro s
  rw [hbit]
  congr 1
  rw [decide_eq_decide, hmem, not_iff_not, List.mem_map]
  constructor
  · rintro ⟨x, hx, hxs⟩
    exact Int.ofNat.inj hxs ▸ hx
  · intro hs
    exact ⟨s, hs, rfl⟩

end Indexed

/-- A longer file gives back what it was given when its last sector is below 128. -/
theorem wp_allocate_restored_iff (hbits : m.numBits = NumSectors) (hn : NumDirect < sectorsFor size)
    (hmax : sectorsFor size ≤ 57) (hroom : sectorsFor size + 1 ≤ m.clears.length) :
    (h₀.allocate m size).wp ab (fun r d' => r.1 = true ∧
      ((r.2.1.deallocate r.2.2).wp False (fun m'' _ => m'' = m) d' ↔
        m.clears.getD (sectorsFor size) 0 < 128)) d := by
  have hn' : 26 < sectorsFor size := hn
  apply wp_allocate_indexed hbits.le hn hmax hroom
  intro h' m' table _ hns hdata htable ht
  have h25 : m.clears.getD 25 0 < NumSectors := by
    rw [List.getD_eq_getElem _ _ (by omega), ← hbits]
    exact (BitMap.mem_clears.1 (m.clears.getElem_mem (by omega))).1
  have hindex : (h'.dataSectors 25).toInt = (m.clears.getD 25 0 : ℕ) := by
    rw [show (25 : Fin NumDirect) = Fin.ofNat NumDirect 25 from rfl, hdata 25 (by decide),
      toInt_clear hbits.le]
  refine ⟨rfl, ?_⟩
  rw [wp_deallocate_indexed hn hmax hns h25 hindex, Function.update_self]
  constructor
  · rintro ⟨_, hclear, rfl⟩
    exact last_lt_of_restored hbits hn hroom hdata ht hclear
  · intro hlast
    refine ⟨m, ?_, rfl⟩
    apply restored_of_low hbits hn hmax hroom hns hdata htable ht
    -- the sectors are in increasing order
    intro j hj
    have hlt : NumDirect + j < m.clears.length := by
      simp only [NumDirect]
      omega
    rw [List.getD_lt_iff_of_sorted m.clears_sorted (by omega)] at hlast
    rw [List.getD_lt_iff_of_sorted m.clears_sorted hlt]
    simp only [NumDirect]
    omega

/-- **`Deallocate` inverts `Allocate`** exactly for files of at most 26 sectors and for longer ones
whose sectors are all below 128. -/
theorem deallocate_allocate_iff (hbits : m.numBits = NumSectors) (hmax : size ≤ 57 * SectorSize)
    (hroom : sectorsFor size + 1 ≤ m.numClear)
    (hrun : (h₀.allocate m size).Yields d (true, h, m') d') :
    (h.deallocate m').wp False (fun m'' _ => m'' = m) d' ↔
      sectorsFor size ≤ NumDirect ∨ sectorsFor size + 1 ≤ (m.clears.filter (· < 128)).length := by
  have hmax' : sectorsFor size ≤ 57 := by
    simp only [sectorsFor, SectorSize] at hmax ⊢
    omega
  rw [BitMap.numClear_eq] at hroom
  by_cases hn : sectorsFor size ≤ NumDirect
  · exact iff_of_true (hrun.of_wp (wp_allocate_restored hbits hn) rfl) (Or.inl hn)
  · have hiff := (hrun.of_wp (wp_allocate_restored_iff hbits (by omega) hmax' hroom)).2
    rw [hiff, List.getD_lt_iff_of_sorted m.clears_sorted (by omega), or_iff_right hn]

/-- A file of 27 sectors on an empty disk. -/
theorem deallocate_allocate_iff_27 : ∃ h m' d',
    (zero.allocate (.allClear NumSectors) (27 * SectorSize : ℕ)).Yields blank (true, h, m') d' ∧
      (h.deallocate m').wp False (fun m'' _ => m'' = .allClear NumSectors) d' := by
  have hroom : sectorsFor (27 * SectorSize) + 1 ≤ (BitMap.allClear NumSectors).clears.length := by
    rw [BitMap.clears_allClear, List.length_range]
    decide
  obtain ⟨h, m', d', hrun⟩ := exists_allocate_indexed zero blank (m := .allClear NumSectors)
    le_rfl (by decide) (by decide) hroom
  refine ⟨h, m', d', hrun, ?_⟩
  apply (deallocate_allocate_iff rfl (by decide) (by rwa [BitMap.numClear_eq]) hrun).2
  rw [BitMap.clears_allClear]
  exact Or.inr (by decide +kernel)

/-- A map with the first 128 sectors marked. -/
def above128 : BitMap := ⟨NumSectors, fun k => if k < 4 then 0xFFFFFFFF else 0⟩

/-- A file of 27 sectors, all of them above 128, is created and cannot be freed. -/
theorem high_sectors_not_freed : ∃ h m' d',
    (zero.allocate above128 (27 * SectorSize : ℕ)).Yields blank (true, h, m') d' ∧
      ¬ (h.deallocate m').wp False (fun m'' _ => m'' = above128) d' := by
  have hroom : sectorsFor (27 * SectorSize) + 1 ≤ above128.clears.length := by
    rw [← BitMap.numClear_eq]
    decide +kernel
  have hwp : (zero.allocate above128 (27 * SectorSize : ℕ)).wp False (fun r d' => r.1 = true ∧
      ((r.2.1.deallocate r.2.2).wp False (fun m'' _ => m'' = above128) d' ↔
        above128.clears.getD (sectorsFor (27 * SectorSize)) 0 < 128)) blank :=
    wp_allocate_restored_iff rfl (by decide) (by decide) hroom
  obtain ⟨⟨_, h, m'⟩, d', hrun, rfl, hiff⟩ := Prog.exists_yields_of_wp hwp
  refine ⟨h, m', d', hrun, ?_⟩
  rw [hiff]
  decide +kernel

end FileHeader

end Nachos
