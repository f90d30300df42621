import Mathlib.Data.List.GetD
import Nachos.Filesys.FileHeader
import Nachos.Lib.Lists
import Nachos.Userprog.Equiv.Bitmap

/-!
## Allocation and lookup of the blocks of a file

`Maps h d i s` says that `ByteToSector` sends block `i` of the file with header `h` to the sector `s`
on the disk `d`.  `block` is where `Allocate` has put that block.  The two agree for the blocks
below 25, for block 25 of a file of 26 sectors only by accident (`ByteToSector` takes the data
sector for a second-level table), and for the blocks of a second-level table when the sector
number fits in a `char`.
-/

namespace Nachos

open Storage Memory

variable {ab : Prop} {d : Disk}

namespace FileHeader

/-- `ByteToSector` finds block `i` in sector `s`. -/
def Maps (h : FileHeader) (d : Disk) (i s : ℕ) : Prop :=
  s < NumSectors ∧
    (i < 25 ∧ (h.dataSectors (Fin.ofNat NumDirect i)).toInt = s ∨
      25 ≤ i ∧ i < 57 ∧ ∃ t : ℕ, t < NumSectors ∧ (h.dataSectors 25).toInt = t ∧
        ((d t).bytes ((i - 25) * 4)).toInt = s)

variable {h : FileHeader} {i s : ℕ} {m : BitMap} {Q : Bool × FileHeader × BitMap → Disk → Prop}
  {size : ℕ}

theorem Maps.lt_numSectors (hm : h.Maps d i s) : s < NumSectors := hm.1

theorem Maps.lt_57 (hm : h.Maps d i s) : i < 57 := by
  rcases hm.2 with ⟨hi, -⟩ | ⟨-, hi, -⟩ <;> omega

/-- A block keeps its sector when the second-level table does not change. -/
theorem Maps.congr {d' : Disk} (hm : h.Maps d i s)
    (htable : ∀ t : ℕ, 25 ≤ i → (h.dataSectors 25).toInt = t → d' t = d t) : h.Maps d' i s := by
  refine ⟨hm.1, ?_⟩
  rcases hm.2 with hi | ⟨hi, hlt, t, ht, htab, hs⟩
  · exact Or.inl hi
  · refine Or.inr ⟨hi, hlt, t, ht, htab, ?_⟩
    rwa [htable t hi htab]

/-- A block keeps its sector when another sector than the second-level table is written. -/
theorem Maps.update {i s a : ℕ} (hm : h.Maps d i s) (v : Sector)
    (ha : 25 ≤ i → (h.dataSectors 25).toInt ≠ a) : h.Maps (Function.update d a v) i s := by
  refine hm.congr fun t hi htab => Function.update_of_ne ?_ _ _
  rintro rfl
  exact ha hi htab

/-- The sector number `ByteToSector` finds for block `i`. -/
def lookup (h : FileHeader) (d : Disk) (i : ℕ) : ℤ :=
  if i < NumDirect - 1 then (h.dataSectors (Fin.ofNat NumDirect i)).toInt
  else ((d (h.dataSectors 25).toInt.toNat).bytes ((i - (NumDirect - 1)) * 4)).toInt

theorem wp_byteToSector_lookup {offset : ℕ} (hlt : offset < 57 * SectorSize)
    (htable : 25 ≤ offset / SectorSize → ∃ t : ℕ, t < NumSectors ∧ (h.dataSectors 25).toInt = t)
    {Q : ℤ → Disk → Prop} (hQ : Q (h.lookup d (offset / SectorSize)) d) :
    (h.byteToSector offset).wp ab Q d := by
  have hoff : (int offset).toNat = offset :=
    toNat_int_natCast (by simp only [SectorSize] at hlt; omega)
  unfold byteToSector
  unfold lookup at hQ
  rw [hoff]
  by_cases hi : offset / SectorSize < NumDirect - 1
  · rw [if_pos hi] at hQ
    rw [if_pos (by simp only [SectorSize, NumDirect] at hi ⊢; omega), Prog.wp_pure]
    exact hQ
  · rw [if_neg hi] at hQ
    obtain ⟨t, ht, htab⟩ := htable (by simp only [NumDirect] at hi; omega)
    have hpos : (offset - SectorSize * (NumDirect - 1)) / SectorSize
        = offset / SectorSize - (NumDirect - 1) := by
      simp only [SectorSize, NumDirect]
      omega
    rw [htab, Int.toNat_natCast] at hQ
    rw [if_neg (by simp only [SectorSize, NumDirect] at hi ⊢; omega), hpos, htab, Prog.wp_do,
      wp_readSector ht, if_pos (by simp only [SectorSize, NumDirect] at hlt ⊢; omega), Prog.wp_pure]
    exact hQ

theorem Maps.lookup_eq (hm : h.Maps d i s) : h.lookup d i = s := by
  unfold lookup
  rcases hm.2 with ⟨hi, hs⟩ | ⟨hi, -, t, -, htab, hs⟩
  · rw [if_pos (by simp only [NumDirect]; omega), hs]
  · rw [if_neg (by simp only [NumDirect]; omega), htab, Int.toNat_natCast]
    exact hs

theorem wp_byteToSector (hm : h.Maps d i s) {Q : ℤ → Disk → Prop} (hQ : Q s d) :
    (h.byteToSector (i * SectorSize : ℕ)).wp ab Q d := by
  have hdiv : i * SectorSize / SectorSize = i := Nat.mul_div_cancel i (by decide)
  refine wp_byteToSector_lookup (Nat.mul_lt_mul_of_pos_right hm.lt_57 (by decide)) ?_ ?_
  · rw [hdiv]
    intro hi
    rcases hm.2 with ⟨hlt, -⟩ | ⟨-, -, t, ht, htab, -⟩
    · omega
    · exact ⟨t, ht, htab⟩
  · rw [hdiv, hm.lookup_eq]
    exact hQ

theorem wp_setLastVisitTime {Q : FileHeader → Disk → Prop}
    (hQ : ∀ t, Q { h with lastVistTime := t } d) : h.setLastVisitTime.wp ab Q d := by
  simp only [setLastVisitTime, Prog.wp_do, Prog.wp_pure]
  exact wp_time hQ

theorem wp_setLastModifyTime {Q : FileHeader → Disk → Prop}
    (hQ : ∀ t, Q { h with lastModifyTime := t } d) : h.setLastModifyTime.wp ab Q d := by
  simp only [setLastModifyTime, Prog.wp_do, Prog.wp_pure]
  exact wp_time hQ

/-! ### Allocation -/

/-- The list `l` of sectors in the first entries of the table. -/
theorem setSectors_apply {l : List ℕ} {i : ℕ} (hi : i < l.length) (hlen : l.length ≤ NumDirect) :
    (h.setSectors (l.map Int.ofNat)).dataSectors (Fin.ofNat NumDirect i) = int (l[i] : ℕ) := by
  have hmod : i % 26 = i := Nat.mod_eq_of_lt (by simp only [NumDirect] at hlen; omega)
  simp [setSectors, hmod, hi]

/-- What `Allocate` has recorded about a file of `size` bytes in the sectors `l`. -/
structure Lists (h : FileHeader) (size : ℕ) (l : List ℕ) : Prop where
  numBytes : h.numBytes = int size
  numSectors : h.numSectors = int l.length
  sectors : ∀ i (hi : i < l.length), h.dataSectors (Fin.ofNat NumDirect i) = int (l.get ⟨i, hi⟩ : ℕ)

/-- The sectors `l` were free and are now marked, and nothing else has changed. -/
structure Takes (m : BitMap) (l : List ℕ) (m' : BitMap) : Prop where
  nodup : l.Nodup
  free : ∀ s ∈ l, s < m.numBits ∧ m.bit s = false
  numBits : m'.numBits = m.numBits
  bit : ∀ s, m'.bit s = (decide (s ∈ l) || m.bit s)

/-- The blocks of a file of `size` bytes. -/
def sectorsFor (size : ℕ) : ℕ := (size + SectorSize - 1) / SectorSize

theorem wp_setCreatTime {Q : FileHeader → Disk → Prop} (hQ : ∀ t, Q { h with createTime := t } d) :
    h.setCreatTime.wp ab Q d := by
  simp only [setCreatTime, Prog.wp_do, Prog.wp_pure]
  exact wp_time hQ

theorem Takes.of_findMany {n : ℕ} (h : n ≤ m.clears.length) :
    Takes m (m.clears.take n) (m.findMany n).2 where
  nodup := m.clears_nodup.sublist (List.take_sublist n _)
  free _ hs := BitMap.mem_clears.mp (List.mem_of_mem_take hs)
  numBits := (BitMap.findMany_spec h).2.1
  bit := (BitMap.findMany_spec h).2.2.2

/-- Files of at most 26 sectors: the sectors go in the table of the header, and the disk is not
touched. -/
theorem wp_allocate_direct (hn : sectorsFor size ≤ NumDirect)
    (hfull : m.clears.length < sectorsFor size → ∀ h', Q (false, h', m) d)
    (hok : ∀ h' m' l, l.length = sectorsFor size → h'.Lists size l → Takes m l m' →
      (∃ r, m.firstFind (sectorsFor size : ℕ) = some r ∧
        ∀ i : ℕ, r.1 = i → l = (List.range (sectorsFor size)).map (i + ·)) → Q (true, h', m') d)
    (hab : m.firstFind (sectorsFor size : ℕ) = none → ab) : (h.allocate m size).wp ab Q d := by
  have hdiv : divRoundUp size (SectorSize : ℕ) = (sectorsFor size : ℕ) :=
    divRoundUp_eq size (by decide)
  have hn' : sectorsFor size ≤ 26 := hn
  have hnat : (int (sectorsFor size : ℕ)).toNat = sectorsFor size := toNat_int_natCast (by omega)
  unfold allocate
  simp only [hdiv, hnat, Prog.wp_do]
  refine wp_setCreatTime fun t₁ => wp_setLastVisitTime fun t₂ => wp_setLastModifyTime fun t₃ => ?_
  rw [BitMap.numClear_eq]
  split_ifs with hclear
  · rw [Prog.wp_pure]
    exact hfull (by omega) _
  · have hroom : sectorsFor size ≤ m.clears.length := by omega
    rw [Prog.wp_do]
    cases hff : m.firstFind (sectorsFor size : ℕ) with
    | none =>
      rw [Prog.wp_ofOption_none]
      exact hab hff
    | some r =>
      obtain ⟨start, m'⟩ := r
      rw [Prog.wp_ofOption_some]
      simp only [Int.toNat_natCast]
      rcases BitMap.firstFind_spec hff with ⟨rfl, rfl, -⟩ | ⟨i, rfl, hrun, hbits, hbit⟩
      · rw [if_neg (by omega), Prog.wp_pure]
        obtain ⟨h1, -⟩ := BitMap.findMany_spec hroom
        have hlen : (m'.clears.take (sectorsFor size)).length = sectorsFor size := by
          rw [List.length_take]
          omega
        refine hok _ _ (m'.clears.take (sectorsFor size)) hlen
          ⟨rfl, by rw [hlen]; rfl, fun k hk => ?_⟩ (Takes.of_findMany hroom) ?_
        · rw [h1]
          exact setSectors_apply hk (by rw [hlen]; exact hn)
        · exact ⟨_, hff, fun i hi => by cases hi⟩
      · rw [if_pos (by omega), Prog.wp_pure]
        have hlen : ((List.range (sectorsFor size)).map (i + ·)).length = sectorsFor size := by simp
        refine hok _ _ ((List.range (sectorsFor size)).map (i + ·)) hlen
          ⟨rfl, by rw [hlen]; rfl, fun k hk => ?_⟩ ⟨?_, ?_, hbits, fun s => ?_⟩ ?_
        · have hmap : ((List.range (sectorsFor size)).map fun j : ℕ => (i : ℤ) + j)
              = ((List.range (sectorsFor size)).map (i + ·)).map Int.ofNat := by
            simp [Function.comp_def]
          rw [hmap]
          exact setSectors_apply hk (by rw [hlen]; exact hn)
        · exact (List.nodup_range).map fun a b hab => by simpa using hab
        · simp only [List.mem_map, List.mem_range, forall_exists_index, and_imp]
          rintro s j hj rfl
          refine ⟨?_, hrun.2 j (by simpa using hj)⟩
          have := hrun.1
          simp only [Int.toNat_natCast] at this
          omega
        · rw [hbit]
          congr 1
          rw [decide_eq_decide]
          simp only [List.mem_map, List.mem_range, Int.toNat_natCast]
          constructor
          · rintro ⟨h1, h2⟩
            exact ⟨s - i, by omega, by omega⟩
          · rintro ⟨j, h1, rfl⟩
            omega
        · exact ⟨_, hff, fun j hj => by rw [Int.ofNat.inj hj]⟩

/-- The entries of a second-level table as it is read back from disk. -/
theorem decodeArray_secondIndexBytes {l : List ℤ} {stack : Buf} {j : ℕ} (hj : j < l.length)
    (hl : l.length ≤ 32) :
    (Layout.decodeArray (Sector.ofBytes (secondIndexBytes l stack)).bytes j : CInt) = int l[j] := by
  have hentry : ((l[j]?).elim 0 int : CInt) = int l[j] := by simp [hj]
  rw [← hentry]
  refine Layout.decodeArray_eq (t := fun i => (l[i]?).elim 0 int) hj ?_
  intro k hk
  have hk' : k < 4 * l.length := hk
  rw [Sector.bytes_ofBytes _ (by simp only [SectorSize]; omega), secondIndexBytes,
    Bytes.copy_of_mem (Nat.zero_le k) (by simpa using hk'), Nat.sub_zero]

/-- What is left of the map when the header's table is full, and the second-level table that is then
filled in. -/
def tableOf (m : BitMap) (size : ℕ) : List ℤ × BitMap :=
  (m.findMany NumDirect).2.findMany (sectorsFor size - (NumDirect - 1))

/-- Files of more than 26 sectors: the header's table is filled, and then a second-level table, in
the sector that is its last entry. -/
theorem wp_allocate_table (hbits : m.numBits ≤ NumSectors) (hn : NumDirect < sectorsFor size)
    (hmax : sectorsFor size ≤ 57) (hroom : sectorsFor size ≤ m.clears.length)
    (hok : ∀ h' table, h'.numBytes = int size → h'.numSectors = int (sectorsFor size : ℕ) →
      (∀ i < NumDirect, h'.dataSectors (Fin.ofNat NumDirect i) = int (m.clears.getD i 0 : ℕ)) →
      (∀ j (hj : j < (tableOf m size).1.length), (Layout.decodeArray (Sector.bytes table) j : CInt)
        = int ((tableOf m size).1.get ⟨j, hj⟩)) →
      Q (true, h', (tableOf m size).2) (Function.update d (m.clears.getD 25 0) table)) :
    (h.allocate m size).wp ab Q d := by
  have hdiv : divRoundUp size (SectorSize : ℕ) = (sectorsFor size : ℕ) :=
    divRoundUp_eq size (by decide)
  have hn' : 26 < sectorsFor size := hn
  have hnat : (int (sectorsFor size : ℕ)).toNat = sectorsFor size := toNat_int_natCast (by omega)
  have hlt : ∀ i < m.clears.length, m.clears.getD i 0 < NumSectors := by
    intro i hi
    rw [List.getD_eq_getElem _ _ hi]
    have := (BitMap.mem_clears.mp (m.clears.getElem_mem hi)).1
    omega
  have hdirect : NumDirect ≤ m.clears.length := by omega
  have hlen : (m.clears.take NumDirect).length = NumDirect := by
    rw [List.length_take]
    omega
  have hcount : (tableOf m size).1.length ≤ 32 := by
    rw [tableOf, BitMap.length_findMany]
    simp only [NumDirect]
    omega
  unfold allocate
  simp only [hdiv, hnat, Prog.wp_do]
  refine wp_setCreatTime fun t₁ => wp_setLastVisitTime fun t₂ => wp_setLastModifyTime fun t₃ => ?_
  have hentry : ∀ i < NumDirect, ((⟨t₁, t₂, t₃, h.hdrSector, int size, int (sectorsFor size : ℕ),
      h.dataSectors⟩ : FileHeader).setSectors (m.findMany NumDirect).1).dataSectors
        (Fin.ofNat NumDirect i) = int (m.clears.getD i 0 : ℕ) := by
    intro i hi
    rw [(BitMap.findMany_spec hdirect).1, setSectors_apply (by omega) hlen.le, List.getElem_take,
      List.getD_eq_getElem _ _ (by omega)]
  rw [BitMap.numClear_eq, if_neg (by omega), if_neg (by omega),
    if_pos (by simp only [NumDirect]; omega), Prog.wp_do, wp_newBytes]
  intro stack
  have h25 : (int (m.clears.getD 25 0 : ℕ)).toInt = (m.clears.getD 25 0 : ℕ) :=
    toInt_int_natCast ((hlt 25 (by omega)).trans (by decide))
  rw [Prog.wp_do]
  have hidx : (25 : Fin NumDirect) = Fin.ofNat NumDirect 25 := rfl
  rw [hidx, hentry 25 (by decide), h25, wp_writeSector (hlt 25 (by omega)), Prog.wp_pure]
  apply hok _ _ rfl rfl hentry
  intro j hj
  exact decodeArray_secondIndexBytes hj hcount

/-- The same, with room for the second-level table as well: all sectors are the first clear ones. -/
theorem wp_allocate_indexed (hbits : m.numBits ≤ NumSectors) (hn : NumDirect < sectorsFor size)
    (hmax : sectorsFor size ≤ 57) (hroom : sectorsFor size + 1 ≤ m.clears.length)
    (hok : ∀ h' m' table, h'.numBytes = int size → h'.numSectors = int (sectorsFor size : ℕ) →
      (∀ i < NumDirect, h'.dataSectors (Fin.ofNat NumDirect i) = int (m.clears.getD i 0 : ℕ)) →
      (∀ j < sectorsFor size - 25, (Layout.decodeArray (Sector.bytes table) j : CInt)
        = int (m.clears.getD (NumDirect + j) 0 : ℕ)) →
      Takes m (m.clears.take (sectorsFor size + 1)) m' →
      Q (true, h', m') (Function.update d (m.clears.getD 25 0) table)) :
    (h.allocate m size).wp ab Q d := by
  have hn' : 26 < sectorsFor size := hn
  have hdirect : NumDirect ≤ m.clears.length := by omega
  obtain ⟨-, hnb₁, hc₁, hb₁⟩ := BitMap.findMany_spec hdirect
  have hcount : sectorsFor size - (NumDirect - 1) ≤ (m.findMany NumDirect).2.clears.length := by
    rw [hc₁, List.length_drop]
    simp only [NumDirect]
    omega
  obtain ⟨hl₂, hnb₂, -, hb₂⟩ := BitMap.findMany_spec hcount
  rw [hc₁] at hl₂ hb₂
  have hsplit : m.clears.take (sectorsFor size + 1) = m.clears.take NumDirect ++
      (m.clears.drop NumDirect).take (sectorsFor size - (NumDirect - 1)) := by
    have hsum : sectorsFor size + 1 = NumDirect + (sectorsFor size - (NumDirect - 1)) := by
      simp only [NumDirect]
      omega
    rw [hsum, List.take_add]
  apply wp_allocate_table hbits hn hmax (by omega)
  intro h' table hnb hns hdata htable
  refine hok _ _ _ hnb hns hdata ?_ ⟨?_, ?_, hnb₂.trans hnb₁, ?_⟩
  · intro j (hj : j < sectorsFor size - (NumDirect - 1))
    have hj' : j < (tableOf m size).1.length := by
      rw [tableOf, BitMap.length_findMany]
      exact hj
    have hlt : NumDirect + j < m.clears.length := by
      simp only [NumDirect] at hj ⊢
      omega
    have hget : (tableOf m size).1[j]? = some (m.clears.getD (NumDirect + j) 0 : ℤ) := by
      rw [tableOf, hl₂, List.getElem?_map, List.getElem?_take_of_lt hj, List.getElem?_drop,
        List.getD_eq_getElem _ _ hlt, List.getElem?_eq_getElem hlt]
      rfl
    rw [htable j hj', List.get_eq_getElem]
    rw [List.getElem?_eq_getElem hj', Option.some.injEq] at hget
    rw [hget]
  · exact m.clears_nodup.sublist (List.take_sublist _ _)
  · exact fun s hs => BitMap.mem_clears.mp (List.mem_of_mem_take hs)
  · intro s
    rw [tableOf, hb₂, hb₁, hsplit, ← Bool.or_assoc, Bool.or_comm (decide _) (decide _),
      ← Bool.decide_or]
    simp only [List.mem_append]

/-! ### Where the blocks of a new file are -/

/-- The sector in which `Allocate` has put block `i` of a file of `n` blocks. -/
def block (h : FileHeader) (d : Disk) (n i : ℕ) : ℤ :=
  if n ≤ NumDirect ∨ i < NumDirect - 1 then (h.dataSectors (Fin.ofNat NumDirect i)).toInt
  else (Layout.decodeArray (d (h.dataSectors 25).toInt.toNat).bytes (i - (NumDirect - 1))
    : CInt).toInt

/-- One `char` of an entry of the second-level table is the whole entry when it is below 128. -/
theorem toInt_lowByte {b : Buf} {j e : ℕ} (he : e < NumSectors)
    (h : (Layout.decodeArray b j : CInt) = int e) : (b (j * 4)).toInt = e ↔ e < 128 := by
  have hbyte : b (j * 4) = (int e).extractLsb' (8 * 0) 8 := by
    have hb := congrFun (Layout.encodeArray_decodeArray (α := CInt) b) (j * 4)
    have hdiv : j * 4 / 4 = j := Nat.mul_div_cancel j (by decide)
    have hmod : j * 4 % 4 = 0 := Nat.mul_mod_left j 4
    rw [← hb]
    show Layout.encode (Layout.decodeArray b (j * 4 / 4) : CInt) (j * 4 % 4) = _
    rw [hdiv, hmod, h]
    rfl
  have he' : e < 1024 := he
  have hnat : (b (j * 4)).toNat = e % 256 := by
    rw [hbyte, BitVec.extractLsb'_toNat, toNat_int_natCast (by omega)]
    rfl
  rw [BitVec.toInt_eq_toNat_cond, hnat]
  split_ifs <;> omega

theorem yields_byteToSector {offset : ℕ} (hlt : offset < 57 * SectorSize)
    (htable : 25 ≤ offset / SectorSize → ∃ t : ℕ, t < NumSectors ∧ (h.dataSectors 25).toInt = t)
    {s : ℤ} : (h.byteToSector offset).Yields d s d ↔ s = h.lookup d (offset / SectorSize) := by
  have hwp := Prog.yields_iff_of_wp (p := h.byteToSector offset) (d := d)
    (wp_byteToSector_lookup hlt htable ⟨rfl, rfl⟩) s d
  exact hwp.trans (and_iff_left rfl)

/-- Every block of a file contains an offset before its end. -/
theorem forall_offset_iff {P : ℕ → Prop} :
    (∀ offset < size, P (offset / SectorSize)) ↔ ∀ i < sectorsFor size, P i := by
  constructor
  · intro h i hi
    have hP := h (i * SectorSize) (by simp only [sectorsFor, SectorSize] at hi ⊢; omega)
    rwa [Nat.mul_div_cancel i (by decide)] at hP
  · intro h offset ho
    exact h _ (by simp only [sectorsFor, SectorSize]; omega)

theorem lookup_eq_block {n i : ℕ} (hi : i < 25) : h.lookup d i = h.block d n i := by
  rw [lookup, block, if_pos (by simp only [NumDirect]; omega),
    if_pos (Or.inr (by simp only [NumDirect]; omega))]

/-- Block 25 of a file of 26 sectors is in the table, and is looked up behind it. -/
theorem lookup_eq_block_last : h.lookup d 25 = h.block d NumDirect 25 ↔
    ((d (h.dataSectors 25).toInt.toNat).bytes 0).toInt = (h.dataSectors 25).toInt := by
  rw [lookup, block, if_neg (by decide), if_pos (Or.inl le_rfl)]
  exact Iff.rfl

theorem lookup_eq_block_indexed {n i e : ℕ} (hn : NumDirect < n) (hi : 25 ≤ i) (he : e < NumSectors)
    (hentry : (Layout.decodeArray (d (h.dataSectors 25).toInt.toNat).bytes (i - 25) : CInt) = int e) :
    h.lookup d i = h.block d n i ↔ e < 128 := by
  have hn' : 26 < n := hn
  rw [lookup, block, if_neg (by simp only [NumDirect]; omega),
    if_neg (by simp only [NumDirect]; omega)]
  rw [show NumDirect - 1 = 25 from rfl, hentry,
    toInt_int_natCast (he.trans (by decide)), toInt_lowByte he hentry]

/-- The sectors a file takes: its blocks, and the second-level table of a file of more than 26. -/
def sectorsNeeded (size : ℕ) : ℕ :=
  if sectorsFor size ≤ NumDirect then sectorsFor size else sectorsFor size + 1

/-- When `ByteToSector` finds all blocks where `Allocate` has put them.  The blocks of a file of 26
sectors are in the first run of 26 clear ones, which begins at `i`. -/
def IndexAgrees (m : BitMap) (d : Disk) (size : ℕ) : Prop :=
  sectorsFor size < NumDirect ∨
    sectorsFor size = NumDirect ∧ (∃ i, m.ClearRun i NumDirect ∧ (∀ j < i, ¬ m.ClearRun j NumDirect) ∧
      ((d (i + 25)).bytes 0).toInt = (i + 25 : ℕ)) ∨
    NumDirect < sectorsFor size ∧ sectorsFor size + 1 ≤ (m.clears.filter (· < 128)).length

theorem lookup_iff_direct (hn : sectorsFor size ≤ NumDirect)
    (hrun : sectorsFor size = NumDirect → ∃ i, m.ClearRun i NumDirect ∧
      (∀ j < i, ¬ m.ClearRun j NumDirect) ∧ (h.dataSectors 25).toInt = (i + 25 : ℕ)) :
    (∀ i < sectorsFor size, h.block d (sectorsFor size) i = h.lookup d i) ↔ IndexAgrees m d size := by
  have hn' : sectorsFor size ≤ 26 := hn
  have hlast : ¬ (NumDirect < sectorsFor size ∧
      sectorsFor size + 1 ≤ (m.clears.filter (· < 128)).length) := fun h => absurd h.1 (by omega)
  rw [IndexAgrees, or_iff_left (b := _ ∧ _ ≤ _) hlast]
  rcases hn.lt_or_eq with hlt | heq
  · have hlt' : sectorsFor size < 26 := hlt
    refine iff_of_true (fun i hi => ?_) (Or.inl hlt)
    exact (lookup_eq_block (by omega)).symm
  · obtain ⟨start, hclear, hleast, h25⟩ := hrun heq
    have hstart : ((d (start + 25)).bytes 0).toInt = (start + 25 : ℕ) ↔
        ∃ i, m.ClearRun i NumDirect ∧ (∀ j < i, ¬ m.ClearRun j NumDirect) ∧
          ((d (i + 25)).bytes 0).toInt = (i + 25 : ℕ) := by
      refine ⟨fun hbyte => ⟨start, hclear, hleast, hbyte⟩, ?_⟩
      rintro ⟨i, hi, hbefore, hbyte⟩
      obtain rfl : i = start := le_antisymm (not_lt.1 fun hlt => hbefore _ hlt hclear)
        (not_lt.1 fun hlt => hleast _ hlt hi)
      exact hbyte
    have hlook := lookup_eq_block_last (d := d) (h := h)
    rw [h25, Int.toNat_natCast, hstart] at hlook
    rw [or_iff_right (by omega), heq, and_iff_right rfl, ← hlook]
    constructor
    · exact fun h => (h 25 (by decide)).symm
    · intro h i hi
      have hi' : i < 26 := hi
      rcases (show i < 25 ∨ i = 25 by omega) with hi | rfl
      · exact (lookup_eq_block hi).symm
      · exact h.symm

theorem lookup_iff_indexed {d' : Disk} (hbits : m.numBits ≤ NumSectors)
    (hn : NumDirect < sectorsFor size) (hroom : sectorsFor size + 1 ≤ m.clears.length)
    (htable : ∀ j < sectorsFor size - 25,
      (Layout.decodeArray (d' (h.dataSectors 25).toInt.toNat).bytes j : CInt)
        = int (m.clears.getD (NumDirect + j) 0 : ℕ)) :
    (∀ i < sectorsFor size, h.block d' (sectorsFor size) i = h.lookup d' i) ↔
      IndexAgrees m d size := by
  have hn' : 26 < sectorsFor size := hn
  have hentry : ∀ i, 25 ≤ i → i < sectorsFor size →
      (h.lookup d' i = h.block d' (sectorsFor size) i ↔ m.clears.getD (i + 1) 0 < 128) := by
    intro i hi hlt
    have hget := htable (i - 25) (by omega)
    rw [show NumDirect + (i - 25) = i + 1 by simp only [NumDirect]; omega] at hget
    refine lookup_eq_block_indexed hn hi ?_ hget
    rw [List.getD_eq_getElem _ _ (by omega)]
    have := (BitMap.mem_clears.mp (m.clears.getElem_mem (show i + 1 < m.clears.length by omega))).1
    omega
  rw [IndexAgrees, or_iff_right (by omega), or_iff_right (by omega), and_iff_right hn,
    ← List.getD_lt_iff_of_sorted m.clears_sorted (by omega)]
  constructor
  · intro hall
    have hlast := (hentry (sectorsFor size - 1) (by omega) (by omega)).mp
      (hall _ (by omega)).symm
    rwa [show sectorsFor size - 1 + 1 = sectorsFor size by omega] at hlast
  · intro hlast i hi
    by_cases h25 : i < 25
    · exact (lookup_eq_block h25).symm
    · -- the sectors of the table are in increasing order
      refine ((hentry i (by omega) hi).mpr ?_).symm
      refine lt_of_le_of_lt ?_ hlast
      rw [List.getD_eq_getElem _ _ (by omega), List.getD_eq_getElem _ _ (by omega)]
      rcases (show i + 1 = sectorsFor size ∨ i + 1 < sectorsFor size by omega) with heq | hlt
      · simp only [heq, le_refl]
      · exact (List.pairwise_iff_getElem.mp m.clears_sorted _ _ _ _ hlt).le

theorem forall_yields_iff (hmax : size ≤ 57 * SectorSize)
    (htable : 25 < sectorsFor size → ∃ t : ℕ, t < NumSectors ∧ (h.dataSectors 25).toInt = t) :
    (∀ offset < size, (h.byteToSector (offset : ℕ)).Yields d
      (h.block d (sectorsFor size) (offset / SectorSize)) d) ↔
      ∀ i < sectorsFor size, h.block d (sectorsFor size) i = h.lookup d i := by
  rw [← forall_offset_iff]
  refine forall₂_congr fun offset ho => yields_byteToSector (by omega) fun h25 => htable ?_
  simp only [sectorsFor, SectorSize] at h25 ⊢
  omega

/-- **Allocation and lookup agree** exactly when the file has at most 25 sectors, or it has 26 and
the last sector of the first free run of 26 happens to begin with its own number, or it has more and
all sectors it takes, with that of the second-level table, are below 128. -/
theorem byteToSector_allocate_iff {h₀ h : FileHeader} {m m' : BitMap} {size : ℕ} {d d' : Disk}
    (hbits : m.numBits = NumSectors) (hmax : size ≤ 57 * SectorSize)
    (hroom : sectorsNeeded size ≤ m.numClear)
    (hrun : (h₀.allocate m size).Yields d (true, h, m') d') :
    (∀ offset < size, (h.byteToSector (offset : ℕ)).Yields d'
      (h.block d' (sectorsFor size) (offset / SectorSize)) d') ↔ IndexAgrees m d size := by
  rw [BitMap.numClear_eq, sectorsNeeded] at hroom
  suffices hwp : (h₀.allocate m size).wp True (fun r d' => r.1 = true →
      ((∀ offset < size, (r.2.1.byteToSector (offset : ℕ)).Yields d'
        (r.2.1.block d' (sectorsFor size) (offset / SectorSize)) d') ↔ IndexAgrees m d size)) d from
    hrun.of_wp hwp rfl
  by_cases hn : sectorsFor size ≤ NumDirect
  · rw [if_pos hn] at hroom
    refine wp_allocate_direct hn (fun hfull => absurd hfull (by omega)) ?_ fun _ => trivial
    rintro h' m' l hlen hlists htakes ⟨r, hfind, hrange⟩ -
    have hlast : ∀ hlt : 25 < l.length, l.get ⟨25, hlt⟩ < NumSectors ∧
        (h'.dataSectors 25).toInt = (l.get ⟨25, hlt⟩ : ℕ) := by
      intro hlt
      have hin := hbits ▸ (htakes.free _ (l.get_mem ⟨25, hlt⟩)).1
      refine ⟨hin, ?_⟩
      rw [show (25 : Fin NumDirect) = Fin.ofNat NumDirect 25 from rfl, hlists.sectors 25 hlt]
      exact toInt_int_natCast (hin.trans (by decide))
    rw [forall_yields_iff hmax fun h25 => ⟨_, hlast (hlen ▸ h25)⟩, lookup_iff_direct hn]
    intro heq
    rw [heq] at hfind hrange hlen
    obtain ⟨-, ⟨i, hi, hclear, hleast, -⟩ | ⟨-, hnone, -⟩⟩ :=
      BitMap.foundLeast_of_firstFind hfind fun _ => by decide
    · refine ⟨i, hclear, hleast, ?_⟩
      rw [(hlast (hlen ▸ by decide)).2]
      simp [hrange i hi]
    · -- a search without a run goes past the end
      rw [BitMap.firstFind_eq_none (hbits ▸ by decide) (by decide) fun i _ => hnone i] at hfind
      cases hfind
  · rw [if_neg hn] at hroom
    have hmax' : sectorsFor size ≤ 57 := by
      simp only [sectorsFor, SectorSize] at hmax ⊢
      omega
    refine wp_allocate_indexed hbits.le (by omega) hmax' hroom ?_
    intro h' m' table _ _ hdirect htable htakes _
    have h25 : (h'.dataSectors 25).toInt = (m.clears.getD 25 0 : ℕ) ∧
        m.clears.getD 25 0 < NumSectors := by
      have hlen : 25 < m.clears.length := by simp only [NumDirect] at hn; omega
      have hlt : m.clears.getD 25 0 < NumSectors := by
        rw [List.getD_eq_getElem _ _ hlen, ← hbits]
        exact (BitMap.mem_clears.mp (m.clears.getElem_mem hlen)).1
      refine ⟨?_, hlt⟩
      rw [show (25 : Fin NumDirect) = Fin.ofNat NumDirect 25 from rfl, hdirect 25 (by decide)]
      exact toInt_int_natCast (hlt.trans (by decide))
    rw [forall_yields_iff hmax fun _ => ⟨_, h25.2, h25.1⟩]
    refine lookup_iff_indexed hbits.le (by omega) hroom fun j hj => ?_
    rw [h25.1, Int.toNat_natCast, Function.update_self]
    exact htable j hj

/-- A disk of zeros. -/
def blank : Disk := fun _ _ => 0

/-- A header of zeros. -/
def zero : FileHeader := ofWords fun _ => 0

/-- With room for its blocks and its table, a file of 27 to 57 sectors is allocated. -/
theorem exists_allocate_indexed (h : FileHeader) (d : Disk) (hbits : m.numBits ≤ NumSectors)
    (hn : NumDirect < sectorsFor size) (hmax : sectorsFor size ≤ 57)
    (hroom : sectorsFor size + 1 ≤ m.clears.length) :
    ∃ h' m' d', (h.allocate m size).Yields d (true, h', m') d' := by
  have hwp : (h.allocate m size).wp False (fun r _ => r.1 = true) d :=
    wp_allocate_indexed hbits hn hmax hroom fun _ _ _ _ _ _ _ _ => rfl
  obtain ⟨⟨ok, h', m'⟩, d', hrun, rfl⟩ := Prog.exists_yields_of_wp hwp
  exact ⟨h', m', d', hrun⟩

/-- A file of at most 26 sectors is put in the run of clear sectors that `FirstFind` finds. -/
theorem exists_allocate_run (h : FileHeader) (d : Disk) {m m₁ : BitMap} {size i : ℕ}
    (hbits : m.numBits ≤ NumSectors) (hn : sectorsFor size ≤ NumDirect)
    (hroom : sectorsFor size ≤ m.clears.length)
    (hfind : m.firstFind (sectorsFor size : ℕ) = some ((i : ℤ), m₁)) :
    ∃ h' m', (h.allocate m size).Yields d (true, h', m') d ∧
      ∀ k < sectorsFor size, (h'.dataSectors (Fin.ofNat NumDirect k)).toInt = (i + k : ℕ) := by
  have hwp : (h.allocate m size).wp False (fun r d' => r.1 = true ∧ d' = d ∧
      ∀ k < sectorsFor size,
        (r.2.1.dataSectors (Fin.ofNat NumDirect k)).toInt = ((i + k : ℕ) : ℤ)) d := by
    refine wp_allocate_direct hn (fun hfull => absurd hfull (by omega)) ?_ ?_
    · rintro h' m' l hlen hlists htakes ⟨r, hr, hrange⟩
      rw [hfind] at hr
      cases hr
      have hl := hrange i rfl
      refine ⟨rfl, rfl, fun k hk => ?_⟩
      have hlt := (htakes.free _ (l.getElem_mem (show k < l.length by omega))).1
      rw [hlists.sectors k (by omega), List.get_eq_getElem,
        toInt_int_natCast ((hlt.trans_le hbits).trans (by decide))]
      simp [hl]
    · intro hnone
      rw [hfind] at hnone
      cases hnone
  obtain ⟨⟨ok, h', m'⟩, d', hrun, rfl, rfl, hsec⟩ := Prog.exists_yields_of_wp hwp
  exact ⟨h', m', hrun, hsec⟩

/-- On a disk with all sectors free, the 27 blocks of a file go in sectors 0 to 24, 26 and 27. -/
theorem byteToSector_allocate_iff_27 : ∃ h m' d',
    (zero.allocate (.allClear NumSectors) (27 * SectorSize : ℕ)).Yields blank (true, h, m') d' ∧
    ∀ offset < 27 * SectorSize, (h.byteToSector (offset : ℕ)).Yields d'
      (h.block d' 27 (offset / SectorSize)) d' := by
  have hroom : sectorsFor (27 * SectorSize) + 1 ≤ (BitMap.allClear NumSectors).clears.length := by
    rw [BitMap.clears_allClear, List.length_range]
    decide
  have hlow : sectorsFor (27 * SectorSize) + 1 ≤
      ((BitMap.allClear NumSectors).clears.filter (· < 128)).length := by
    rw [BitMap.clears_allClear]
    decide +kernel
  obtain ⟨h, m', d', hrun⟩ := exists_allocate_indexed zero blank
    (Nat.le_refl NumSectors) (by decide) (by decide) hroom
  refine ⟨h, m', d', hrun, ?_⟩
  exact (byteToSector_allocate_iff rfl (by decide) (by rw [BitMap.numClear_eq]; exact hroom)
    hrun).mpr (Or.inr (Or.inr ⟨by decide, hlow⟩))

/-- On the same disk the last block of a file of 26 sectors is put in sector 25 and looked for in
sector 0. -/
theorem last_block_misplaced : ∃ h m',
    (zero.allocate (.allClear NumSectors) (26 * SectorSize : ℕ)).Yields blank (true, h, m') blank ∧
    h.block blank 26 25 = 25 ∧ (h.byteToSector (25 * SectorSize : ℕ)).Yields blank 0 blank ∧
    ¬ (h.byteToSector (25 * SectorSize : ℕ)).Yields blank 25 blank := by
  have hclear : (BitMap.allClear NumSectors).ClearRun 0 26 :=
    ⟨by decide, fun j _ => BitMap.bit_allClear _ _⟩
  obtain ⟨m₁, hmark, -⟩ := BitMap.markRun_of_le hclear.1
  have hfind : (BitMap.allClear NumSectors).firstFind (sectorsFor (26 * SectorSize) : ℕ)
      = some (((0 : ℕ) : ℤ), m₁) := by
    rw [show sectorsFor (26 * SectorSize) = 26 by decide, BitMap.firstFind,
      show (BitMap.allClear NumSectors).numBits = 1023 + 1 from rfl, List.range_succ_eq_map]
    exact BitMap.firstFindFrom_cons_of_clear hclear hmark
  have hroom : sectorsFor (26 * SectorSize) ≤ (BitMap.allClear NumSectors).clears.length := by
    rw [BitMap.clears_allClear, List.length_range]
    decide
  obtain ⟨h, m', hrun, hsec⟩ := exists_allocate_run zero blank
    (Nat.le_refl NumSectors) (by decide) hroom hfind
  have h25 : (h.dataSectors 25).toInt = 25 := hsec 25 (by decide)
  have hlook : ∀ s, (h.byteToSector (25 * SectorSize : ℕ)).Yields blank s blank ↔ s = 0 := by
    intro s
    rw [yields_byteToSector (by decide) fun _ => ⟨25, by decide, h25⟩]
    rfl
  refine ⟨h, m', hrun, ?_, (hlook 0).mpr rfl, fun h => absurd ((hlook 25).mp h) (by decide)⟩
  rw [block, if_pos (Or.inl le_rfl)]
  exact h25

end FileHeader

end Nachos
