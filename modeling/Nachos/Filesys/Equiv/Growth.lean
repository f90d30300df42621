import Nachos.Filesys.Equiv.Extend
import Nachos.Filesys.Growth

/-!
## When a write past the end of a file works

The sectors of a file, in the order in which its header lists them, determine where `Allocate` would
have put its blocks (`block_eq`).  A write that grows the file well finds them all there
(`wp_store_grown`); any other one either stores past the end of the header's table, or leaves a listed
sector unmarked, or puts data in a sector that is not the file's (`writeAt_grown_iff`).
-/

namespace Nachos

open Storage Memory

namespace FileHeader

variable {h : FileHeader} {d : Disk} {l : List ℕ} {n i : ℕ}

/-- The place of block `i` of a file of `n` blocks in the list of its sectors. -/
def slot (n i : ℕ) : ℕ := if n ≤ NumDirect ∨ i < NumDirect - 1 then i else i + 1

theorem slot_inj {j : ℕ} (h : slot n i = slot n j) : i = j := by
  unfold slot at h
  split_ifs at h <;> simp only [NumDirect] at * <;> omega

theorem length_of_listed (hn : h.numSectors.toNat = n) (hl : h.listed d = l.map Int.ofNat) :
    l.length = if n ≤ NumDirect then n else n + 1 := by
  have hlen := congrArg List.length hl
  rw [listed, hn, List.length_map] at hlen
  split_ifs at hlen ⊢ with hle
  · rw [List.length_take, length_table] at hlen
    omega
  · rw [List.length_append, length_table, List.length_map, List.length_range] at hlen
    simp only [NumDirect] at *
    omega

theorem slot_lt (hn : h.numSectors.toNat = n) (hl : h.listed d = l.map Int.ofNat) (hi : i < n) :
    slot n i < l.length := by
  rw [length_of_listed hn hl]
  unfold slot
  split_ifs <;> omega

theorem getElem_of_listed (hl : h.listed d = l.map Int.ofNat) {j : ℕ} (hj : j < l.length) :
    (h.listed d)[j]? = some ((l.getD j 0 : ℕ) : ℤ) := by
  rw [hl, List.getElem?_map, List.getElem?_eq_getElem hj, List.getD_eq_getElem _ _ hj]
  rfl

/-- Where the header has block `i`. -/
theorem block_eq (hn : h.numSectors.toNat = n) (hl : h.listed d = l.map Int.ofNat) (hi : i < n) :
    h.block d n i = (l.getD (slot n i) 0 : ℕ) := by
  have hget := getElem_of_listed hl (slot_lt hn hl hi)
  have htable : h.table.length = NumDirect := h.length_table
  rw [listed, hn] at hget
  unfold block slot at *
  by_cases hle : n ≤ NumDirect
  · rw [if_pos hle, if_pos (Or.inl hle),
      List.getElem?_take_of_lt hi, List.getElem?_eq_getElem (by omega), getElem_table] at hget
    rw [if_pos (Or.inl hle), if_pos (Or.inl hle)]
    exact Option.some.inj hget
  · by_cases hdirect : i < NumDirect - 1
    · rw [if_neg hle, if_pos (Or.inr hdirect), List.getElem?_append_left (by omega),
        List.getElem?_eq_getElem (by omega), getElem_table] at hget
      rw [if_pos (Or.inr hdirect), if_pos (Or.inr hdirect)]
      exact Option.some.inj hget
    · have hor : ¬ (n ≤ NumDirect ∨ i < NumDirect - 1) := by omega
      rw [if_neg hle, if_neg hor, List.getElem?_append_right (by simp only [NumDirect] at *; omega),
        htable, List.getElem?_map, List.getElem?_range (by simp only [NumDirect] at *; omega)] at hget
      rw [if_neg hor, if_neg hor, ← Option.some.inj hget,
        show i + 1 - NumDirect = i - (NumDirect - 1) by simp only [NumDirect]; omega]

/-- The second-level table is in the place behind the 25 direct blocks. -/
theorem index_eq (hn : h.numSectors.toNat = n) (hl : h.listed d = l.map Int.ofNat)
    (h25 : 25 < n) : (h.dataSectors 25).toInt = (l.getD 25 0 : ℕ) := by
  have hlen := length_of_listed hn hl
  have hj : 25 < l.length := by
    split_ifs at hlen <;> omega
  have hget := getElem_of_listed hl hj
  have htable : h.table.length = 26 := h.length_table
  have hentry : h.table[25]? = some (h.dataSectors 25).toInt := by
    rw [List.getElem?_eq_getElem (by omega), getElem_table]
    rfl
  rw [listed, hn] at hget
  split_ifs at hget
  · rw [List.getElem?_take_of_lt h25, hentry] at hget
    exact Option.some.inj hget
  · rw [List.getElem?_append_left (by omega), hentry] at hget
    exact Option.some.inj hget

/-- The entries of the table are the first sectors in the list. -/
theorem entry_eq (hn : h.numSectors.toNat = n) (hl : h.listed d = l.map Int.ofNat) {j : ℕ}
    (hj : j < n) (h26 : j < NumDirect) :
    j < l.length ∧ (h.dataSectors (Fin.ofNat NumDirect j)).toInt = (l.getD j 0 : ℕ) := by
  have hlen := length_of_listed hn hl
  have h26' : j < 26 := h26
  refine ⟨by split_ifs at hlen <;> omega, ?_⟩
  rcases (show j < 25 ∨ j = 25 by omega) with h25 | rfl
  · have hblock := block_eq hn hl hj
    have hor : n ≤ NumDirect ∨ j < NumDirect - 1 := Or.inr h25
    rwa [block, slot, if_pos hor, if_pos hor] at hblock
  · exact index_eq hn hl hj

/-- A file of `len` bytes in the sectors `l`. -/
structure Laid (h : FileHeader) (d : Disk) (len : ℕ) (l : List ℕ) : Prop where
  numBytes : h.numBytes = int len
  numSectors : h.numSectors = int (sectorsFor len : ℕ)
  capacity : sectorsFor len ≤ 57
  listed : h.listed d = l.map Int.ofNat
  nodup : l.Nodup
  inRange : ∀ x ∈ l, x < NumSectors

namespace Laid

variable {len : ℕ}

theorem lt (hL : h.Laid d len l) : len < 2 ^ 31 := by
  have := hL.capacity
  simp only [sectorsFor, SectorSize] at this
  omega

theorem numBytes_toInt (hL : h.Laid d len l) : h.numBytes.toInt = len := by
  rw [hL.numBytes, toInt_int_natCast hL.lt]

theorem numSectors_toNat (hL : h.Laid d len l) : h.numSectors.toNat = sectorsFor len := by
  have := hL.capacity
  rw [hL.numSectors, toNat_int_natCast (by omega)]

theorem slot_lt (hL : h.Laid d len l) (hi : i < sectorsFor len) : slot (sectorsFor len) i < l.length :=
  FileHeader.slot_lt hL.numSectors_toNat hL.listed hi

theorem getD_mem (hL : h.Laid d len l) (hi : i < sectorsFor len) :
    l.getD (slot (sectorsFor len) i) 0 ∈ l :=
  List.getD_mem_of_lt (hL.slot_lt hi)

theorem getD_inj (hL : h.Laid d len l) {j : ℕ} (hi : i < sectorsFor len) (hj : j < sectorsFor len)
    (heq : l.getD (slot (sectorsFor len) i) 0 = l.getD (slot (sectorsFor len) j) 0) : i = j :=
  slot_inj (List.getD_inj_of_nodup hL.nodup (hL.slot_lt hi) (hL.slot_lt hj) heq)

theorem block_eq (hL : h.Laid d len l) (hi : i < sectorsFor len) :
    h.block d (sectorsFor len) i = (l.getD (slot (sectorsFor len) i) 0 : ℕ) :=
  FileHeader.block_eq hL.numSectors_toNat hL.listed hi

theorem content_eq (hL : h.Laid d len l) {p : ℕ} (hp : p < len) :
    h.content d p = flat d (fun i => l.getD (slot (sectorsFor len) i) 0) p := by
  have hi : p / SectorSize < sectorsFor len := by
    simp only [sectorsFor, SectorSize]
    omega
  rw [content, flat, hL.numSectors_toNat, hL.block_eq hi, Int.toNat_natCast]

/-- A file of at most 26 sectors has no sectors but its blocks. -/
theorem length_direct (hL : h.Laid d len l) (hle : sectorsFor len ≤ NumDirect) :
    l.length = sectorsFor len := by
  rw [length_of_listed hL.numSectors_toNat hL.listed, if_pos hle]

theorem content_direct (hL : h.Laid d len l) (hle : sectorsFor len ≤ NumDirect) {p : ℕ}
    (hp : p < len) : h.content d p = flat d (l.getD · 0) p := by
  rw [hL.content_eq hp]
  simp only [slot, if_pos (Or.inl hle : sectorsFor len ≤ NumDirect ∨ _ < NumDirect - 1)]

/-- The second-level table is none of the blocks. -/
theorem index_ne (hL : h.Laid d len l) (hn : NumDirect < sectorsFor len) (hi : i < sectorsFor len) :
    (h.dataSectors 25).toInt ≠ (l.getD (slot (sectorsFor len) i) 0 : ℕ) := by
  have hn' : 26 < sectorsFor len := hn
  have hlen := length_of_listed hL.numSectors_toNat hL.listed
  rw [if_neg (by omega)] at hlen
  rw [index_eq hL.numSectors_toNat hL.listed (by omega)]
  intro heq
  have hslot := List.getD_inj_of_nodup hL.nodup (by omega) (hL.slot_lt hi) (Int.ofNat.inj heq)
  unfold slot at hslot
  split_ifs at hslot <;> simp only [NumDirect] at * <;> omega

/-- `ByteToSector` finds the direct blocks, -/
theorem maps_direct (hL : h.Laid d len l) (hi : i < sectorsFor len) (h25 : i < 25) (d' : Disk) :
    h.Maps d' i (l.getD (slot (sectorsFor len) i) 0) := by
  refine ⟨hL.inRange _ (hL.getD_mem hi), Or.inl ⟨h25, ?_⟩⟩
  rw [← hL.block_eq hi, block, if_pos (Or.inr (by simp only [NumDirect]; omega))]

/-- and those of the second-level table whose sectors are below 128. -/
theorem maps_indexed (hL : h.Laid d len l) (hn : NumDirect < sectorsFor len)
    (hi : i < sectorsFor len) (h25 : 25 ≤ i) (h128 : h.block d (sectorsFor len) i < 128) :
    h.Maps d i (l.getD (slot (sectorsFor len) i) 0) := by
  have hn' : 26 < sectorsFor len := hn
  have hcap := hL.capacity
  have hlen := length_of_listed hL.numSectors_toNat hL.listed
  rw [if_neg (by omega)] at hlen
  have hindex := index_eq hL.numSectors_toNat hL.listed (by omega)
  have hmem : l.getD 25 0 ∈ l := List.getD_mem_of_lt (by omega)
  have hrange := hL.inRange _ (hL.getD_mem hi)
  refine ⟨hrange, Or.inr ⟨h25, by omega, l.getD 25 0, hL.inRange _ hmem, hindex, ?_⟩⟩
  have hblock := hL.block_eq hi
  rw [hblock] at h128
  rw [block, if_neg (by simp only [NumDirect] at *; omega), hindex, Int.toNat_natCast] at hblock
  have hword : (Layout.decodeArray (d (l.getD 25 0)).bytes (i - 25) : CInt)
      = int (l.getD (slot (sectorsFor len) i) 0 : ℕ) := by
    rw [← int_toInt (Layout.decodeArray _ _)]
    exact congrArg int hblock
  exact (toInt_lowByte hrange hword).mpr (by exact_mod_cast h128)

/-- The sectors of a file stay the same when its second-level table does. -/
theorem congr (hL : h.Laid d len l) {h' : FileHeader} {d' : Disk} (hs : h.SameFile h')
    (hindex : NumDirect < sectorsFor len → d' (l.getD 25 0) = d (l.getD 25 0)) :
    h'.Laid d' len l := by
  refine ⟨hs.numBytes ▸ hL.numBytes, hs.numSectors ▸ hL.numSectors, hL.capacity, ?_, hL.nodup,
    hL.inRange⟩
  rw [← hL.listed]
  refine listed_congr hs.numSectors.symm hs.dataSectors.symm fun hn => ?_
  rw [hL.numSectors_toNat] at hn
  rw [index_eq hL.numSectors_toNat hL.listed (lt_trans (by decide) hn), Int.toNat_natCast, hindex hn]

end Laid

end FileHeader

variable {data : Buf}

namespace OpenFile

open FileHeader (sectorsFor slot Laid)

variable {ab : Prop} {d : Disk} {f : OpenFile} {len : ℕ} {l : List ℕ}

/-- The second half of a `WriteAt` that finds its blocks. -/
theorem wp_store_laid (hL : f.hdr.Laid d len l) {pos n : ℕ} (hn : 0 < n) (hle : pos + n ≤ len)
    (hmaps : ∀ i, pos / SectorSize ≤ i → i * SectorSize < pos + n →
      f.hdr.Maps d i (l.getD (slot (sectorsFor len) i) 0))
    (hindex : ∀ i, 25 ≤ i → i * SectorSize < pos + n → NumDirect < sectorsFor len)
    {Q : ℤ × OpenFile → Disk → Prop}
    (hQ : ∀ visit modify d',
      (∀ x, (∀ i < sectorsFor len, l.getD (slot (sectorsFor len) i) 0 ≠ x) → d' x = d x) →
      (∀ p < len, flat d' (fun i => l.getD (slot (sectorsFor len) i) 0) p
        = if pos ≤ p ∧ p < pos + n then data (p - pos)
          else flat d (fun i => l.getD (slot (sectorsFor len) i) 0) p) →
      Q (n, f.touch visit modify) d') : (f.store data n pos).wp ab Q d := by
  have hblock : ∀ i, i * SectorSize < len → i < sectorsFor len := by
    intro i hi
    simp only [sectorsFor, SectorSize] at *
    omega
  refine wp_store _ hn hL.numBytes_toInt hmaps ?_ ?_
  · intro i i' _ hi h25 hi'
    exact hL.index_ne (hindex i' h25 hi') (hblock i (by omega))
  · intro visit modify blk hst
    have hlast : (pos + n - 1) / SectorSize < sectorsFor len := by
      simp only [sectorsFor, SectorSize]
      omega
    apply hQ visit modify
    · intro x hx
      refine writeBlocks_of_notMem fun i _ hi => hx i ?_
      simp only [blockCount, sectorsFor, SectorSize] at *
      omega
    · intro p hp
      refine hst.flat_eq hn (fun _ _ => hL.getD_inj) hlast ?_ fun _ _ => Or.inl hp
      simp only [sectorsFor, SectorSize]
      omega

/-- A read of bytes whose blocks are found. -/
theorem wp_readAt_laid (hL : f.hdr.Laid d len l) {into : Buf} {pos n : ℕ} (hle : pos + n ≤ len)
    (hmaps : ∀ i, pos / SectorSize ≤ i → i * SectorSize < pos + n →
      f.hdr.Maps d i (l.getD (slot (sectorsFor len) i) 0))
    {Q : ℤ × Buf × OpenFile → Disk → Prop}
    (hQ : ∀ visit into', (∀ k < n,
        into' k = flat d (fun i => l.getD (slot (sectorsFor len) i) 0) (pos + k)) →
      Q (n, into', f.touch visit f.hdr.lastModifyTime) d) :
    (f.readAt into n pos).wp ab Q d := by
  have hlt := hL.lt
  have hmin : min (n : ℤ).toNat (len - pos) = n := by omega
  refine wp_readAt (fun i => l.getD (slot (sectorsFor len) i) 0) hL.numBytes_toInt (by omega) ?_ ?_
  · intro _ i h1 h2
    exact hmaps i h1 (by omega)
  · intro visit
    simp only [hmin]
    apply hQ
    intro k hk
    rw [if_pos hk]

end OpenFile

/-! ### An open file on a consistent disk -/

namespace Disk

open FileHeader (sectorsFor slot Laid newSectors)
open OpenFile (Extended)

variable {ab : Prop} {d : Disk} {o : Ownership Owner ℕ}

/-- The handle `f` is open on the file of entry `i`, with its header in `s` and `len` bytes in the
sectors `l`. -/
structure Opened (d : Disk) (o : Ownership Owner ℕ) (i : Fin NumDirEntries) (s : ℕ) (l : List ℕ)
    (len : ℕ) (f : OpenFile) : Prop where
  holds : d.Holds o
  entry : d.headerSector (.entry i) = some (s : ℤ)
  own : o.own (.entry i) = s :: l
  same : f.hdr.SameFile (d.header s)
  laid : (d.header s).Laid d len l

theorem Arranged.laid (H : d.Arranged o) {w : Owner} {s : ℕ} {l : List ℕ}
    (hs : d.headerSector w = some (s : ℤ)) (hown : o.own w = s :: l) :
    (d.header s).Laid d (d.header s).numBytes.toInt.toNat l := by
  have hwf := H.wellFormed w s hs
  have hsec := H.sectors w
  rw [sectorsOf, hs, hown, Option.elim_some, List.map_cons, List.cons.injEq] at hsec
  have hnd := o.nodup w
  rw [hown, List.nodup_cons] at hnd
  refine ⟨?_, hwf.numSectors, hwf.capacity, hsec.2, hnd.2, fun x hx => H.range x ⟨w, ?_⟩⟩
  · rw [Int.toNat_of_nonneg hwf.nonneg, int_toInt]
  · rw [hown]
    exact List.mem_cons_of_mem _ hx

theorem Holds.opened (H : d.Holds o) {i : Fin NumDirEntries} {s len : ℕ} {f : OpenFile}
    (hs : d.headerSector (.entry i) = some (s : ℤ)) (hf : f.hdr.SameFile (d.header s))
    (hlen : f.length = len) : ∃ l, d.Opened o i s l len f := by
  obtain ⟨t, l, ht, hown, -, -⟩ := H.own_eq hs
  obtain rfl := Int.ofNat.inj ht
  have hL := H.laid hs hown
  have hlen' : (d.header s).numBytes.toInt.toNat = len := by
    rw [← hf.numBytes]
    exact congrArg Int.toNat hlen
  rw [hlen'] at hL
  exact ⟨l, H, hs, hown, hf, hL⟩

/-- A file with no sectors but that of its header is empty. -/
theorem Holds.opened_empty (H : d.Holds o) {i : Fin NumDirEntries} {s : ℕ}
    (hown : o.own (.entry i) = [s]) : d.Opened o i s [] 0 ⟨s, d.header s, 0⟩ := by
  have hs : d.headerSector (.entry i) = some (s : ℤ) := by
    have hsec := H.sectors (.entry i)
    rw [sectorsOf, hown] at hsec
    cases hhs : d.headerSector (.entry i) with
    | none =>
      rw [hhs] at hsec
      cases hsec
    | some t =>
      rw [hhs, Option.elim_some, List.map_cons, List.cons.injEq] at hsec
      exact congrArg some hsec.1
  have hL := H.laid hs hown
  have hlen : (d.header s).numBytes.toInt.toNat = 0 := by
    have hl := FileHeader.length_of_listed hL.numSectors_toNat hL.listed
    have hzero : sectorsFor (d.header s).numBytes.toInt.toNat = 0 := by
      rw [List.length_nil] at hl
      split_ifs at hl
      exact hl.symm
    simp only [sectorsFor, SectorSize] at hzero
    omega
  rw [hlen] at hL
  exact ⟨H, hs, hown, .refl _, hL⟩

namespace Opened

variable {i : Fin NumDirEntries} {s len : ℕ} {l ml dl : List ℕ} {f : OpenFile} {x : ℕ} {f₁ : OpenFile}
  {added : List ℕ} {d₁ : Disk} {len' : ℕ}

theorem held (A : d.Opened o i s l len f) (hx : x ∈ s :: l) : x ∈ o.own (.entry i) :=
  A.own ▸ hx

theorem notMem_freeMap (A : d.Opened o i s l len f) (hml : o.own .freeMap = 0 :: ml) (hx : x ∈ s :: l) :
    x ≠ 0 ∧ x ∉ ml := by
  have hne : x ∉ o.own .freeMap := fun h => by cases o.unique (A.held hx) h
  rw [hml, List.mem_cons, not_or] at hne
  exact hne

theorem lt_numSectors (A : d.Opened o i s l len f) : s < NumSectors :=
  A.holds.range s ⟨_, A.held List.mem_cons_self⟩

theorem notMem_blocks (A : d.Opened o i s l len f) : s ∉ l := by
  have hnd := o.nodup (.entry i)
  rw [A.own, List.nodup_cons] at hnd
  exact hnd.1

/-- A write past the end: the file is extended, and then the data are stored. -/
theorem wp_writeAt (A : d.Opened o i s l len f) (hml : o.own .freeMap = 0 :: ml) {pos n : ℕ}
    (hn : 0 < n) (hgrow : len < pos + n) (hcap : sectorsFor (pos + n) ≤ 57)
    (hroom : sectorsFor (pos + n) - sectorsFor len ≤ d.freeMap.clears.length)
    {Q : ℤ × OpenFile → Disk → Prop}
    (hab : NumDirect ≤ sectorsFor len → sectorsFor len < sectorsFor (pos + n) → ab)
    (hstore : ∀ f₁ d₁, (NumDirect ≤ sectorsFor len → sectorsFor (pos + n) = sectorsFor len) →
      Extended f d s ml (pos + n) (newSectors d.freeMap len (pos + n)) f₁ d₁ →
      (f₁.store data n pos).wp ab Q d₁) : (f.writeAt data n pos).wp ab Q d := by
  obtain ⟨ml', hml', hms⟩ := A.holds.mapFile
  obtain rfl : ml' = ml := (List.cons.inj (hml'.symm.trans hml)).2
  obtain ⟨-, hsml⟩ := A.notMem_freeMap hml List.mem_cons_self
  have hb : f.hdr.numBytes.toInt = len := by rw [A.same.numBytes, A.laid.numBytes_toInt]
  have hhdr : f.hdr.hdrSector = int s := by
    rw [A.same.hdrSector]
    exact (A.holds.wellFormed _ _ A.entry).hdrSector
  have hlt31 : pos + n < 2 ^ 31 := by
    simp only [sectorsFor, SectorSize] at hcap
    omega
  have hpast : wrap ((pos : ℤ) + (n : ℕ)) > f.hdr.fileLength := by
    rw [FileHeader.fileLength, hb, wrap_eq (by omega) (by omega)]
    omega
  rw [OpenFile.writeAt, OpenFile.writeAtDepth, if_neg (by omega), if_pos hpast, Prog.wp_do]
  exact OpenFile.wp_extend hms A.lt_numSectors hsml hhdr hb
    (A.same.numSectors.trans A.laid.numSectors) hgrow hcap hroom hab hstore

/-- The second-level table is not touched by the extension. -/
theorem extended_index (A : d.Opened o i s l len f) (hml : o.own .freeMap = 0 :: ml)
    (E : Extended f d s ml len' added f₁ d₁) (hx : x ∈ l) : d₁ x = d x := by
  refine E.frame x ?_ (A.notMem_freeMap hml (List.mem_cons_of_mem _ hx)).2
  rintro rfl
  exact A.notMem_blocks hx

/-- An extension that needs no new sector. -/
theorem extended_same (A : d.Opened o i s l len f) (hml : o.own .freeMap = 0 :: ml)
    (E : Extended f d s ml len' [] f₁ d₁) (hsame : sectorsFor len' = sectorsFor len) :
    f₁.hdr.Laid d₁ len' l := by
  have hnum : f₁.hdr.numSectors = (d.header s).numSectors := by
    rw [E.hdr.numSectors, A.laid.numSectors, ← hsame]
    rfl
  have hdata : f₁.hdr.dataSectors = (d.header s).dataSectors := by
    rw [E.hdr.dataSectors, ← A.same.dataSectors]
    rfl
  refine ⟨E.hdr.numBytes, E.hdr.numSectors, hsame ▸ A.laid.capacity, ?_, A.laid.nodup,
    A.laid.inRange⟩
  rw [← A.laid.listed]
  exact FileHeader.listed_congr hnum hdata fun hn =>
    A.extended_index hml E (index_mem hn A.laid.listed)

/-- An extension by one sector within the direct table. -/
theorem extended_one (A : d.Opened o i s l len f) {len' x : ℕ} (E : Extended f d s ml len' [x] f₁ d₁)
    (hone : sectorsFor len' = sectorsFor len + 1) (hdirect : sectorsFor len' ≤ NumDirect)
    (hx : x < NumSectors) (hxl : x ∉ l) : f₁.hdr.Laid d₁ len' (l ++ [x]) := by
  have hdirect' : sectorsFor len' ≤ 26 := hdirect
  have hold : (d.header s).numSectors.toNat = sectorsFor len := A.laid.numSectors_toNat
  have hlists := FileHeader.Lists.of_listed (by rw [hold]; omega) A.laid.numBytes A.laid.listed
  have hlen : l.length = sectorsFor len := A.laid.length_direct (by omega)
  have hmem : ∀ y ∈ l ++ [x], y < NumSectors := by
    intro y hy
    rcases List.mem_append.mp hy with hy | hy
    · exact A.laid.inRange y hy
    · rw [List.mem_singleton.mp hy]
      exact hx
  have hnew : f₁.hdr.Lists len' (l ++ [x]) :=
    ((hlists.congr A.same.symm).grown (by omega) (by omega)).congr E.hdr.symm
  refine ⟨E.hdr.numBytes, E.hdr.numSectors, hdirect'.trans (by decide),
    hnew.listed_eq ?_ hmem, ?_, hmem⟩
  · rw [List.length_append, hlen, List.length_singleton]
    omega
  · exact A.laid.nodup.append (List.nodup_singleton x)
      fun y hy hy' => hxl (List.mem_singleton.mp hy' ▸ hy)

/-- The sectors of an extended file are not those of the header, nor of the free map. -/
theorem notMem_extended (A : d.Opened o i s l len f) (hml : o.own .freeMap = 0 :: ml)
    (hadd : ∀ x ∈ added, x < NumSectors ∧ d.freeMap.bit x = false) (hx : x ∈ l ++ added) :
    x ≠ s ∧ x ∉ 0 :: ml := by
  rcases List.mem_append.mp hx with hx | hx
  · have hmem := A.held (List.mem_cons_of_mem _ hx)
    constructor
    · rintro rfl
      exact A.notMem_blocks hx
    · intro h
      rw [← hml] at h
      cases o.unique hmem h
  · obtain ⟨hlt, hfree⟩ := hadd x hx
    have hnot : ¬ o.Held x := by
      rw [← A.holds.marked x hlt, hfree]
      exact Bool.false_ne_true
    constructor
    · rintro rfl
      exact hnot ⟨_, A.held List.mem_cons_self⟩
    · intro h
      rw [← hml] at h
      exact hnot ⟨_, h⟩

theorem nodup_extended (A : d.Opened o i s l len f) (hnd : added.Nodup)
    (hadd : ∀ x ∈ added, x < NumSectors ∧ d.freeMap.bit x = false) : (l ++ added).Nodup := by
  refine A.laid.nodup.append hnd fun x hx hx' => ?_
  obtain ⟨hlt, hfree⟩ := hadd x hx'
  have hheld : o.Held x := ⟨_, A.held (List.mem_cons_of_mem _ hx)⟩
  rw [← A.holds.marked x hlt, hfree] at hheld
  cases hheld

/-- The sectors of a file after an extension by at most one sector. -/
theorem laid_extended (A : d.Opened o i s l len f) (hml : o.own .freeMap = 0 :: ml)
    (E : Extended f d s ml len' (newSectors d.freeMap len len') f₁ d₁)
    (hone : sectorsFor len' = sectorsFor len ∨
      sectorsFor len' = sectorsFor len + 1 ∧ sectorsFor len' ≤ NumDirect)
    (hroom : sectorsFor len' - sectorsFor len ≤ d.freeMap.clears.length) :
    f₁.hdr.Laid d₁ len' (l ++ newSectors d.freeMap len len') := by
  rcases hone with hsame | ⟨hone, hle⟩
  · rw [newSectors, if_pos hsame] at E ⊢
    rw [List.append_nil]
    exact A.extended_same hml E hsame
  · cases hclears : d.freeMap.clears with
    | nil =>
      rw [hclears, List.length_nil] at hroom
      omega
    | cons x rest =>
      obtain ⟨hx, hbit⟩ := BitMap.mem_clears.mp (hclears ▸ List.mem_cons_self (a := x))
      have hnew : newSectors d.freeMap len len' = [x] := by
        rw [newSectors, if_neg (by omega), hclears]
        rfl
      rw [hnew] at E ⊢
      refine A.extended_one E hone hle hx fun h => ?_
      have hheld : o.Held x := ⟨_, A.held (List.mem_cons_of_mem _ h)⟩
      rw [← A.holds.marked x hx, hbit] at hheld
      cases hheld

/-- The free map after an extension, on a disk `d'` that has kept it. -/
theorem extended_bits (A : d.Opened o i s l len f) (hml : o.own .freeMap = 0 :: ml) {d₁ d' : Disk}
    (E : Extended f d s ml len' added f₁ d₁) (hkeep : ∀ x ∈ 0 :: ml, d' x = d₁ x)
    (hx : x < NumSectors) : d'.freeMap.bit x = (decide (x ∈ added) || d.freeMap.bit x) := by
  obtain ⟨ml', hml', hms⟩ := A.holds.mapFile
  obtain rfl : ml' = ml := (List.cons.inj (hml'.symm.trans hml)).2
  have h0 : d' 0 = d 0 := by
    rw [hkeep 0 List.mem_cons_self]
    refine E.frame 0 (A.notMem_freeMap hml List.mem_cons_self).1.symm ?_
    have hnd := o.nodup .freeMap
    rw [hml, List.nodup_cons] at hnd
    exact hnd.1
  have hmapHdr : d'.header FreeMapSector = d.header FreeMapSector := congrArg FileHeader.ofSector h0
  have hx8 : x / 8 < FreeMapFileSize := by
    simp only [FreeMapFileSize, NumSectors, SectorsPerTrack, NumTracks, BitsInByte] at *
    omega
  rw [Disk.bit_freeMap (l := ml') (by rw [hmapHdr]; exact hms) hx, ← E.bits x hx,
    flat_congr (fun y hy => hkeep y (List.mem_cons_of_mem _ hy)) (hms.lt_length ?_)]
  exact lt_of_le_of_lt (Nat.div_mul_le_self _ SectorSize) hx8

/-- **An extension keeps the disk consistent**: the new sectors now belong to the file, and `d'` may
have other contents in its sectors. -/
theorem opened_extended (A : d.Opened o i s l len f) (hml : o.own .freeMap = 0 :: ml) {d₁ d' : Disk}
    (E : Extended f d s ml len' added f₁ d₁) (hL : f₁.hdr.Laid d₁ len' (l ++ added))
    (hle : sectorsFor len' ≤ NumDirect) (hnd : added.Nodup)
    (hadd : ∀ x ∈ added, x < NumSectors ∧ d.freeMap.bit x = false)
    (hout : ∀ x, x ∉ l ++ added → d' x = d₁ x) : ∃ o', d'.Opened o' i s (l ++ added) len' f₁ := by
  have hfree : ∀ x ∈ added, ¬ o.Held x := by
    intro x hx hheld
    obtain ⟨hlt, hbit⟩ := hadd x hx
    rw [← A.holds.marked x hlt, hbit] at hheld
    cases hheld
  have hown : (o.give (.entry i) added hnd hfree).own (.entry i) = s :: (l ++ added) := by
    rw [Ownership.own_give_self, A.own, List.cons_append]
  -- the sectors of the other files are as they were, except for those of the free map
  have hkeep : ∀ w x, w ≠ .entry i → x ∈ o.own w → x ∉ ml → d' x = d x := by
    intro w x hw hx hxm
    have hnot : x ∉ s :: l := fun h => hw (o.unique hx (A.held h))
    rw [List.mem_cons, not_or] at hnot
    rw [hout x, E.frame x hnot.1 hxm]
    rw [List.mem_append, not_or]
    exact ⟨hnot.2, fun h => hfree x h ⟨w, hx⟩⟩
  have hdir : ∀ x ∈ o.own .directory, d' x = d x := by
    intro x hx
    refine hkeep .directory x (by simp) hx fun hm => ?_
    cases o.unique hx (show x ∈ o.own .freeMap by rw [hml]; exact List.mem_cons_of_mem _ hm)
  obtain ⟨-, htable⟩ := A.holds.table_congr hdir
  have hentry : d'.headerSector (.entry i) = some (s : ℤ) := by
    rw [← A.entry, headerSector, headerSector, htable i i.isLt]
  have hheader : d'.header s = f₁.hdr := by
    rw [← E.stored, header, header, Int.toNat_natCast, hout s]
    exact fun h => (A.notMem_extended hml hadd h).1 rfl
  have hL' : f₁.hdr.Laid d' len' (l ++ added) :=
    hL.congr (.refl _) fun hn => absurd hn hle.not_gt
  have hmap : ∀ x ∈ 0 :: ml, d' x = d₁ x := by
    intro x hx
    apply hout x
    intro hmem
    exact (A.notMem_extended hml hadd hmem).2 hx
  have hwf : f₁.hdr.WellFormed s := by
    refine ⟨?_, ?_, ?_, ?_⟩
    · rw [E.hdr.hdrSector, FileHeader.hdrSector_grown, A.same.hdrSector]
      exact (A.holds.wellFormed _ _ A.entry).hdrSector
    · rw [hL.numBytes_toInt]
      omega
    · rw [hL.numBytes_toInt, Int.toNat_natCast]
      exact hL.numSectors
    · rw [hL.numBytes_toInt, Int.toNat_natCast]
      exact hL.capacity
  have harranged : d'.Arranged (o.give (.entry i) added hnd hfree) := by
    apply A.holds.change (i := i)
    · exact fun w hw => Ownership.own_give_of_ne hw
    · intro w x hw hx hmap' _
      refine hkeep w x hw hx fun hm => ?_
      have hw' := o.unique hx (show x ∈ o.own .freeMap by rw [hml]; exact List.mem_cons_of_mem _ hm)
      have hnd0 := o.nodup .freeMap
      rw [hml, List.nodup_cons] at hnd0
      exact hnd0.1 (hmap' hw' ▸ hm)
    · exact fun j _ => htable j j.isLt
    · rw [sectorsOf, hentry, Option.elim_some, hheader, hown, List.map_cons, hL'.listed]
      rfl
    · intro t ht
      obtain rfl := Option.some.inj (hentry.symm.trans ht)
      rw [hheader]
      exact hwf
    · rw [hown]
      intro x hx
      rcases List.mem_cons.mp hx with rfl | hx
      · exact A.lt_numSectors
      · exact hL.inRange x hx
  refine ⟨_, ⟨harranged, fun x hx => ?_⟩, hentry, hown, ?_, ?_⟩
  · rw [A.extended_bits hml E hmap hx, Ownership.held_give, ← A.holds.marked x hx, Bool.or_eq_true,
      decide_eq_true_eq]
  · rw [hheader]
    exact .refl _
  · rw [hheader]
    exact hL'

/-- The second half of a `WriteAt` that has extended the file and finds its blocks. -/
theorem wp_store_grown (A : d.Opened o i s l len f) (hml : o.own .freeMap = 0 :: ml) {pos n : ℕ}
    (hn : 0 < n) (hgrow : len < pos + n) (E : Extended f d s ml (pos + n) added f₁ d₁)
    (hL : f₁.hdr.Laid d₁ (pos + n) (l ++ added)) (hnd : added.Nodup)
    (hadd : ∀ x ∈ added, x < NumSectors ∧ d.freeMap.bit x = false)
    (hslot : ∀ j < sectorsFor len, (l ++ added).getD (slot (sectorsFor (pos + n)) j) 0
      = l.getD (slot (sectorsFor len) j) 0)
    (hmaps : ∀ j, pos / SectorSize ≤ j → j * SectorSize < pos + n →
      f₁.hdr.Maps d₁ j ((l ++ added).getD (slot (sectorsFor (pos + n)) j) 0))
    (hindex : ∀ j, 25 ≤ j → j * SectorSize < pos + n → NumDirect < sectorsFor (pos + n)) :
    (f₁.store data n pos).wp ab (OpenFile.Grown d f s data n pos) d₁ := by
  refine OpenFile.wp_store_laid hL hn le_rfl hmaps hindex fun visit modify d' hframe hflat => ?_
  have hout : ∀ x, x ∉ l ++ added → d' x = d₁ x := by
    intro x hx
    refine hframe x fun j hj heq => hx ?_
    rw [← heq]
    exact hL.getD_mem hj
  have hs' : d' s = d₁ s := hout s fun h => (A.notMem_extended hml hadd h).1 rfl
  have hheader : d'.header s = f₁.hdr := by
    rw [← E.stored, header, header, Int.toNat_natCast, hs']
  -- the table and the free map are where the extension left them
  have htable : ∀ t : ℕ, NumDirect < sectorsFor (pos + n) → (f₁.hdr.dataSectors 25).toInt = t →
      d' t = d₁ t := by
    intro t hn26 ht
    refine hframe t fun j hj heq => hL.index_ne hn26 hj ?_
    rw [ht, heq]
  have hL' : f₁.hdr.Laid d' (pos + n) (l ++ added) := by
    refine hL.congr (.refl _) fun hn26 => htable _ hn26 ?_
    exact FileHeader.index_eq hL.numSectors_toNat hL.listed (lt_trans (by decide) hn26)
  have hmap : ∀ x ∈ 0 :: ml, d' x = d₁ x := by
    intro x hx
    apply hout x
    intro hmem
    exact (A.notMem_extended hml hadd hmem).2 hx
  refine ⟨rfl, ?_, ?_, ?_, ?_, ?_, added, ?_, hnd, hadd, ?_⟩
  · exact hL.numBytes_toInt
  · rw [hheader]
    exact (f₁.sameFile_touch _ _).symm
  · intro p hp hpos
    have hplen : p < len := by
      have hb : f.length = len := by
        rw [← A.laid.numBytes_toInt, ← A.same.numBytes]
        rfl
      omega
    have hj : p / SectorSize < sectorsFor len := by
      simp only [sectorsFor, SectorSize]
      omega
    rw [hheader, hL'.content_eq (by omega), hflat p (by omega), if_neg (by omega),
      A.laid.content_eq hplen, flat, flat, hslot _ hj, A.extended_index hml E (A.laid.getD_mem hj)]
  · intro p hp1 hp2
    rw [hheader, hL'.content_eq hp2, hflat p hp2, if_pos ⟨hp1, hp2⟩]
  · intro into
    have hLt : (f₁.touch visit modify).hdr.Laid d' (pos + n) (l ++ added) :=
      hL'.congr (f₁.sameFile_touch _ _).symm fun _ => rfl
    refine OpenFile.wp_readAt_laid hLt le_rfl (fun j h1 h2 => ?_) fun v into' hinto => ⟨rfl, ?_⟩
    · exact (hmaps j h1 h2).congr fun t h25 ht => htable t (hindex j h25 h2) ht
    · intro k hk
      show into' k = data k
      rw [hinto k hk, hflat _ (by omega), if_pos (by omega), Nat.add_sub_cancel_left]
  · rw [hheader, hL'.listed, A.laid.listed, List.map_append]
  · intro x hx
    rw [A.extended_bits hml E hmap hx, Bool.or_eq_true, decide_eq_true_eq, or_comm]

/-- **A write past the end that grows the file well does what it should.** -/
theorem wp_writeAt_grown (A : d.Opened o i s l len f) {pos n : ℕ} (hn : 0 < n) (hgrow : len < pos + n)
    (hcap : sectorsFor (pos + n) ≤ 57)
    (hroom : sectorsFor (pos + n) - sectorsFor len ≤ d.freeMap.clears.length)
    (hwell : OpenFile.GrowsWell d (d.header s) len pos n) :
    (f.writeAt data n pos).wp ab (OpenFile.Grown d f s data n pos) d := by
  obtain ⟨ml, hml, -⟩ := A.holds.mapFile
  have hblock : ∀ j, j * SectorSize < pos + n → j < sectorsFor (pos + n) := by
    intro j hj
    simp only [sectorsFor, SectorSize]
    simp only [SectorSize] at hj
    omega
  apply A.wp_writeAt hml hn hgrow hcap hroom
  · -- the table has room for a new entry
    intro h1 h2
    rcases hwell with ⟨hsame, -⟩ | ⟨hone, hlt⟩ <;> omega
  · intro f₁ d₁ _ E
    rcases hwell with ⟨hsame, hcase⟩ | ⟨hone, hlt⟩
    · -- no new sector
      rw [newSectors, if_pos hsame] at E
      have hL := A.extended_same hml E hsame
      have happ : l ++ [] = l := List.append_nil l
      refine A.wp_store_grown hml hn hgrow E (by rw [happ]; exact hL) List.nodup_nil (by simp)
        (fun j _ => by rw [happ, hsame]) (fun j h1 h2 => ?_) fun j h25 h2 => ?_
      · rw [happ]
        by_cases h25 : j < 25
        · exact hL.maps_direct (hblock j h2) h25 d₁
        · have hj := hblock j h2
          rcases hcase with hlt | ⟨hgt, h128⟩
          · have : sectorsFor len < 26 := hlt
            omega
          · refine hL.maps_indexed (by omega) hj (by omega) ?_
            have hb := h128 j (by omega) h1 h2
            rw [A.laid.block_eq (by omega)] at hb
            rw [hL.block_eq hj, hsame]
            exact hb
      · have hj := hblock j h2
        rcases hcase with hlt | ⟨hgt, -⟩
        · have : sectorsFor len < 26 := hlt
          omega
        · omega
    · -- one new sector, the first clear one
      have hlt' : sectorsFor (pos + n) < 26 := hlt
      have hL := A.laid_extended hml E (Or.inr ⟨hone, hlt.le⟩) hroom
      have hlen : l.length = sectorsFor len := A.laid.length_direct (by omega)
      refine A.wp_store_grown hml hn hgrow E hL FileHeader.nodup_newSectors
        (fun x hx => FileHeader.free_of_mem_newSectors hx) (fun j hj => ?_) (fun j h1 h2 => ?_)
        fun j h25 h2 => ?_
      · rw [slot, slot, if_pos (Or.inl hlt.le), if_pos (Or.inl (by omega)),
          List.getD_append _ _ _ _ (by omega)]
      · exact hL.maps_direct (hblock j h2) (by have := hblock j h2; omega) d₁
      · have := hblock j h2
        omega

end Opened

end Disk

end Nachos
