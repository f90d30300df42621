import Nachos.Filesys.ConcurrentGrowth
import Nachos.Filesys.Equiv.Extend

/-!
## What a `Write` does to the disk, one access at a time

Between two accesses of a `Write` the other threads may do anything that their own protocols allow, so
its accesses are described by what it knows then.  It reads and writes the data sectors of its
file; to extend the file, it reads the header of the free map and the map, writes its own header and
then the map.  A `Write` that extends its file by at most one sector keeps to this protocol
(`follows_write`).
-/

namespace Nachos

open Storage Memory

/-- The bits of a free map that is stored in one sector. -/
def Sector.mapBit (b : Sector) (x : ℕ) : Bool := (b.bytes (x / 8)).getLsbD (x % 8)

namespace FileHeader

variable {h : FileHeader} {size : ℕ} {l : List ℕ}

/-- `ByteToSector` on a short file reads nothing. -/
theorem Short.byteToSector_eq (hl : h.Short size l) {j : ℕ} (hj : j < l.length) :
    l.getD j 0 ∈ l ∧ l.getD j 0 < NumSectors ∧
      h.byteToSector (j * SectorSize : ℕ) = pure ((l.getD j 0 : ℕ) : ℤ) := by
  have hmem : l.getD j 0 ∈ l := by
    rw [List.getD_eq_getElem _ _ hj]
    exact l.getElem_mem hj
  have hlt := hl.inRange _ hmem
  have h25 : j < 25 := lt_of_lt_of_le hj hl.short
  refine ⟨hmem, hlt, ?_⟩
  have hoff : (int (j * SectorSize : ℕ)).toNat = j * SectorSize :=
    toNat_int_natCast (by simp only [SectorSize]; omega)
  rw [byteToSector, hoff, if_pos (by simp only [SectorSize, NumDirect]; omega),
    Nat.mul_div_cancel j (by decide), hl.sectors j hj, List.get_eq_getElem,
    ← List.getD_eq_getElem _ 0 hj, toInt_int_natCast (hlt.trans (by decide))]

end FileHeader

namespace OpenFile

variable {hdr : FileHeader} {size : ℕ} {l : List ℕ}

/-- One round of the loop of `ReadAt`, -/
theorem readSectors_succ (hl : hdr.Short size l) (first n j : ℕ) (buf : Buf)
    (hj : first + j < l.length) :
    l.getD (first + j) 0 ∈ l ∧ l.getD (first + j) 0 < NumSectors ∧
      readSectors hdr first (n + 1) j buf = (do
        let data ← readSector (l.getD (first + j) 0 : ℕ)
        readSectors hdr first n (j + 1) (data.bytes.copy buf (j * SectorSize) SectorSize)) := by
  obtain ⟨hmem, hlt, hbyte⟩ := hl.byteToSector_eq hj
  refine ⟨hmem, hlt, ?_⟩
  rw [readSectors, natCast_position, hbyte, pure_bind]

/-- and one of the loop of `WriteAt`. -/
theorem writeSectors_succ (hl : hdr.Short size l) (first n j : ℕ) (buf : Buf)
    (hj : first + j < l.length) :
    l.getD (first + j) 0 ∈ l ∧ l.getD (first + j) 0 < NumSectors ∧
      writeSectors hdr first buf (n + 1) j = (do
        writeSector (l.getD (first + j) 0 : ℕ) (.ofBytes (buf.offset (j * SectorSize)))
        writeSectors hdr first buf n (j + 1)) := by
  obtain ⟨hmem, hlt, hbyte⟩ := hl.byteToSector_eq hj
  refine ⟨hmem, hlt, ?_⟩
  rw [writeSectors, natCast_position, hbyte, pure_bind]

end OpenFile

/-! ### A free map in one sector -/

namespace BitMap

variable {m : BitMap} {f : OpenFile} {a : ℕ}

/-- `FetchFrom` reads the sector. -/
theorem fetchFrom_eq (hm : m.numBits = NumSectors) (hf : f.hdr.Short FreeMapFileSize [a]) :
    m.fetchFrom f = do
      let buf ← newBytes
      let data ← readSector a
      let hdr ← f.hdr.setLastVisitTime
      return ({ m with map := Layout.decodeArray (((data.bytes.copy buf 0 SectorSize).offset 0).copy
        m.bytes 0 FreeMapFileSize) }, { f with hdr }) := by
  have hloop : ∀ buf, OpenFile.readSectors f.hdr (0 / SectorSize : ℕ)
      (OpenFile.blockCount 0 FreeMapFileSize) 0 buf
        = do return (← readSector a).bytes.copy buf 0 SectorSize := by
    intro buf
    have hround := OpenFile.readSectors_succ hf 0 0 0 buf Nat.zero_lt_one
    simp only [OpenFile.readSectors.eq_1, Nat.zero_mul] at hround
    exact hround.2.2
  have hread := @OpenFile.readAt_eq f m.bytes (FreeMapFileSize : ℕ) 0 _ FreeMapFileSize
    hf.numBytes_toInt (by decide) rfl
  rw [if_neg (by decide)] at hread
  have hzero : (0 : ℤ) = ((0 : ℕ) : ℤ) := rfl
  rw [fetchFrom, numWords_mul hm, hzero, hread]
  simp only [hloop, bind_assoc, pure_bind, Nat.zero_mod]

/-- `WriteBack` writes it, without reading it first. -/
theorem writeAtDepth_eq (hm : m.numBits = NumSectors) (hf : f.hdr.Short FreeMapFileSize [a])
    {depth : ℕ} :
    OpenFile.writeAtDepth (depth + 1) f m.bytes (m.numWords * 4) 0 = do
      let buf ← newBytes
      writeSector a (.ofBytes ((m.bytes.copy buf 0 FreeMapFileSize).offset 0))
      let hdr ← f.hdr.setLastModifyTime
      return ((FreeMapFileSize : ℕ), { f with hdr }) := by
  have hloop : ∀ buf, OpenFile.writeSectors f.hdr (0 / SectorSize : ℕ) buf
      (OpenFile.blockCount 0 FreeMapFileSize) 0 = writeSector a (.ofBytes (buf.offset 0)) := by
    intro buf
    have hround := OpenFile.writeSectors_succ hf 0 0 0 buf Nat.zero_lt_one
    rw [OpenFile.writeSectors.eq_1, bind_pure_unit, Nat.zero_mul] at hround
    exact hround.2.2
  have hstore := @OpenFile.writeAtDepth_eq_store f m.bytes 0 FreeMapFileSize _ depth (by decide)
    hf.numBytes_toInt (by decide)
  have hzero : (0 : ℤ) = ((0 : ℕ) : ℤ) := rfl
  rw [numWords_mul hm, hzero, hstore, OpenFile.store_eq (by decide)]
  -- the file is one whole sector
  have hfirst : ¬ (0 : ℕ) ≠ 0 / SectorSize * SectorSize := by decide
  have hlast : ¬ (0 + FreeMapFileSize ≠ ((0 + FreeMapFileSize - 1) / SectorSize + 1) * SectorSize ∧
      (0 / SectorSize ≠ (0 + FreeMapFileSize - 1) / SectorSize ∨
        0 = 0 / SectorSize * SectorSize)) := by decide
  simp only [if_neg hfirst, if_neg hlast, hloop, pure_bind, Nat.zero_mod]

end BitMap

namespace WriteProtocol

/-- What a thread knows: the data sectors `l` of its file, the bits `m` of the free map it has read, and
the sectors `added` that it has entered in its header and not yet in the free map. -/
inductive View where
  | idle (l : List ℕ)
  | opened (l : List ℕ)
  | fetched (l : List ℕ) (m : ℕ → Bool)
  | listed (l added : List ℕ) (m : ℕ → Bool)

/-- The steps of a thread whose header is in sector `s`; the free map is in sector `a`. -/
inductive Next (a s : ℕ) : View → Event ℕ Sector SyncCall → View → Prop where
  | sync {l : List ℕ} (c : SyncCall) : Next a s (.idle l) (.sync c) (.idle l)
  | readData {l : List ℕ} {x : ℕ} (hx : x ∈ l) (b : Sector) :
    Next a s (.idle l) (.read x b) (.idle l)
  | writeData {l : List ℕ} {x : ℕ} (hx : x ∈ l) (b : Sector) :
    Next a s (.idle l) (.write x b) (.idle l)
  | openMap {l : List ℕ} (b : Sector) : Next a s (.idle l) (.read 0 b) (.opened l)
  | fetchMap {l : List ℕ} (b : Sector) : Next a s (.opened l) (.read a b) (.fetched l b.mapBit)
  | writeHeader {l added : List ℕ} {m : ℕ → Bool} {len : ℕ} {b : Sector}
    (hdr : (FileHeader.ofSector b).Short len (l ++ added))
    (hs : (FileHeader.ofSector b).hdrSector = int s) (hfree : ∀ x ∈ added, m x = false) :
    Next a s (.fetched l m) (.write s b) (.listed l added m)
  | writeMap {l added : List ℕ} {m : ℕ → Bool} {b : Sector}
    (hb : ∀ x < NumSectors, b.mapBit x = (decide (x ∈ added) || m x)) :
    Next a s (.listed l added m) (.write a b) (.idle (l ++ added))

/-- Sector 0 holds the header of the free map.  A thread that has read it finds a clear bit in the map,
and none of its own sectors clear. -/
def protocol (a s : ℕ) : Protocol ℕ Sector SyncCall View where
  sees v x b := (x = 0 → (FileHeader.ofSector b).Short FreeMapFileSize [a]) ∧
    ∀ l, v = .opened l → x = a → (∃ y < NumSectors, b.mapBit y = false) ∧ ∀ y ∈ l, b.mapBit y = true
  next := Next a s

/-! ### Rules for the accesses -/

variable {hdr : FileHeader} {pos : ℕ} {Q : ℤ × OpenFile → View → Prop}

section Rules

variable {ν : Type} {P : Protocol ℕ Sector SyncCall ν} {v : ν}

theorem follows_newBytes {Q : Buf → ν → Prop} (h : ∀ b, Q b v) : newBytes.Follows P Q v := by
  simp only [newBytes, Prog.Follows.ask_iff, Prog.Follows.ret_iff]
  exact h

theorem follows_time {Q : CInt → ν → Prop} (h : ∀ t, Q t v) : time.Follows P Q v := by
  simp only [time, Prog.Follows.ask_iff, Prog.Follows.ret_iff]
  exact fun b => h (Layout.decode b)

theorem follows_sync {c : SyncCall} {Q : Unit → ν → Prop} {v' : ν} (hnext : P.next v (.sync c) v')
    (h : Q () v') : (sync c).Follows P Q v := by
  rw [sync, Prog.Follows.sync_iff]
  exact ⟨v', hnext, (Prog.Follows.ret_iff ()).mpr h⟩

theorem follows_readSector {x : ℕ} (hx : x < NumSectors) {Q : Sector → ν → Prop}
    (h : ∀ b, P.sees v x b → ∃ v', P.next v (.read x b) v' ∧ Q b v') :
    (readSector x).Follows P Q v := by
  have hr : Disk.InRange x := ⟨Int.natCast_nonneg x, Int.ofNat_lt.mpr hx⟩
  rw [readSector, if_pos hr, Int.toNat_natCast, Prog.Follows.read_iff]
  simp only [Prog.Follows.ret_iff]
  exact h

theorem follows_writeSector {x : ℕ} (hx : x < NumSectors) {b : Sector} {Q : Unit → ν → Prop} {v' : ν}
    (hnext : P.next v (.write x b) v') (h : Q () v') : (writeSector x b).Follows P Q v := by
  have hr : Disk.InRange x := ⟨Int.natCast_nonneg x, Int.ofNat_lt.mpr hx⟩
  rw [writeSector, if_pos hr, Int.toNat_natCast, Prog.Follows.write_iff]
  exact ⟨v', hnext, (Prog.Follows.ret_iff ()).mpr h⟩

theorem follows_setLastVisitTime {Q : FileHeader → ν → Prop}
    (h : ∀ t, Q { hdr with lastVistTime := t } v) : hdr.setLastVisitTime.Follows P Q v := by
  simp only [FileHeader.setLastVisitTime, Prog.Follows.do_iff, Prog.Follows.pure_iff]
  exact follows_time h

theorem follows_setLastModifyTime {Q : FileHeader → ν → Prop}
    (h : ∀ t, Q { hdr with lastModifyTime := t } v) : hdr.setLastModifyTime.Follows P Q v := by
  simp only [FileHeader.setLastModifyTime, Prog.Follows.do_iff, Prog.Follows.pure_iff]
  exact follows_time h

end Rules

/-! ### The data of the file -/

section Data

variable {a s len : ℕ} {l : List ℕ} {f : OpenFile}

theorem follows_readSectors (hl : hdr.Short len l) {first n j : ℕ} {buf : Buf}
    (hend : first + j + n ≤ l.length) {Q : Buf → View → Prop} (hQ : ∀ buf', Q buf' (.idle l)) :
    (OpenFile.readSectors hdr first n j buf).Follows (protocol a s) Q (.idle l) := by
  induction n generalizing j buf with
  | zero =>
    rw [OpenFile.readSectors, Prog.Follows.pure_iff]
    exact hQ buf
  | succ n ih =>
    obtain ⟨hmem, hlt, hread⟩ := OpenFile.readSectors_succ hl first n j buf (by omega)
    rw [hread, Prog.Follows.do_iff]
    exact follows_readSector hlt fun b _ => ⟨.idle l, .readData hmem b, ih (by omega)⟩

theorem follows_readAt (hl : f.hdr.Short len l) {into : Buf} {n : ℤ} (hlt : pos + n < 2 ^ 31)
    {Q : ℤ × Buf × OpenFile → View → Prop}
    (hQ : ∀ m into' visit modify, Q (m, into', f.touch visit modify) (.idle l)) :
    (f.readAt into n pos).Follows (protocol a s) Q (.idle l) := by
  rw [OpenFile.readAt_eq hl.numBytes_toInt hlt rfl]
  split_ifs with hzero
  · rw [Prog.Follows.pure_iff]
    exact hQ 0 into f.hdr.lastVistTime f.hdr.lastModifyTime
  · simp only [Prog.Follows.do_iff]
    apply follows_newBytes
    intro buf
    apply follows_readSectors hl
    · rw [hl.length]
      simp only [OpenFile.blockCount, FileHeader.sectorsFor, SectorSize]
      omega
    · intro buf'
      apply follows_setLastVisitTime
      intro t
      rw [Prog.Follows.pure_iff]
      exact hQ _ _ t f.hdr.lastModifyTime

theorem follows_readInto {c : Prop} {_ : Decidable c} (hl : f.hdr.Short len l) {buf : Buf}
    {at_ pos : ℕ} (hlt : pos < 2 ^ 30) {Q : Buf × OpenFile → View → Prop}
    (hQ : ∀ buf' visit modify, Q (buf', f.touch visit modify) (.idle l)) :
    (if c then f.readInto buf at_ pos else pure (buf, f)).Follows (protocol a s) Q (.idle l) := by
  split_ifs
  · rw [OpenFile.readInto, Prog.Follows.do_iff]
    apply follows_readAt hl
    · simp only [SectorSize]
      omega
    · intro m into' visit modify
      rw [Prog.Follows.pure_iff]
      exact hQ _ visit modify
  · rw [Prog.Follows.pure_iff]
    exact hQ buf f.hdr.lastVistTime f.hdr.lastModifyTime

theorem follows_writeSectors (hl : hdr.Short len l) {first n j : ℕ} {buf : Buf}
    (hend : first + j + n ≤ l.length) {Q : Unit → View → Prop} (hQ : Q () (.idle l)) :
    (OpenFile.writeSectors hdr first buf n j).Follows (protocol a s) Q (.idle l) := by
  induction n generalizing j with
  | zero =>
    rw [OpenFile.writeSectors, Prog.Follows.pure_iff]
    exact hQ
  | succ n ih =>
    obtain ⟨hmem, hlt, hwrite⟩ := OpenFile.writeSectors_succ hl first n j buf (by omega)
    rw [hwrite, Prog.Follows.do_iff]
    exact follows_writeSector hlt (.writeData hmem _) (ih (by omega))

/-- The second half of `WriteAt`. -/
theorem follows_store (hl : f.hdr.Short len l) {data : Buf} {n pos : ℕ} (hn : 0 < n)
    (hle : pos + n ≤ len) (hQ : ∀ visit modify, Q (n, f.touch visit modify) (.idle l)) :
    (f.store data n pos).Follows (protocol a s) Q (.idle l) := by
  have hlen : len < 2 ^ 30 := by
    have hshort := hl.short
    rw [hl.length] at hshort
    simp only [FileHeader.sectorsFor, SectorSize] at hshort
    omega
  rw [OpenFile.store_eq hn]
  simp only [Prog.Follows.do_iff]
  apply follows_newBytes
  intro buf
  apply follows_readInto hl (by simp only [SectorSize]; omega)
  intro buf₁ visit₁ modify₁
  have hl₁ := hl.congr (f.sameFile_touch visit₁ modify₁).symm
  apply follows_readInto hl₁ (by simp only [SectorSize]; omega)
  intro buf₂ visit₂ modify₂
  apply follows_writeSectors (hl₁.congr ((f.touch visit₁ modify₁).sameFile_touch visit₂ modify₂).symm)
  · rw [hl.length]
    simp only [OpenFile.blockCount, FileHeader.sectorsFor, SectorSize]
    omega
  · apply follows_setLastModifyTime
    intro t
    rw [Prog.Follows.pure_iff]
    exact hQ visit₂ t

end Data

/-! ### The free map -/

section Map

variable {a s : ℕ} {l : List ℕ}

theorem follows_newMap {ν : Type} {P : Protocol ℕ Sector SyncCall ν} {v : ν} {n : ℕ}
    {Q : BitMap → ν → Prop} (hQ : ∀ m : BitMap, m.numBits = n → Q m v) :
    (BitMap.newMap n).Follows P Q v := by
  rw [BitMap.newMap, Prog.Follows.do_iff]
  apply follows_newBytes
  intro garbage
  rw [Prog.Follows.pure_iff]
  exact hQ _ (BitMap.numBits_new _ _)

theorem follows_new {Q : OpenFile → View → Prop}
    (hQ : ∀ f : OpenFile, f.hdr.Short FreeMapFileSize [a] → Q f (.opened l)) :
    (OpenFile.new 0).Follows (protocol a s) Q (.idle l) := by
  simp only [OpenFile.new, FileHeader.fetchFrom, Prog.Follows.do_iff, Prog.Follows.pure_iff]
  apply follows_readSector (x := 0) (by decide)
  intro b hb
  refine ⟨.opened l, .openMap b, ?_⟩
  apply follows_setLastVisitTime
  intro t
  exact hQ _ ((hb.1 rfl).congr ⟨rfl, rfl, rfl, rfl⟩)

/-- The map is in one sector, which is read at once, -/
theorem follows_fetchFrom {m : BitMap} {f : OpenFile} (hm : m.numBits = NumSectors)
    (hf : f.hdr.Short FreeMapFileSize [a]) {Q : BitMap × OpenFile → View → Prop}
    (hQ : ∀ (b : Sector) (m' : BitMap) visit, (∃ y < NumSectors, b.mapBit y = false) →
      (∀ y ∈ l, b.mapBit y = true) → m'.numBits = NumSectors →
      (∀ x < NumSectors, m'.bit x = b.mapBit x) →
      Q (m', f.touch visit f.hdr.lastModifyTime) (.fetched l b.mapBit)) :
    (m.fetchFrom f).Follows (protocol a s) Q (.opened l) := by
  have hlt := hf.inRange a List.mem_cons_self
  rw [BitMap.fetchFrom_eq hm hf]
  simp only [Prog.Follows.do_iff]
  apply follows_newBytes
  intro buf
  apply follows_readSector hlt
  intro b hb
  obtain ⟨hclear, hl⟩ := hb.2 l rfl rfl
  refine ⟨_, .fetchMap b, ?_⟩
  apply follows_setLastVisitTime
  intro t
  rw [Prog.Follows.pure_iff]
  refine hQ b _ t hclear hl hm fun x hx => ?_
  have hx8 : x / 8 < SectorSize := by
    simp only [NumSectors, SectorsPerTrack, NumTracks, SectorSize] at *
    omega
  rw [BitMap.bit_decodeArray, Bytes.copy_of_mem (Nat.zero_le _) (by rw [Nat.zero_add]; exact hx8),
    Bytes.offset, Bytes.copy_of_mem (Nat.zero_le _) (by simpa using hx8)]
  simp [Sector.mapBit]

/-- and written at once. -/
theorem follows_writeAtDepth {m : BitMap} {f : OpenFile} (hm : m.numBits = NumSectors)
    (hf : f.hdr.Short FreeMapFileSize [a]) {added : List ℕ} {bits : ℕ → Bool}
    (hbits : ∀ x < NumSectors, m.bit x = (decide (x ∈ added) || bits x)) {depth : ℕ}
    (hQ : ∀ r, Q r (.idle (l ++ added))) :
    (OpenFile.writeAtDepth (depth + 1) f m.bytes (m.numWords * 4) 0).Follows (protocol a s) Q
      (.listed l added bits) := by
  have hlt := hf.inRange a List.mem_cons_self
  rw [BitMap.writeAtDepth_eq hm hf]
  simp only [Prog.Follows.do_iff]
  apply follows_newBytes
  intro buf
  refine follows_writeSector hlt (.writeMap fun x hx => ?_) ?_
  · have hx8 : x / 8 < SectorSize := by
      simp only [NumSectors, SectorsPerTrack, NumTracks, SectorSize] at *
      omega
    rw [← hbits x hx, BitMap.bit_bytes, Sector.mapBit, Sector.bytes_ofBytes _ hx8, Bytes.offset,
      Nat.zero_add, Bytes.copy_of_mem (Nat.zero_le _) (by rw [Nat.zero_add]; exact hx8), Nat.sub_zero]
  · apply follows_setLastModifyTime
    intro t
    rw [Prog.Follows.pure_iff]
    exact hQ _

end Map

/-! ### Extending the file -/

section Extend

open FileHeader (sectorsFor newSectors)

variable {a s len : ℕ} {l : List ℕ} {f : OpenFile}

/-- The header that `ExtendFile` makes. -/
theorem short_grown {h : FileHeader} {m : BitMap} {len' : ℕ} (hl : h.Short len l) (hlt : len < len')
    (hone : sectorsFor len' ≤ sectorsFor len + 1) (h25 : sectorsFor len' ≤ 25)
    (hm : m.numBits = NumSectors) (hroom : 0 < m.clears.length) (hmarked : ∀ x ∈ l, m.bit x = true) :
    (h.grown len' (newSectors m len len')).Short len' (l ++ newSectors m len len') := by
  have hle : sectorsFor len ≤ sectorsFor len' := Nat.div_le_div_right (by omega)
  have hlen := hl.length
  by_cases hsame : sectorsFor len' = sectorsFor len
  · rw [newSectors, if_pos hsame, List.append_nil]
    refine ⟨⟨rfl, ?_, hl.sectors⟩, hlen.trans hsame.symm, hl.short, hl.inRange, hl.nodup⟩
    rw [hlen, ← hsame]
    rfl
  · obtain ⟨x, rest, hclears⟩ := List.exists_cons_of_length_pos hroom
    have hnew : newSectors m len len' = [x] := by
      rw [newSectors, if_neg hsame, hclears]
      rfl
    obtain ⟨hx, hclear⟩ := BitMap.mem_clears.mp (hclears ▸ List.mem_cons_self : x ∈ m.clears)
    have hlists := hl.toLists.grown (x := x) (by rw [hlen]; simp only [NumDirect]; omega)
      (by omega : sectorsFor len' = l.length + 1)
    rw [hnew]
    refine ⟨hlists, ?_, ?_, fun y hy => ?_, ?_⟩
    · rw [List.length_append, List.length_singleton]
      omega
    · rw [List.length_append, List.length_singleton]
      omega
    · rcases List.mem_append.mp hy with hy | hy
      · exact hl.inRange y hy
      · rw [List.mem_singleton.mp hy, ← hm]
        exact hx
    · -- the new sector was clear, those of the file are marked
      rw [List.nodup_append']
      refine ⟨hl.nodup, List.nodup_singleton x, fun y hy hy' => ?_⟩
      rw [List.mem_singleton.mp hy'] at hy
      rw [hmarked x hy] at hclear
      cases hclear

/-- The first half of a `WriteAt` past the end of the file. -/
theorem follows_extend (hl : f.hdr.Short len l) (hs : s < NumSectors) (hhdr : f.hdr.hdrSector = int s)
    {pos n depth : ℕ} (hlt : len < pos + n) (hone : sectorsFor (pos + n) ≤ sectorsFor len + 1)
    (h25 : sectorsFor (pos + n) ≤ 25) {Q : OpenFile → View → Prop}
    (hQ : ∀ f' l', f'.hdr.Short (pos + n) l' → f'.hdr.hdrSector = int s →
      f'.seekPosition = f.seekPosition → Q f' (.idle l')) :
    (f.extend n pos fun file map => do
      let (_, file) ← OpenFile.writeAtDepth (depth + 1) file map.bytes (map.numWords * 4) 0
      return file).Follows (protocol a s) Q (.idle l) := by
  have hb := hl.numBytes_toInt
  have hlt31 : pos + n < 2 ^ 31 := by
    simp only [sectorsFor, SectorSize] at h25
    omega
  have hbytes : wrap (wrap ((pos : ℤ) + (n : ℕ)) - f.hdr.fileLength) = ((pos + n : ℕ) : ℤ) - len := by
    have hend : wrap ((pos : ℤ) + (n : ℕ)) = (pos : ℤ) + n := wrap_eq (by omega) (by omega)
    rw [FileHeader.fileLength, hb, hend, wrap_eq (by omega) (by omega)]
    omega
  have hsec : (int s).toInt = s := toInt_int_natCast (hs.trans (by decide))
  unfold OpenFile.extend
  simp only [Prog.Follows.do_iff, Prog.Follows.pure_iff, hbytes]
  apply follows_newMap
  intro m₀ hm₀
  apply follows_new
  intro fm hfm
  apply follows_fetchFrom hm₀ hfm
  intro b m visit hclear hmarked hm hbit
  have hroom : 0 < m.clears.length := by
    obtain ⟨y, hy, hby⟩ := hclear
    rw [← hbit y hy] at hby
    exact List.length_pos_of_mem (BitMap.mem_clears.mpr ⟨hm ▸ hy, hby⟩)
  have hgrown := short_grown hl hlt hone h25 hm hroom fun x hx => by
    rw [hbit x (hl.inRange x hx), hmarked x hx]
  have hle : sectorsFor len ≤ sectorsFor (pos + n) := Nat.div_le_div_right (by omega)
  obtain ⟨m', heq, hm', hbit'⟩ := FileHeader.extendFile_eq (m := m) hb
    (hl.numSectors.trans (by rw [hl.length])) hlt (by omega) (by omega)
    (fun h26 => by simp only [NumDirect] at h26; omega)
  rw [heq, Prog.Follows.pure_iff]
  simp only [FileHeader.hdrSector_grown, hhdr, hsec, FileHeader.writeBack, Prog.Follows.do_iff,
    Prog.Follows.pure_iff]
  apply follows_setLastModifyTime
  intro t
  set added := newSectors m len (pos + n)
  set h : FileHeader :=
    { f.hdr.grown (pos + n) added with lastModifyTime := t, hdrSector := int s } with hh
  have hshort : h.Short (pos + n) (l ++ added) := hgrown.congr
    ⟨(FileHeader.hdrSector_grown _ _ _).trans hhdr, rfl, rfl, rfl⟩
  have hstored : (FileHeader.ofSector h.toSector).Short (pos + n) (l ++ added) := by
    rw [FileHeader.ofSector_toSector]
    exact hshort
  have hnext : Next a s (.fetched l b.mapBit) (.write s h.toSector) (.listed l added b.mapBit) := by
    apply Next.writeHeader hstored
    · rw [FileHeader.ofSector_toSector]
    · intro x hx
      obtain ⟨hx, hxm⟩ := FileHeader.free_of_mem_newSectors hx
      rw [← hbit x (hm ▸ hx), hxm]
  apply follows_writeSector hs hnext
  apply follows_writeAtDepth (hm'.trans hm) (hfm.congr (fm.sameFile_touch _ _).symm)
  · intro x hx
    rw [hbit', hbit x hx]
  · intro r
    exact hQ _ _ hshort rfl rfl

end Extend

/-! ### The calls -/

section Calls

open FileHeader (sectorsFor)
open ConcurrentGrowth (Modest)

variable {a s len : ℕ} {l : List ℕ} {f : OpenFile}

/-- The length of the file after a write of `n` bytes at `pos`. -/
def lengthAfter (len pos : ℕ) (n : ℤ) : ℕ := if n ≤ 0 then len else max len (pos + n.toNat)

theorem follows_writeAt (hl : f.hdr.Short len l) (hs : s < NumSectors)
    (hhdr : f.hdr.hdrSector = int s) {data : Buf} {n : ℤ}
    (hmodest : 0 < n → sectorsFor (pos + n.toNat) ≤ sectorsFor len + 1 ∧
      sectorsFor (pos + n.toNat) < NumDirect)
    (hQ : ∀ f' l', f'.hdr.Short (lengthAfter len pos n) l' → f'.hdr.hdrSector = int s →
      f'.seekPosition = f.seekPosition → Q (n.toNat, f') (.idle l')) :
    (f.writeAt data n pos).Follows (protocol a s) Q (.idle l) := by
  by_cases hn : n ≤ 0
  · rw [OpenFile.writeAt, OpenFile.writeAtDepth, if_pos hn, Prog.Follows.pure_iff]
    rw [lengthAfter, if_pos hn, Int.toNat_of_nonpos hn] at hQ
    exact hQ f l hl hhdr rfl
  · obtain ⟨k, rfl⟩ := Int.eq_ofNat_of_zero_le (by omega : 0 ≤ n)
    obtain ⟨hone, h26⟩ := hmodest (by omega)
    rw [lengthAfter, if_neg hn] at hQ
    rw [Int.toNat_natCast] at hone h26 hQ
    have hlt31 : pos + k < 2 ^ 31 := by
      simp only [sectorsFor, SectorSize, NumDirect] at h26
      omega
    by_cases hle : pos + k ≤ len
    · rw [OpenFile.writeAt, OpenFile.writeAtDepth_eq_store (by omega) hl.numBytes_toInt hle]
      rw [max_eq_left hle] at hQ
      apply follows_store hl (by omega) hle
      intro visit modify
      exact hQ _ l (hl.congr (f.sameFile_touch visit modify).symm) hhdr rfl
    · have hpast : wrap ((pos : ℤ) + (k : ℕ)) > f.hdr.fileLength := by
        rw [FileHeader.fileLength, hl.numBytes_toInt, wrap_eq (by omega) (by omega)]
        omega
      rw [max_eq_right (by omega)] at hQ
      rw [OpenFile.writeAt, OpenFile.writeAtDepth, if_neg hn, if_pos hpast, Prog.Follows.do_iff]
      apply follows_extend hl hs hhdr (by omega) hone (by simp only [NumDirect] at h26; omega)
      intro f' l' hl' hhdr' hseek
      apply follows_store hl' (by omega) le_rfl
      intro visit modify
      exact hQ _ l' (hl'.congr (f'.sameFile_touch visit modify).symm) hhdr' hseek

theorem follows_write (hl : f.hdr.Short len l) (hs : s < NumSectors) (hhdr : f.hdr.hdrSector = int s)
    {data : Buf} {n : ℤ} (hpos : f.seekPosition = pos)
    (hmodest : 0 < n → sectorsFor (pos + n.toNat) ≤ sectorsFor len + 1 ∧
      sectorsFor (pos + n.toNat) < NumDirect)
    (hQ : ∀ f' l', f'.hdr.Short (lengthAfter len pos n) l' → f'.hdr.hdrSector = int s →
      f'.seekPosition = ((pos + n.toNat : ℕ) : ℤ) → Q (n.toNat, f') (.idle l')) :
    (f.write data n).Follows (protocol a s) Q (.idle l) := by
  simp only [OpenFile.write, Prog.Follows.do_iff, Prog.Follows.pure_iff]
  apply follows_sync (Next.sync _)
  rw [hpos]
  apply follows_writeAt hl hs hhdr hmodest
  intro f' l' hl' hhdr' hseek
  apply follows_sync (Next.sync _)
  refine hQ { f' with seekPosition := f'.seekPosition + n.toNat } l' hl' hhdr' ?_
  simp only [hseek, hpos, Nat.cast_add]

/-- **A thread that writes modestly keeps to the protocol.** -/
theorem follows_writes (hs : s < NumSectors) {calls : List (Buf × ℤ)} (hmodest : Modest len pos calls)
    (hl : f.hdr.Short len l) (hhdr : f.hdr.hdrSector = int s) (hpos : f.seekPosition = pos) :
    (f.writes calls).Follows (protocol a s) (fun _ v => ∃ l', v = .idle l') (.idle l) := by
  induction calls generalizing f len pos l with
  | nil =>
    rw [OpenFile.writes, Prog.Follows.pure_iff]
    exact ⟨l, rfl⟩
  | cons c calls ih =>
    obtain ⟨data, n⟩ := c
    rw [OpenFile.writes, Prog.Follows.do_iff]
    rw [Modest] at hmodest
    apply follows_write hl hs hhdr hpos
    · intro hn
      rw [if_neg (by omega)] at hmodest
      exact ⟨hmodest.1, hmodest.2.1⟩
    · intro f' l' hl' hhdr' hpos'
      refine ih ?_ hl' hhdr' hpos'
      rw [lengthAfter]
      split_ifs at hmodest ⊢ with hn
      · rw [Int.toNat_of_nonpos hn]
        exact hmodest
      · exact hmodest.2.2

end Calls

/-! ### Programs without synchronization -/

section Silent

open Prog (Silent)

theorem silent_readSector (s : ℤ) : (readSector s).Silent := by
  unfold readSector
  split_ifs
  · exact Prog.silent_read fun b => Prog.silent_ret b
  · exact Prog.silent_abort

theorem silent_writeSector (s : ℤ) (b : Sector) : (writeSector s b).Silent := by
  unfold writeSector
  split_ifs
  · exact Prog.silent_write (Prog.silent_ret ())
  · exact Prog.silent_abort

theorem silent_newBytes : newBytes.Silent := Prog.silent_ask fun b => Prog.silent_ret b

theorem silent_time : time.Silent := Prog.silent_ask fun _ => Prog.silent_ret _

theorem silent_setLastVisitTime (h : FileHeader) : h.setLastVisitTime.Silent :=
  silent_time.bind fun _ => Prog.silent_pure _

theorem silent_setLastModifyTime (h : FileHeader) : h.setLastModifyTime.Silent :=
  silent_time.bind fun _ => Prog.silent_pure _

theorem silent_byteToSector (h : FileHeader) (offset : ℤ) : (h.byteToSector offset).Silent := by
  unfold FileHeader.byteToSector
  dsimp only
  split_ifs
  · exact Prog.silent_pure _
  · exact (silent_readSector _).bind fun _ => Prog.silent_pure _
  · exact (silent_readSector _).bind fun _ => Prog.silent_abort

theorem silent_readSectors (h : FileHeader) (first : ℤ) (n j : ℕ) (buf : Buf) :
    (OpenFile.readSectors h first n j buf).Silent := by
  induction n generalizing j buf with
  | zero => exact Prog.silent_pure buf
  | succ n ih =>
    apply (silent_byteToSector h _).bind
    intro s
    apply (silent_readSector s).bind
    intro b
    exact ih _ _

theorem silent_readAt (f : OpenFile) (into : Buf) (n position : ℤ) :
    (f.readAt into n position).Silent := by
  unfold OpenFile.readAt
  dsimp only
  by_cases hnone : n ≤ 0 ∨ position ≥ f.hdr.fileLength
  · rw [if_pos hnone]
    exact Prog.silent_pure _
  · rw [if_neg hnone]
    apply silent_newBytes.bind
    intro buf
    apply (silent_readSectors _ _ _ _ _).bind
    intro buf'
    by_cases hneg : position - divRoundDown position SectorSize * SectorSize < 0
    · rw [if_pos hneg]
      exact Prog.silent_abort
    · rw [if_neg hneg]
      exact (silent_setLastVisitTime _).bind fun _ => Prog.silent_pure _

theorem silent_writeSectors (h : FileHeader) (first : ℤ) (buf : Buf) (n j : ℕ) :
    (OpenFile.writeSectors h first buf n j).Silent := by
  induction n generalizing j with
  | zero => exact Prog.silent_pure ()
  | succ n ih =>
    apply (silent_byteToSector h _).bind
    intro s
    exact (silent_writeSector s _).bind fun _ => ih _

theorem silent_readInto {c : Prop} {_ : Decidable c} (f : OpenFile) (buf : Buf) (at_ : ℕ) (position : ℤ) :
    (if c then f.readInto buf at_ position else pure (buf, f)).Silent := by
  split_ifs
  · exact (silent_readAt f _ _ _).bind fun _ => Prog.silent_pure _
  · exact Prog.silent_pure _

theorem silent_store (f : OpenFile) (data : Buf) (n position : ℤ) : (f.store data n position).Silent := by
  unfold OpenFile.store
  apply silent_newBytes.bind
  intro buf
  apply (silent_readInto _ _ _ _).bind
  intro r
  apply (silent_readInto _ _ _ _).bind
  intro r'
  split_ifs
  · exact Prog.silent_abort
  · exact (silent_writeSectors _ _ _ _ _).bind fun _ =>
      (silent_setLastModifyTime _).bind fun _ => Prog.silent_pure _

theorem silent_extendFile (h : FileHeader) (m : BitMap) (bytes : ℤ) : (h.extendFile m bytes).Silent := by
  unfold FileHeader.extendFile
  dsimp only
  split_ifs
  · exact Prog.silent_pure _
  · exact Prog.silent_pure _
  · exact Prog.silent_pure _
  · exact Prog.silent_abort
  · exact silent_newBytes.bind fun _ => Prog.silent_pure _

theorem silent_writeBack (h : FileHeader) (s : ℤ) : (h.writeBack s).Silent :=
  (silent_setLastModifyTime _).bind fun _ => (silent_writeSector _ _).bind fun _ => Prog.silent_pure _

theorem silent_newMap (n : ℕ) : (BitMap.newMap n).Silent := silent_newBytes.bind fun _ => Prog.silent_pure _

theorem silent_new (s : ℤ) : (OpenFile.new s).Silent :=
  ((silent_readSector s).bind fun _ => silent_setLastVisitTime _).bind fun _ => Prog.silent_pure _

theorem silent_fetchFrom (m : BitMap) (file : OpenFile) : (m.fetchFrom file).Silent :=
  (silent_readAt file _ _ _).bind fun _ => Prog.silent_pure _

theorem silent_writeAtDepth (depth : ℕ) (f : OpenFile) (data : Buf) (n position : ℤ) :
    (OpenFile.writeAtDepth depth f data n position).Silent := by
  induction depth generalizing f data n position with
  | zero => exact Prog.silent_abort
  | succ depth ih =>
    unfold OpenFile.writeAtDepth
    split_ifs
    · exact Prog.silent_pure _
    · refine Prog.Silent.bind ?_ fun f => silent_store f data n position
      apply (silent_newMap _).bind
      intro m
      apply (silent_new _).bind
      intro file
      apply (silent_fetchFrom m file).bind
      intro r
      apply (silent_extendFile _ _ _).bind
      intro r'
      apply (silent_writeBack _ _).bind
      intro h
      exact ((ih _ _ _ _).bind fun _ => Prog.silent_pure _).bind fun _ => Prog.silent_pure _
    · exact (Prog.silent_pure f).bind fun f => silent_store f data n position

end Silent

end WriteProtocol

end Nachos
