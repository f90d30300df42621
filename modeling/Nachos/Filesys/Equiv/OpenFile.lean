import Mathlib.Tactic.Ring
import Nachos.Filesys.Equiv.FileHeader
import Nachos.Filesys.OpenFile
import Nachos.Lib.Blocks

/-!
## Reading and writing the blocks of a file

With the blocks of a request mapped to sectors `sec i`, the file is the flat array `flat d sec` of
bytes.  `ReadAt` copies a part of it (`wp_readAt`).  The second half of `WriteAt`
rewrites the blocks of the request: the bytes of the request are new, the other bytes before the end
of the file are kept, and what lies behind the end is arbitrary (`wp_store`).
-/

namespace Nachos

open Storage Memory

/-- The bytes of a file whose block `i` is in sector `sec i`. -/
def flat (d : Disk) (sec : ℕ → ℕ) : Buf := fun k =>
  (d (sec (k / SectorSize))).bytes (k % SectorSize)

theorem flat_block (d : Disk) (sec : ℕ → ℕ) (i : ℕ) {k : ℕ} (hk : k < SectorSize) :
    flat d sec (i * SectorSize + k) = (d (sec i)).bytes k := by
  have h1 : (i * SectorSize + k) / SectorSize = i := by
    simp only [SectorSize] at hk ⊢
    omega
  have h2 : (i * SectorSize + k) % SectorSize = k := by
    simp only [SectorSize] at hk ⊢
    omega
  rw [flat, h1, h2]

variable {ab : Prop} {d : Disk}

namespace OpenFile

/-! ### Reading -/

/-- The handle `f` with other access times. -/
def touch (f : OpenFile) (visit modify : CInt) : OpenFile :=
  { f with hdr := { f.hdr with lastVistTime := visit, lastModifyTime := modify } }

variable {buf : Buf} {f : OpenFile} {data : Buf} {Q : ℤ × OpenFile → Disk → Prop} {pos n len : ℕ}

theorem natCast_position (first j : ℕ) :
    ((first : ℤ) + (j : ℕ)) * (SectorSize : ℕ) = ((first + j) * SectorSize : ℕ) := by
  push_cast
  ring

/-- The loop of `ReadAt` fills the buffer with the blocks. -/
theorem wp_readSectors {hdr : FileHeader} {first n j : ℕ} (sec : ℕ → ℕ) {Q : Buf → Disk → Prop}
    (hmap : ∀ i, first + j ≤ i → i < first + j + n → hdr.Maps d i (sec i))
    (hQ : Q (fun k => if j * SectorSize ≤ k ∧ k < (j + n) * SectorSize
      then flat d sec (first * SectorSize + k) else buf k) d) :
    (readSectors hdr first n j buf).wp ab Q d := by
  induction n generalizing j buf with
  | zero =>
    rw [readSectors, Prog.wp_pure]
    convert hQ using 2
    rename_i k
    rw [if_neg (by simp only [SectorSize]; omega)]
  | succ n ih =>
    have hm := hmap (first + j) le_rfl (by omega)
    rw [readSectors, Prog.wp_do]
    rw [natCast_position]
    refine FileHeader.wp_byteToSector hm ?_
    rw [Prog.wp_do, wp_readSector hm.lt_numSectors]
    refine ih (fun i h1 h2 => hmap i (by omega) (by omega)) ?_
    convert hQ using 2
    rename_i k
    -- round `j` has filled in its own block, the later rounds the rest
    by_cases hk : j * SectorSize ≤ k ∧ k < j * SectorSize + SectorSize
    · rw [if_neg (by simp only [SectorSize] at hk ⊢; omega), Bytes.copy_of_mem hk.1 hk.2,
        if_pos (by simp only [SectorSize] at hk ⊢; omega)]
      have hflat := flat_block d sec (first + j) (k := k - j * SectorSize)
        (by simp only [SectorSize] at hk ⊢; omega)
      rw [← hflat]
      congr 1
      simp only [SectorSize] at hk ⊢
      omega
    · have hcopy : (d (sec (first + j))).bytes.copy buf (j * SectorSize) SectorSize k = buf k :=
        if_neg hk
      rw [hcopy]
      congr 1
      simp only [SectorSize, eq_iff_iff] at hk ⊢
      omega

/-- The sectors a request of `n` bytes at `pos` touches. -/
abbrev blockCount (pos n : ℕ) : ℕ := (pos + n - 1) / SectorSize + 1 - pos / SectorSize

/-- `ReadAt` in natural numbers. -/
theorem readAt_eq {into : Buf} {n : ℤ} {pos len c : ℕ} (hlen : f.hdr.numBytes.toInt = len)
    (hlt : pos + n < 2 ^ 31) (hc : c = min n.toNat (len - pos)) :
    f.readAt into n pos = if c = 0 then pure (0, into, f) else do
      let buf ← newBytes
      let buf ← readSectors f.hdr (pos / SectorSize : ℕ) (blockCount pos c) 0 buf
      let hdr ← f.hdr.setLastVisitTime
      return (c, (buf.offset (pos % SectorSize)).copy into 0 c, { f with hdr }) := by
  unfold readAt
  simp only [FileHeader.fileLength, hlen]
  by_cases hnone : n ≤ 0 ∨ (pos : ℤ) ≥ len
  · rw [if_pos hnone, if_pos (by omega)]
  · rw [if_neg hnone, if_neg (show ¬ c = 0 by omega)]
    -- the clamped count
    have hcount : (if wrap (pos + n) > len then (len : ℤ) - pos else n) = (c : ℕ) := by
      rw [wrap_eq (by omega) hlt]
      split_ifs <;> omega
    have hlast : ((pos : ℤ) + (c : ℕ) - 1) = ((pos + c - 1 : ℕ) : ℤ) := by omega
    have hns : (1 + ((pos + c - 1) / SectorSize : ℕ) - ((pos / SectorSize : ℕ) : ℤ)).toNat
        = blockCount pos c := by
      have hmono : pos / SectorSize ≤ (pos + c - 1) / SectorSize := Nat.div_le_div_right (by omega)
      simp only [blockCount]
      omega
    have hoff : (pos : ℤ) - ((pos / SectorSize : ℕ) : ℤ) * (SectorSize : ℕ)
        = ((pos % SectorSize : ℕ) : ℤ) := by
      have := Nat.div_add_mod pos SectorSize
      simp only [SectorSize] at *
      omega
    have hnonneg : ¬ ((pos % SectorSize : ℕ) : ℤ) < 0 := by omega
    simp only [hcount, hlast, divRoundDown_natCast, hns, hoff, hnonneg, if_false, Int.toNat_natCast]

/-- `ReadAt` returns the bytes of the request that lie before the end of the file. -/
theorem wp_readAt {into : Buf} {n : ℤ} {pos len : ℕ} (sec : ℕ → ℕ)
    {Q : ℤ × Buf × OpenFile → Disk → Prop} (hlen : f.hdr.numBytes.toInt = len)
    (hlt : pos + n < 2 ^ 31)
    (hmap : pos < len → ∀ i, pos / SectorSize ≤ i →
      i * SectorSize < pos + min n.toNat (len - pos) → f.hdr.Maps d i (sec i))
    (hQ : ∀ visit, Q ((min n.toNat (len - pos) : ℕ),
      (fun k => if k < min n.toNat (len - pos) then flat d sec (pos + k) else into k),
      f.touch visit f.hdr.lastModifyTime) d) : (f.readAt into n pos).wp ab Q d := by
  rw [readAt_eq hlen hlt rfl]
  set c := min n.toNat (len - pos) with hc
  by_cases hzero : c = 0
  · rw [if_pos hzero, Prog.wp_pure]
    have h0 := hQ f.hdr.lastVistTime
    rw [hzero] at h0
    exact h0
  · rw [if_neg hzero]
    simp only [Prog.wp_do, wp_newBytes]
    intro buf
    refine wp_readSectors sec ?_ ?_
    · intro i h1 h2
      refine hmap (by omega) i (by omega) ?_
      simp only [blockCount, SectorSize] at h2 ⊢
      omega
    · refine FileHeader.wp_setLastVisitTime fun t => ?_
      rw [Prog.wp_pure]
      convert hQ t using 3
      · funext k
        by_cases hk : k < c
        · rw [if_pos hk, Bytes.copy_of_mem (Nat.zero_le k) (by omega), Bytes.offset,
            if_pos (by simp only [blockCount, SectorSize]; omega)]
          congr 1
          simp only [SectorSize]
          omega
        · rw [if_neg hk, Bytes.copy_of_le (by omega)]
      · rfl

/-! ### Writing -/

/-- The loop of `WriteAt` writes the blocks of the buffer. -/
theorem wp_writeSectors {hdr : FileHeader} {first n j : ℕ} (sec : ℕ → ℕ) {Q : Unit → Disk → Prop}
    (hmap : ∀ i, first + j ≤ i → i < first + j + n → hdr.Maps d i (sec i))
    (hindex : ∀ i i', first + j ≤ i → i < first + j + n → 25 ≤ i' → i' < first + j + n →
      (hdr.dataSectors 25).toInt ≠ sec i)
    (hQ : Q () (writeBlocks sec (fun i => .ofBytes (buf.offset ((i - first) * SectorSize)))
      (first + j) n d)) : (writeSectors hdr first buf n j).wp ab Q d := by
  induction n generalizing j d with
  | zero =>
    rw [writeSectors, Prog.wp_pure]
    exact hQ
  | succ n ih =>
    have hm := hmap (first + j) le_rfl (by omega)
    rw [writeSectors, Prog.wp_do, natCast_position]
    refine FileHeader.wp_byteToSector hm ?_
    rw [Prog.wp_do, wp_writeSector hm.lt_numSectors]
    refine ih ?_ ?_ ?_
    · intro i h1 h2
      refine (hmap i (by omega) (by omega)).update _ fun hi => ?_
      exact hindex (first + j) i le_rfl (by omega) hi (by omega)
    · intro i i' h1 h2 h3 h4
      exact hindex i i' (by omega) (by omega) h3 (by omega)
    · rw [writeBlocks, Nat.add_sub_cancel_left] at hQ
      exact hQ

/-- A partly overwritten sector is read first. -/
theorem wp_readInto {at_ i len : ℕ} (sec : ℕ → ℕ) {Q : Buf × OpenFile → Disk → Prop}
    (hlen : f.hdr.numBytes.toInt = len) (hlt : i * SectorSize < 2 ^ 31 - SectorSize)
    (hmap : i * SectorSize < len → f.hdr.Maps d i (sec i))
    (hQ : ∀ visit, Q ((fun k => if at_ ≤ k ∧ k < at_ + min SectorSize (len - i * SectorSize)
      then flat d sec (i * SectorSize + (k - at_)) else buf k),
      f.touch visit f.hdr.lastModifyTime) d) : (f.readInto buf at_ (i * SectorSize : ℕ)).wp ab Q d := by
  unfold readInto
  rw [Prog.wp_do]
  refine wp_readAt sec hlen ?_ ?_ fun visit => ?_
  · simp only [SectorSize] at hlt ⊢
    omega
  · intro _ i' h1 h2
    have hi : i' = i := by
      simp only [SectorSize] at h1 h2
      omega
    subst hi
    refine hmap ?_
    simp only [SectorSize] at h2 ⊢
    omega
  · simp only [Prog.wp_pure, Int.toNat_natCast]
    convert hQ visit using 2
    funext k
    by_cases hk : at_ ≤ k ∧ k < at_ + min SectorSize (len - i * SectorSize)
    · rw [if_pos hk, Bytes.copy_of_mem hk.1 hk.2, if_pos (by omega)]
    · rw [if_neg hk]
      exact if_neg hk

theorem wp_readInto_if {c : Prop} {_ : Decidable c} {at_ i len : ℕ} (sec : ℕ → ℕ)
    {Q : Buf × OpenFile → Disk → Prop} (hlen : f.hdr.numBytes.toInt = len)
    (hlt : i * SectorSize < 2 ^ 31 - SectorSize)
    (hmap : i * SectorSize < len → f.hdr.Maps d i (sec i))
    (hQ : ∀ visit buf', (∀ k, buf' k =
      if c ∧ at_ ≤ k ∧ k < at_ + min SectorSize (len - i * SectorSize)
      then flat d sec (i * SectorSize + (k - at_)) else buf k) →
      Q (buf', f.touch visit f.hdr.lastModifyTime) d) :
    (if c then f.readInto buf at_ (i * SectorSize : ℕ) else pure (buf, f)).wp ab Q d := by
  by_cases hc : c
  · rw [if_pos hc]
    refine wp_readInto sec hlen hlt hmap fun visit => hQ visit _ fun k => ?_
    simp [hc]
  · rw [if_neg hc, Prog.wp_pure]
    refine hQ f.hdr.lastVistTime buf fun k => ?_
    simp [hc]

/-- `blk` holds the blocks of a file after `n` bytes `data` have been written at `pos`; the bytes
behind the end of the file are arbitrary. -/
def Stored (d : Disk) (sec : ℕ → ℕ) (len pos n : ℕ) (data : Buf) (blk : ℕ → Sector) : Prop :=
  ∀ i k, pos / SectorSize ≤ i → i * SectorSize < pos + n → k < SectorSize →
    (pos ≤ i * SectorSize + k → i * SectorSize + k < pos + n →
      (blk i).bytes k = data (i * SectorSize + k - pos)) ∧
    (i * SectorSize + k < pos ∨ pos + n ≤ i * SectorSize + k → i * SectorSize + k < len →
      (blk i).bytes k = (d (sec i)).bytes k)

/-- The blocks of the buffer, with the two partly written sectors read in (`h₁`, `h₂`) and the data
copied over them. -/
theorem stored_buffer {sec : ℕ → ℕ} {len pos n : ℕ} {data buf buf₁ buf₂ : Buf} (hn : 0 < n)
    (h₁ : ∀ k, buf₁ k = if pos ≠ pos / SectorSize * SectorSize ∧ 0 ≤ k ∧
        k < 0 + min SectorSize (len - pos / SectorSize * SectorSize)
      then flat d sec (pos / SectorSize * SectorSize + (k - 0)) else buf k)
    (h₂ : ∀ k, buf₂ k = if (pos + n ≠ ((pos + n - 1) / SectorSize + 1) * SectorSize ∧
          (pos / SectorSize ≠ (pos + n - 1) / SectorSize ∨ pos = pos / SectorSize * SectorSize)) ∧
        ((pos + n - 1) / SectorSize - pos / SectorSize) * SectorSize ≤ k ∧
        k < ((pos + n - 1) / SectorSize - pos / SectorSize) * SectorSize +
          min SectorSize (len - (pos + n - 1) / SectorSize * SectorSize)
      then flat d sec ((pos + n - 1) / SectorSize * SectorSize +
        (k - ((pos + n - 1) / SectorSize - pos / SectorSize) * SectorSize)) else buf₁ k) :
    Stored d sec len pos n data fun i => .ofBytes
      ((data.copy buf₂ (pos % SectorSize) n).offset ((i - pos / SectorSize) * SectorSize)) := by
  intro i k h1 h2 hk
  rw [Sector.bytes_ofBytes _ hk, Bytes.offset]
  have hk' : k < 128 := hk
  constructor
  · intro h3 h4
    rw [Bytes.copy_of_mem (by simp only [SectorSize] at *; omega)
      (by simp only [SectorSize] at *; omega)]
    congr 1
    simp only [SectorSize] at *
    omega
  · intro h3 h4
    have hcopy : data.copy buf₂ (pos % SectorSize) n ((i - pos / SectorSize) * SectorSize + k)
        = buf₂ ((i - pos / SectorSize) * SectorSize + k) := by
      refine if_neg ?_
      simp only [SectorSize] at *
      omega
    rw [hcopy, h₂, ← flat_block d sec i hk]
    -- an old byte lies in the last sector if it is behind the data, else in the first
    split_ifs with hlast
    · congr 1
      simp only [SectorSize] at *
      omega
    · rw [h₁, if_pos]
      · congr 1
        simp only [SectorSize] at *
        omega
      · simp only [SectorSize] at *
        omega

/-- The second half of `WriteAt` in natural numbers. -/
theorem store_eq {pos n : ℕ} (hn : 0 < n) :
    f.store data n pos = do
      let buf ← newBytes
      let (buf, f) ← (if pos ≠ pos / SectorSize * SectorSize then
          f.readInto buf 0 (pos / SectorSize * SectorSize : ℕ)
        else pure (buf, f))
      let (buf, f) ← (if pos + n ≠ ((pos + n - 1) / SectorSize + 1) * SectorSize ∧
            (pos / SectorSize ≠ (pos + n - 1) / SectorSize ∨ pos = pos / SectorSize * SectorSize) then
          f.readInto buf (((pos + n - 1) / SectorSize - pos / SectorSize) * SectorSize)
            ((pos + n - 1) / SectorSize * SectorSize : ℕ)
        else pure (buf, f))
      writeSectors f.hdr (pos / SectorSize : ℕ) (data.copy buf (pos % SectorSize) n)
        (blockCount pos n) 0
      let hdr ← f.hdr.setLastModifyTime
      return ((n : ℤ), { f with hdr }) := by
  have hmono : pos / SectorSize ≤ (pos + n - 1) / SectorSize := Nat.div_le_div_right (by omega)
  -- the `int`s of the source are the natural numbers of the statement
  have hend : ((pos : ℤ) + (n : ℕ) - 1) = ((pos + n - 1 : ℕ) : ℤ) := by omega
  have hns : (1 + ((pos + n - 1) / SectorSize : ℕ) - ((pos / SectorSize : ℕ) : ℤ)).toNat
      = blockCount pos n := by
    simp only [blockCount]
    omega
  have hoff : (pos : ℤ) - ((pos / SectorSize * SectorSize : ℕ) : ℤ)
      = ((pos % SectorSize : ℕ) : ℤ) := by
    simp only [SectorSize]
    omega
  have hfa : ((pos : ℤ) = ((pos / SectorSize * SectorSize : ℕ) : ℤ)) ↔
      pos = pos / SectorSize * SectorSize := Int.ofNat_inj
  have hla : ((pos : ℤ) + (n : ℕ) = (((pos + n - 1) / SectorSize : ℕ) + 1 : ℤ) * (SectorSize : ℕ)) ↔
      pos + n = ((pos + n - 1) / SectorSize + 1) * SectorSize := by
    simp only [SectorSize]
    omega
  have hat : ((((pos + n - 1) / SectorSize : ℕ) - ((pos / SectorSize : ℕ) : ℤ)) *
      (SectorSize : ℕ)).toNat = ((pos + n - 1) / SectorSize - pos / SectorSize) * SectorSize := by
    simp only [SectorSize] at hmono ⊢
    omega
  have hne : (((pos / SectorSize : ℕ) : ℤ) ≠ ((pos + n - 1) / SectorSize : ℕ)) ↔
      pos / SectorSize ≠ (pos + n - 1) / SectorSize := by
    rw [Ne, Int.ofNat_inj]
  have hnonneg : ¬ ((pos % SectorSize : ℕ) : ℤ) < 0 := by omega
  unfold store
  simp only [hend, divRoundDown_natCast, hns, hoff, hfa, hla, hat, hne, ← Int.natCast_mul, hnonneg,
    if_false, Int.toNat_natCast, Ne]

/-- The second half of `WriteAt` writes the blocks of the request. -/
theorem wp_store (sec : ℕ → ℕ) (hn : 0 < n) (hlen : f.hdr.numBytes.toInt = len)
    (hmap : ∀ i, pos / SectorSize ≤ i → i * SectorSize < pos + n → f.hdr.Maps d i (sec i))
    (hindex : ∀ i i', pos / SectorSize ≤ i → i * SectorSize < pos + n → 25 ≤ i' →
      i' * SectorSize < pos + n → (f.hdr.dataSectors 25).toInt ≠ sec i)
    (hQ : ∀ visit modify blk, Stored d sec len pos n data blk →
      Q (n, f.touch visit modify) (writeBlocks sec blk (pos / SectorSize) (blockCount pos n) d)) :
    (f.store data n pos).wp ab Q d := by
  have hfirst := hmap (pos / SectorSize) le_rfl (by simp only [SectorSize]; omega)
  have hlast := hmap ((pos + n - 1) / SectorSize) (Nat.div_le_div_right (by omega))
    (by simp only [SectorSize]; omega)
  have hf57 := hfirst.lt_57
  have hl57 := hlast.lt_57
  rw [store_eq hn]
  simp only [Prog.wp_do, wp_newBytes]
  intro buf
  refine wp_readInto_if sec hlen (by simp only [SectorSize] at *; omega) (fun _ => hfirst)
    fun visit buf₁ h₁ => ?_
  simp only
  refine wp_readInto_if sec hlen (by simp only [SectorSize] at *; omega) (fun _ => hlast)
    fun visit' buf₂ h₂ => ?_
  refine wp_writeSectors sec ?_ ?_ ?_
  · intro i hi1 hi2
    refine hmap i (by omega) ?_
    simp only [blockCount, SectorSize] at *
    omega
  · intro i i' hi1 hi2 hi3 hi4
    refine hindex i i' (by omega) ?_ hi3 ?_
    · simp only [blockCount, SectorSize] at *
      omega
    · simp only [blockCount, SectorSize] at *
      omega
  · refine FileHeader.wp_setLastModifyTime fun modify => ?_
    rw [Prog.wp_pure]
    exact hQ visit' modify _ (stored_buffer hn h₁ h₂)

theorem wp_writeAtDepth_nonpos {depth : ℕ} {n position : ℤ} (hn : n ≤ 0) (hQ : Q (0, f) d) :
    (writeAtDepth (depth + 1) f data n position).wp ab Q d := by
  rw [writeAtDepth, if_pos hn, Prog.wp_pure]
  exact hQ

/-- A write that ends before the end of the file does not extend it. -/
theorem writeAtDepth_eq_store {depth : ℕ} (hn : 0 < n) (hlen : f.hdr.numBytes.toInt = len)
    (hle : pos + n ≤ len) : writeAtDepth (depth + 1) f data n pos = f.store data n pos := by
  have hmax : f.hdr.numBytes.toInt < 2 ^ 31 := by
    have := BitVec.toInt_lt (x := f.hdr.numBytes)
    omega
  have hwrap : ¬ wrap (pos + n) > f.hdr.fileLength := by
    rw [FileHeader.fileLength, wrap_eq (by omega) (by omega), hlen]
    omega
  rw [writeAtDepth, if_neg (by omega), if_neg hwrap]
  rfl

/-- The bytes of the file after a write: the written ones, and the old ones before the end or in other
blocks. -/
theorem Stored.flat_eq {sec : ℕ → ℕ} {len pos n count : ℕ} {blk : ℕ → Sector}
    (h : Stored d sec len pos n data blk) (hn : 0 < n)
    (hinj : ∀ i i', i < count → i' < count → sec i = sec i' → i = i')
    (hcount : (pos + n - 1) / SectorSize < count) {p : ℕ} (hp : p / SectorSize < count)
    (hlen : pos / SectorSize ≤ p / SectorSize → p / SectorSize * SectorSize < pos + n →
      p < len ∨ pos ≤ p ∧ p < pos + n) :
    flat (writeBlocks sec blk (pos / SectorSize) (blockCount pos n) d) sec p
      = if pos ≤ p ∧ p < pos + n then data (p - pos) else flat d sec p := by
  have hmod : p % SectorSize < SectorSize := Nat.mod_lt _ (by decide)
  have hdm : p / SectorSize * SectorSize + p % SectorSize = p := Nat.div_add_mod' p SectorSize
  by_cases hblock : pos / SectorSize ≤ p / SectorSize ∧ p / SectorSize * SectorSize < pos + n
  · have hin : p / SectorSize < pos / SectorSize + blockCount pos n := by
      simp only [blockCount, SectorSize] at *
      omega
    have hst := h (p / SectorSize) (p % SectorSize) hblock.1 hblock.2 hmod
    rw [hdm] at hst
    rw [flat, writeBlocks_of_mem hblock.1 hin]
    · split_ifs with hr
      · exact hst.1 hr.1 hr.2
      · have := hlen hblock.1 hblock.2
        exact hst.2 (by omega) (by omega)
    · intro i' h1 h2 heq
      refine hinj i' _ ?_ hp heq
      simp only [blockCount, SectorSize] at *
      omega
  · -- the block is not touched
    rw [if_neg (by simp only [SectorSize] at *; omega), flat, flat, writeBlocks_of_notMem]
    intro i h1 h2 heq
    have hi := hinj i (p / SectorSize) (by simp only [blockCount, SectorSize] at *; omega) hp heq
    simp only [blockCount, SectorSize] at *
    omega

end OpenFile

end Nachos
