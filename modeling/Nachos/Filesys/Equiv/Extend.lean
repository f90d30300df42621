import Nachos.Filesys.Equiv.FileSystem

/-!
## Extending a file

A write past the end of a file first extends it.  `ExtendFile` takes at most one sector from the free
map, however many the new length needs, and `extend` stores the header and the free map
(`wp_extend`).
-/

namespace Nachos

open Storage Memory

variable {ab : Prop} {d : Disk}

namespace FileHeader

/-- The header of a file extended to `len'` bytes, with a new sector if there is one. -/
def grown (h : FileHeader) (len' : ℕ) : List ℕ → FileHeader
  | [] => { h with numBytes := int len', numSectors := int (sectorsFor len' : ℕ) }
  | s :: _ =>
    { h with
      numBytes := int len'
      numSectors := int (sectorsFor len' : ℕ)
      dataSectors := Function.update h.dataSectors (Fin.ofNat NumDirect h.numSectors.toNat) (int s) }

/-- The sectors `ExtendFile` takes: none, or the first clear one. -/
def newSectors (m : BitMap) (len len' : ℕ) : List ℕ :=
  if sectorsFor len' = sectorsFor len then [] else m.clears.take 1

variable {h : FileHeader} {m : BitMap} {len len' : ℕ}

theorem nodup_newSectors : (newSectors m len len').Nodup := by
  unfold newSectors
  split_ifs
  · exact List.nodup_nil
  · exact m.clears_nodup.sublist (List.take_sublist 1 _)

theorem free_of_mem_newSectors {x : ℕ} (hx : x ∈ newSectors m len len') :
    x < m.numBits ∧ m.bit x = false := by
  unfold newSectors at hx
  split_ifs at hx
  · cases hx
  · exact BitMap.mem_clears.mp (List.mem_of_mem_take hx)

theorem hdrSector_grown (h : FileHeader) (len' : ℕ) (l : List ℕ) :
    (h.grown len' l).hdrSector = h.hdrSector := by
  cases l <;> rfl

theorem dataSectors_grown_cons (h : FileHeader) (len' s : ℕ) (l : List ℕ) :
    (h.grown len' (s :: l)).dataSectors
      = Function.update h.dataSectors (Fin.ofNat NumDirect h.numSectors.toNat) (int s) := rfl

/-- The entries of the old sectors stay. -/
theorem dataSectors_grown_of_lt {l : List ℕ} {j : ℕ} (hj : j < h.numSectors.toNat)
    (hn : h.numSectors.toNat < NumDirect) :
    (h.grown len' l).dataSectors (Fin.ofNat NumDirect j) = h.dataSectors (Fin.ofNat NumDirect j) := by
  cases l with
  | nil => rfl
  | cons s rest =>
    rw [dataSectors_grown_cons, Function.update_of_ne]
    intro heq
    have := congrArg Fin.val heq
    simp only [Fin.val_ofNat, NumDirect] at *
    omega

/-- One more sector in the table. -/
theorem Lists.grown {l : List ℕ} {x : ℕ} (hl : h.Lists len l) (hlt : l.length < NumDirect)
    (hlen' : sectorsFor len' = l.length + 1) : (h.grown len' [x]).Lists len' (l ++ [x]) := by
  have hlt' : l.length < 26 := hlt
  have hnat : h.numSectors.toNat = l.length := by
    rw [hl.numSectors, toNat_int_natCast (by omega)]
  refine ⟨rfl, ?_, fun j hj => ?_⟩
  · rw [List.length_append, List.length_singleton, ← hlen']
    rfl
  · rw [List.length_append, List.length_singleton] at hj
    rw [dataSectors_grown_cons, hnat, List.get_eq_getElem]
    by_cases hjl : j < l.length
    · have hne : Fin.ofNat NumDirect j ≠ Fin.ofNat NumDirect l.length := by
        intro heq
        have := congrArg Fin.val heq
        simp only [Fin.val_ofNat, NumDirect] at this
        omega
      rw [Function.update_of_ne hne, hl.sectors j hjl, List.getElem_append_left hjl]
      rfl
    · obtain rfl : j = l.length := by omega
      rw [Function.update_self, List.getElem_append_right le_rfl]
      simp

/-- The `int`s of `ExtendFile`. -/
theorem extendFile_ints (hb : h.numBytes.toInt = len)
    (hn : h.numSectors = int (sectorsFor len : ℕ)) (hcap : sectorsFor len' ≤ 57) :
    wrap (h.numBytes.toInt + ((len' : ℤ) - len)) = len' ∧
      divRoundUp (len' : ℤ) (SectorSize : ℕ) = (sectorsFor len' : ℕ) ∧
      h.numSectors.toInt = (sectorsFor len : ℕ) := by
  have hlen : (len : ℤ) < 2 ^ 31 := hb ▸ BitVec.toInt_lt
  refine ⟨?_, divRoundUp_eq len' (by decide), ?_⟩
  · simp only [sectorsFor, SectorSize] at hcap
    rw [hb, wrap_eq (by omega) (by omega)]
    omega
  · rw [hn, toInt_int_natCast]
    simp only [sectorsFor, SectorSize]
    omega

/-- What `ExtendFile` does while the table has room. -/
theorem extendFile_eq (hb : h.numBytes.toInt = len) (hn : h.numSectors = int (sectorsFor len : ℕ))
    (hlt : len < len') (hcap : sectorsFor len' ≤ 57)
    (hroom : sectorsFor len' - sectorsFor len ≤ m.clears.length)
    (hfits : NumDirect ≤ sectorsFor len → sectorsFor len' = sectorsFor len) :
    ∃ m' : BitMap, h.extendFile m ((len' : ℤ) - len)
        = pure (true, h.grown len' (newSectors m len len'), m') ∧
      m'.numBits = m.numBits ∧
      ∀ s, m'.bit s = (decide (s ∈ newSectors m len len') || m.bit s) := by
  have hle : sectorsFor len ≤ sectorsFor len' := Nat.div_le_div_right (by omega)
  obtain ⟨hnew, hdiv, hpre⟩ := extendFile_ints hb hn hcap
  unfold extendFile
  simp only [hnew, hdiv, hpre]
  by_cases hsame : sectorsFor len' = sectorsFor len
  · -- the last sector has room
    refine ⟨m, ?_, rfl, fun s => ?_⟩
    · rw [if_pos (by exact_mod_cast hsame), newSectors, if_pos hsame, FileHeader.grown, hsame, ← hn]
    · rw [newSectors, if_pos hsame]
      simp
  · have hdirect : sectorsFor len < NumDirect := by
      by_contra hge
      exact hsame (hfits (by omega))
    rw [if_neg (by exact_mod_cast hsame), BitMap.numClear_eq, if_neg (by omega),
      if_pos (by omega), if_pos (by omega), Int.toNat_natCast]
    cases hclears : m.clears with
    | nil =>
      rw [hclears, List.length_nil] at hroom
      omega
    | cons s rest =>
      have hnew' : newSectors m len len' = [s] := by
        rw [newSectors, if_neg hsame, hclears]
        rfl
      have hnat : h.numSectors.toNat = sectorsFor len := by
        rw [hn, toNat_int_natCast (by omega)]
      refine ⟨m.setBit s, ?_, rfl, fun x => ?_⟩
      · rw [BitMap.find_of_clears hclears, hnew', FileHeader.grown, hnat]
      · rw [hnew', BitMap.bit_setBit]
        simp

/-- With a full table, `ExtendFile` stores the new sector outside it, in `dataSectors[26]` or beyond. -/
theorem extendFile_abort (hb : h.numBytes.toInt = len)
    (hn : h.numSectors = int (sectorsFor len : ℕ)) (hcap : sectorsFor len' ≤ 57)
    (hroom : sectorsFor len' - sectorsFor len ≤ m.clears.length) (hfull : NumDirect ≤ sectorsFor len)
    (hmore : sectorsFor len < sectorsFor len') :
    h.extendFile m ((len' : ℤ) - len) = .abort := by
  obtain ⟨hnew, hdiv, hpre⟩ := extendFile_ints hb hn hcap
  unfold extendFile
  simp only [hnew, hdiv, hpre]
  rw [if_neg (by omega), BitMap.numClear_eq, if_neg (by omega), if_pos (by omega), if_neg (by omega)]

theorem wp_extendFile (hb : h.numBytes.toInt = len) (hn : h.numSectors = int (sectorsFor len : ℕ))
    (hlt : len < len') (hcap : sectorsFor len' ≤ 57)
    (hroom : sectorsFor len' - sectorsFor len ≤ m.clears.length)
    {Q : Bool × FileHeader × BitMap → Disk → Prop}
    (hab : NumDirect ≤ sectorsFor len → sectorsFor len < sectorsFor len' → ab)
    (hQ : ∀ m', (NumDirect ≤ sectorsFor len → sectorsFor len' = sectorsFor len) →
      m'.numBits = m.numBits → (∀ s, m'.bit s = (decide (s ∈ newSectors m len len') || m.bit s)) →
      Q (true, h.grown len' (newSectors m len len'), m') d) :
    (h.extendFile m ((len' : ℤ) - len)).wp ab Q d := by
  have hle : sectorsFor len ≤ sectorsFor len' := Nat.div_le_div_right (by omega)
  by_cases hfits : NumDirect ≤ sectorsFor len → sectorsFor len' = sectorsFor len
  · obtain ⟨m', heq, hbits, hbit⟩ := extendFile_eq hb hn hlt hcap hroom hfits
    rw [heq, Prog.wp_pure]
    exact hQ m' hfits hbits hbit
  · rw [Classical.not_imp] at hfits
    rw [extendFile_abort hb hn hcap hroom hfits.1 (by omega), Prog.wp_abort]
    exact hab hfits.1 (by omega)

end FileHeader

namespace OpenFile

open FileHeader (sectorsFor newSectors)

/-- The handle `f'` and the disk `d'` after the file with header sector `s` has been extended to
`len'` bytes and the sectors `added`; `ml` holds the free map. -/
structure Extended (f : OpenFile) (d : Disk) (s : ℕ) (ml : List ℕ) (len' : ℕ) (added : List ℕ)
    (f' : OpenFile) (d' : Disk) : Prop where
  hdr : f'.hdr.SameFile (f.hdr.grown len' added)
  stored : d'.header s = f'.hdr
  fileSector : f'.fileSector = f.fileSector
  seekPosition : f'.seekPosition = f.seekPosition
  frame : ∀ x, x ≠ s → x ∉ ml → d' x = d x
  bits : ∀ x < NumSectors, (flat d' (ml.getD · 0) (x / 8)).getLsbD (x % 8)
    = (decide (x ∈ added) || d.freeMap.bit x)

/-- The first half of a `WriteAt` that ends behind the end of the file. -/
theorem wp_extend {f : OpenFile} {s pos n len depth : ℕ} {ml : List ℕ}
    (hml : (d.header FreeMapSector).Short FreeMapFileSize ml) (hs : s < NumSectors)
    (hsml : s ∉ ml) (hhdr : f.hdr.hdrSector = int s)
    (hb : f.hdr.numBytes.toInt = len) (hn : f.hdr.numSectors = int (sectorsFor len : ℕ))
    (hlt : len < pos + n) (hcap : sectorsFor (pos + n) ≤ 57)
    (hroom : sectorsFor (pos + n) - sectorsFor len ≤ d.freeMap.clears.length)
    {Q : OpenFile → Disk → Prop}
    (hab : NumDirect ≤ sectorsFor len → sectorsFor len < sectorsFor (pos + n) → ab)
    (hQ : ∀ f' d', (NumDirect ≤ sectorsFor len → sectorsFor (pos + n) = sectorsFor len) →
      Extended f d s ml (pos + n) (newSectors d.freeMap len (pos + n)) f' d' → Q f' d') :
    (f.extend n pos fun file map => do
      let (_, file) ← writeAtDepth (depth + 1) file map.bytes (map.numWords * 4) 0
      return file).wp ab Q d := by
  have hlt31 : pos + n < 2 ^ 31 := by
    simp only [sectorsFor, SectorSize] at hcap
    omega
  have hbytes : wrap (wrap ((pos : ℤ) + (n : ℕ)) - f.hdr.fileLength) = ((pos + n : ℕ) : ℤ) - len := by
    have hend : wrap ((pos : ℤ) + (n : ℕ)) = (pos : ℤ) + n := wrap_eq (by omega) (by omega)
    rw [FileHeader.fileLength, hb, hend, wrap_eq (by omega) (by omega)]
    omega
  have hsec : (int s).toInt = s := toInt_int_natCast (hs.trans (by decide))
  unfold extend
  simp only [Prog.wp_do, Prog.wp_pure, hbytes]
  apply BitMap.wp_newMap
  intro m₀ hm₀ _
  apply FileSystem.wp_openFile_new (s := 0) (by decide)
  intro fm _ _ hsm
  have hfm : fm.hdr.Short FreeMapFileSize ml := hml.congr hsm.symm
  apply BitMap.wp_fetchFrom hm₀ hfm
  intro v₁ m hm hbits
  -- the copy in memory is the stored map
  have hbit : ∀ x < NumSectors, m.bit x = d.freeMap.bit x := fun x hx => by
    rw [hbits x hx, Disk.bit_freeMap hml hx]
  have hclears : m.clears = d.freeMap.clears := BitMap.clears_congr hm hbit
  refine FileHeader.wp_extendFile hb hn hlt hcap (by rw [hclears]; exact hroom) hab
    fun m' hfits hm' hbit' => ?_
  have hnew : newSectors m len (pos + n) = newSectors d.freeMap len (pos + n) := by
    rw [newSectors, newSectors, hclears]
  simp only [FileHeader.hdrSector_grown, hhdr, hsec, hnew] at hbit' ⊢
  apply FileHeader.wp_writeBack hs
  intro t
  apply BitMap.wp_writeMap (hm'.trans hm) (hfm.congr (fm.sameFile_touch _ _).symm)
  intro v₂ t₂ _ d' hframe hbits'
  apply hQ _ _ hfits
  refine ⟨⟨?_, rfl, rfl, rfl⟩, ?_, rfl, rfl, fun x hx hxm => ?_, fun x hx => ?_⟩
  · rw [FileHeader.hdrSector_grown]
    exact hhdr.symm
  · rw [Disk.header, Int.toNat_natCast, hframe s hsml, Function.update_self,
      FileHeader.ofSector_toSector]
  · rw [hframe x hxm, Function.update_of_ne hx]
  · rw [hbits' x hx, hbit', hbit x hx]

end OpenFile

end Nachos
