import Nachos.Filesys.Equiv.GrowthLimits
import Nachos.Filesys.TwoHandles

/-!
## Two handles on one file, used in turn

A handle that has not seen the last extension of the file still has the sectors of the blocks it knows
(`View`), so it can be used for these.  As long as all calls are of this kind, or go through a
handle that knows the length of the file, every call sees all earlier writes and the header on the
disk stays that of the file (`handles_coherent`).
-/

namespace Nachos

open Storage Memory

theorem SharedFile.write_of_pos (a : SharedFile) (data : Buf) {n : ℕ} (pos : ℕ) (hn : 0 < n) :
    a.write data n pos = { a with
      length := max a.length (pos + n)
      bytes := fun p => if pos ≤ p ∧ p < pos + n then some (data (p - pos)) else a.bytes p } := by
  rw [write, if_neg (by omega), Int.toNat_natCast]

variable {Q : ℤ × OpenFile → Disk → Prop} {data : Buf}

namespace OpenFile

open FileHeader (sectorsFor)

variable {ab : Prop} {d : Disk} {f : OpenFile} {l : List ℕ} {k : ℕ}

/-- The second half of a `WriteAt` through a handle that knows `k` bytes of a file of `len` bytes in
the sectors `l`, none of them behind a second-level table. -/
theorem wp_store_known (len : ℕ) (hb : f.hdr.numBytes.toInt = k) {pos n : ℕ} (hn : 0 < n)
    (hmaps : ∀ j, pos / SectorSize ≤ j → j * SectorSize < pos + n →
      j < 25 ∧ f.hdr.Maps d j (l.getD j 0)) (hnd : l.Nodup)
    (hin : (pos + n - 1) / SectorSize < l.length) (hlen : len ≤ l.length * SectorSize)
    (hknown : ∀ p < len, pos / SectorSize ≤ p / SectorSize → p / SectorSize * SectorSize < pos + n →
      p < k ∨ pos ≤ p ∧ p < pos + n)
    (hQ : ∀ visit modify d', (∀ x, x ∉ l → d' x = d x) →
      (∀ p < len, flat d' (l.getD · 0) p
        = if pos ≤ p ∧ p < pos + n then data (p - pos) else flat d (l.getD · 0) p) →
      Q (n, f.touch visit modify) d') : (f.store data n pos).wp ab Q d := by
  apply wp_store _ hn hb fun j h1 h2 => (hmaps j h1 h2).2
  · intro _ j _ _ h25 h2
    have hlast := hmaps ((pos + n - 1) / SectorSize) (Nat.div_le_div_right (by omega))
      (by simp only [SectorSize]; omega)
    simp only [SectorSize] at *
    omega
  · intro visit modify blk hst
    apply hQ visit modify
    · intro x hx
      refine writeBlocks_of_notMem fun j _ hj heq => hx ?_
      rw [← heq]
      apply List.getD_mem_of_lt
      simp only [blockCount, SectorSize] at *
      omega
    · intro p hp
      refine hst.flat_eq hn (fun _ _ => List.getD_inj_of_nodup hnd) hin ?_ (hknown p hp)
      simp only [SectorSize] at *
      omega

end OpenFile

namespace TwoHandles

open FileHeader (sectorsFor newSectors Laid)

variable {ab : Prop} {h : FileHeader} {d : Disk} {f : OpenFile} {l : List ℕ} {k len : ℕ}

/-- The handle `f` knows the first `k` bytes of a file of `len` bytes with the header `h`. -/
structure View (h : FileHeader) (len k : ℕ) (f : OpenFile) : Prop where
  numBytes : f.hdr.numBytes.toInt = k
  le : k ≤ len
  entries : ∀ j < sectorsFor k, j < NumDirect →
    f.hdr.dataSectors (Fin.ofNat NumDirect j) = h.dataSectors (Fin.ofNat NumDirect j)
  fresh : k = len → f.hdr.SameFile h

namespace View

theorem of_sameFile (hL : h.Laid d len l) (hs : f.hdr.SameFile h) : View h len len f := by
  refine ⟨?_, le_rfl, fun j _ _ => ?_, fun _ => hs⟩
  · rw [hs.numBytes, hL.numBytes_toInt]
  · rw [hs.dataSectors]

/-- A handle with other times or another cursor. -/
theorem congr {f' : OpenFile} (V : View h len k f) (hs : f'.hdr.SameFile f.hdr) :
    View h len k f' := by
  refine ⟨?_, V.le, fun j hj h26 => ?_, fun hk => hs.trans (V.fresh hk)⟩
  · rw [hs.numBytes, V.numBytes]
  · rw [hs.dataSectors, V.entries j hj h26]

/-- The file has been extended through the other handle. -/
theorem extended {h' : FileHeader} {len' : ℕ} (V : View h len k f) (hlt : len < len')
    (hentries : ∀ j < sectorsFor len, j < NumDirect →
      h'.dataSectors (Fin.ofNat NumDirect j) = h.dataSectors (Fin.ofNat NumDirect j)) :
    View h' len' k f := by
  have hle : sectorsFor k ≤ sectorsFor len := Nat.div_le_div_right (by have := V.le; omega)
  refine ⟨V.numBytes, V.le.trans hlt.le, fun j hj h26 => ?_, fun hk => ?_⟩
  · rw [V.entries j hj h26, hentries j (by omega) h26]
  · have := V.le
    omega

/-- The handle finds the blocks it knows. -/
theorem maps (V : View h len k f) (hL : h.Laid d len l) (h26 : sectorsFor len < NumDirect) {j : ℕ}
    (hj : j * SectorSize < k) (d' : Disk) : j < 25 ∧ f.hdr.Maps d' j (l.getD j 0) := by
  have hle := V.le
  have hjk : j < sectorsFor k := by
    simp only [sectorsFor, SectorSize] at *
    omega
  have hjl : j < sectorsFor len := lt_of_lt_of_le hjk (Nat.div_le_div_right (by omega))
  have hj26 : j < NumDirect := hjl.trans h26
  have hj25 : j < 25 := by
    simp only [NumDirect] at h26
    omega
  obtain ⟨hlt, heq⟩ := FileHeader.entry_eq hL.numSectors_toNat hL.listed hjl hj26
  refine ⟨hj25, hL.inRange (l.getD j 0) (List.getD_mem_of_lt hlt), Or.inl ⟨hj25, ?_⟩⟩
  rw [V.entries j hjk hj26, heq]

end View

/-- What holds between two calls: the file has its header in `s` and its sectors `l`, and both handles
know a part of it. -/
structure Inv (i : Fin NumDirEntries) (st : State) (o : Ownership Disk.Owner ℕ) (s : ℕ)
    (l : List ℕ) : Prop where
  holds : st.disk.Holds o
  entry : st.disk.headerSector (.entry i) = some (s : ℤ)
  own : o.own (.entry i) = s :: l
  laid : (st.disk.header s).Laid st.disk st.file.length l
  bytes : ∀ p < st.file.length, ∀ v, st.file.bytes p = some v →
    (st.disk.header s).content st.disk p = v
  unwritten : ∀ p, st.file.length ≤ p → st.file.bytes p = none
  view : ∀ b, ∃ k, View (st.disk.header s) st.file.length k (st.handle b)
  cursor : ∀ b, (st.handle b).seekPosition = st.file.cursor b

namespace Inv

variable {i : Fin NumDirEntries} {st : State} {o : Ownership Disk.Owner ℕ} {s : ℕ} {b : Bool}

theorem opened (I : Inv i st o s l) (hs : f.hdr.SameFile (st.disk.header s)) :
    st.disk.Opened o i s l st.file.length f :=
  ⟨I.holds, I.entry, I.own, hs, I.laid⟩

/-- The handle `b` has moved its cursor. -/
theorem seek (I : Inv i st o s l) (hf : f.hdr.SameFile (st.handle b).hdr) {pos : ℕ}
    (hpos : f.seekPosition = pos) :
    Inv i ⟨Function.update st.handle b f, st.disk, st.file.seek b pos⟩ o s l := by
  refine ⟨I.holds, I.entry, I.own, I.laid, I.bytes, I.unwritten, fun b' => ?_, fun b' => ?_⟩
  · obtain ⟨k, V⟩ := I.view b'
    by_cases hb : b' = b
    · subst hb
      simp only [Function.update_self]
      exact ⟨k, V.congr hf⟩
    · simp only [Function.update_of_ne hb]
      exact ⟨k, V⟩
  · by_cases hb : b' = b
    · subst hb
      simp only [Function.update_self, SharedFile.seek]
      exact hpos
    · simp only [Function.update_of_ne hb, SharedFile.seek]
      exact I.cursor b'

theorem touch (I : Inv i st o s l) (hf : f.hdr.SameFile (st.handle b).hdr)
    (hpos : f.seekPosition = (st.handle b).seekPosition) :
    Inv i ⟨Function.update st.handle b f, st.disk, st.file⟩ o s l := by
  have I' := I.seek hf (hpos.trans (I.cursor b))
  rw [SharedFile.seek, Function.update_eq_self] at I'
  exact I'

/-- Reading through a handle that is good enough. -/
theorem wp_readAt (I : Inv i st o s l) (h26 : sectorsFor st.file.length < NumDirect) {into : Buf}
    {n : ℤ} {pos : ℕ} (hlt : pos + n < 2 ^ 31) (hcur : st.CurrentRead b n pos)
    {Q : ℤ × Buf × OpenFile → Disk → Prop}
    (hQ : ∀ visit into',
      st.file.Delivers into n pos (ArrayFile.avail st.file.length n pos : ℕ) into' →
      Q ((ArrayFile.avail st.file.length n pos : ℕ), into',
        (st.handle b).touch visit (st.handle b).hdr.lastModifyTime) st.disk) :
    ((st.handle b).readAt into n pos).wp ab Q st.disk := by
  obtain ⟨k, V⟩ := I.view b
  have hle := V.le
  have hk : (st.handle b).length = k := V.numBytes
  -- the request ends before the end the handle knows, or that is the end of the file
  have havail : min n.toNat (k - pos) = ArrayFile.avail st.file.length n pos := by
    unfold ArrayFile.avail
    rcases hcur with h | h <;> rw [hk] at h <;> omega
  apply OpenFile.wp_readAt (l.getD · 0) V.numBytes hlt
  · intro hpos j _ hj
    exact (V.maps I.laid h26 (by omega) _).2
  · intro visit
    rw [havail]
    apply hQ
    refine ⟨rfl, fun m hm v hv => ?_, fun m hm => ?_⟩
    · have hp : pos + m < st.file.length := by
        unfold ArrayFile.avail at hm
        omega
      dsimp only
      rw [if_pos hm, ← I.laid.content_direct h26.le hp]
      exact I.bytes _ hp v hv
    · dsimp only
      rw [if_neg (by omega)]

/-- The invariant after `n` bytes have been written at `pos` through the handle `b`; `g` has the bytes
before the write. -/
theorem written (I : Inv i st o s l) {n pos len' : ℕ} (hn : 0 < n)
    (hlen : max st.file.length (pos + n) = len') {o' : Ownership Disk.Owner ℕ} {l' : List ℕ}
    {d' : Disk} (A : d'.Opened o' i s l' len' f) (hle : sectorsFor len' ≤ NumDirect) {g : Buf}
    (hg : ∀ p < st.file.length, g p = (st.disk.header s).content st.disk p)
    (hflat : ∀ p < len', flat d' (l'.getD · 0) p
      = if pos ≤ p ∧ p < pos + n then data (p - pos) else g p) {f' : OpenFile}
    (hf' : View (d'.header s) len' k f')
    (hother : ∀ b', b' ≠ b → ∃ k, View (d'.header s) len' k (st.handle b'))
    (hcur : f'.seekPosition = (st.handle b).seekPosition) :
    Inv i ⟨Function.update st.handle b f', d', st.file.write data n pos⟩ o' s l' := by
  have hwrite := st.file.write_of_pos data pos hn
  have hlen' : (st.file.write data n pos).length = len' := by
    rw [hwrite]
    exact hlen
  refine ⟨A.holds, A.entry, A.own, by rw [hlen']; exact A.laid, fun p hp v hv => ?_,
    fun p hp => ?_, fun b' => ?_, fun b' => ?_⟩
  · rw [hlen'] at hp
    rw [A.laid.content_direct hle hp, hflat p hp]
    rw [hwrite] at hv
    dsimp only at hv
    split_ifs at hv ⊢ with hr
    · exact Option.some.inj hv
    · -- an old byte
      have hold : p < st.file.length := by
        by_contra hge
        rw [I.unwritten p (by omega)] at hv
        cases hv
      rw [hg p hold]
      exact I.bytes p hold v hv
  · rw [hlen'] at hp
    rw [hwrite]
    dsimp only
    rw [if_neg (by omega), I.unwritten p (by omega)]
  · rw [hlen']
    by_cases hb : b' = b
    · subst hb
      simp only [Function.update_self]
      exact ⟨k, hf'⟩
    · simp only [Function.update_of_ne hb]
      exact hother b' hb
  · have hcursor : (st.file.write data n pos).cursor = st.file.cursor := by rw [hwrite]
    rw [hcursor]
    by_cases hb : b' = b
    · subst hb
      simp only [Function.update_self]
      rw [hcur]
      exact I.cursor b'
    · simp only [Function.update_of_ne hb]
      exact I.cursor b'

/-- Writing within the part of the file the handle knows. -/
theorem wp_writeAt_known (I : Inv i st o s l) (h26 : sectorsFor st.file.length < NumDirect)
    (V : View (st.disk.header s) st.file.length k (st.handle b)) {n pos : ℕ} (hn : 0 < n)
    (hle : pos + n ≤ k) (hblock : k = st.file.length ∨ sectorsFor (pos + n) * SectorSize ≤ k)
    (hQ : ∀ f d', f.seekPosition = (st.handle b).seekPosition →
      Inv i ⟨Function.update st.handle b f, d', st.file.write data n pos⟩ o s l → Q (n, f) d') :
    ((st.handle b).writeAt data n pos).wp ab Q st.disk := by
  have hkl := V.le
  have hlen := I.laid.length_direct h26.le
  rw [OpenFile.writeAt, OpenFile.writeAtDepth_eq_store hn V.numBytes hle]
  apply OpenFile.wp_store_known (l := l) st.file.length V.numBytes hn
  · intro j _ hj
    exact V.maps I.laid h26 (by omega) _
  · exact I.laid.nodup
  · rw [hlen]
    simp only [sectorsFor, SectorSize]
    omega
  · rw [hlen]
    simp only [sectorsFor, SectorSize]
    omega
  · -- the bytes behind `k` are in other blocks
    intro p hp h1 h2
    simp only [sectorsFor, SectorSize] at *
    omega
  · intro visit modify d' hout hflat
    have hsame := (st.handle b).sameFile_touch visit modify
    -- only data have changed
    have A := I.opened (f := ⟨s, st.disk.header s, 0⟩) (.refl _)
    have hS : st.disk.SameStructure d' := by
      intro x hx
      apply hout x
      intro hxl
      refine A.not_structural hxl (fun h => ?_) hx
      omega
    obtain ⟨A', hheader, -⟩ := A.sameStructure hS
    apply hQ
    · rfl
    refine I.written (k := k) hn (by omega) A' h26.le (fun p hp => (I.laid.content_direct h26.le hp).symm)
      hflat ?_ (fun b' _ => ?_) rfl
    · rw [hheader]
      exact V.congr hsame
    · rw [hheader]
      exact I.view b'

/-- Extending the file through a handle that knows its length. -/
theorem wp_writeAt_extending (I : Inv i st o s l)
    (hfresh : (st.handle b).hdr.SameFile (st.disk.header s)) {n pos : ℕ} (hn : 0 < n)
    (hgrow : st.file.length < pos + n) (hone : sectorsFor (pos + n) ≤ sectorsFor st.file.length + 1)
    (hlt : sectorsFor (pos + n) < NumDirect)
    (hroom : sectorsFor (pos + n) - sectorsFor st.file.length ≤ st.disk.freeMap.clears.length)
    (hQ : ∀ f d' o' l', f.seekPosition = (st.handle b).seekPosition →
      Inv i ⟨Function.update st.handle b f, d', st.file.write data n pos⟩ o' s l' → Q (n, f) d') :
    ((st.handle b).writeAt data n pos).wp ab Q st.disk := by
  have hlt' : sectorsFor (pos + n) < 26 := hlt
  have hmono : sectorsFor st.file.length ≤ sectorsFor (pos + n) := Nat.div_le_div_right (by omega)
  obtain ⟨ml, hml, -⟩ := I.holds.mapFile
  have A := I.opened hfresh
  apply A.wp_writeAt hml hn hgrow (by omega) hroom
  · intro h1 h2
    have h1' : 26 ≤ sectorsFor st.file.length := h1
    omega
  · intro f₁ d₁ _ E
    have hL := A.laid_extended hml E (by omega) hroom
    have hlen := hL.length_direct hlt.le
    have V₁ : View f₁.hdr (pos + n) (pos + n) f₁ := .of_sameFile hL (.refl _)
    apply OpenFile.wp_store_known (pos + n) V₁.numBytes hn
    · intro j _ hj
      exact V₁.maps hL hlt (by omega) _
    · exact hL.nodup
    · rw [hlen]
      simp only [sectorsFor, SectorSize]
      omega
    · rw [hlen]
      simp only [sectorsFor, SectorSize]
      omega
    · exact fun p hp _ _ => Or.inl hp
    · intro visit modify d' hout hflat
      obtain ⟨o', A'⟩ := A.opened_extended hml E hL hlt.le FileHeader.nodup_newSectors
        (fun x hx => FileHeader.free_of_mem_newSectors hx) hout
      have hsame := f₁.sameFile_touch visit modify
      apply hQ _ _ o' _
      · exact E.seekPosition
      refine I.written (k := pos + n) hn (by omega) A' hlt.le (fun p hp => ?_) hflat ?_
        (fun b' _ => ?_) E.seekPosition
      · -- the old blocks are where they were
        have hj : p / SectorSize < l.length := by
          rw [I.laid.length_direct (by omega)]
          simp only [sectorsFor, SectorSize]
          omega
        rw [I.laid.content_direct (by omega) hp, flat, flat, List.getD_append _ _ _ _ hj,
          A.extended_index hml E (List.getD_mem_of_lt hj)]
      · exact .of_sameFile A'.laid (hsame.trans A'.same)
      · obtain ⟨k, V⟩ := I.view b'
        refine ⟨k, V.extended hgrow fun j hj h26 => ?_⟩
        have hnat : (st.handle b).hdr.numSectors.toNat = sectorsFor st.file.length := by
          rw [hfresh.numSectors, I.laid.numSectors_toNat]
        rw [← A'.same.dataSectors, E.hdr.dataSectors, ← hfresh.dataSectors]
        exact FileHeader.dataSectors_grown_of_lt (by omega) (by omega)

/-- Writing through a handle that is good enough. -/
theorem wp_writeAt (I : Inv i st o s l) (h26 : sectorsFor st.file.length < NumDirect) {n : ℤ}
    {pos : ℕ} (hext : st.Extends n pos) (hcur : st.CurrentWrite b n pos)
    (hQ : ∀ f d' o' l', f.seekPosition = (st.handle b).seekPosition →
      Inv i ⟨Function.update st.handle b f, d', st.file.write data n pos⟩ o' s l' →
      Q (n.toNat, f) d') : ((st.handle b).writeAt data n pos).wp ab Q st.disk := by
  obtain ⟨k, V⟩ := I.view b
  by_cases hn : n ≤ 0
  · apply OpenFile.wp_writeAtDepth_nonpos hn
    have hq := hQ (st.handle b) st.disk o l rfl
    rw [SharedFile.write, if_pos hn, Function.update_eq_self, Int.toNat_of_nonpos hn] at hq
    exact hq I
  · obtain ⟨m, rfl⟩ := Int.eq_ofNat_of_zero_le (show 0 ≤ n by omega)
    have hk : (st.handle b).length = k := V.numBytes
    simp only [State.Extends, State.CurrentWrite, State.blockEnd, hn, false_or, hk,
      Int.toNat_natCast] at hext hcur hQ
    obtain ⟨hlt, hcur⟩ := hcur
    rcases hcur with hfresh | hblock
    · by_cases hgrow : st.file.length < pos + m
      · obtain ⟨hone, -, hroom⟩ := hext.resolve_left (by omega)
        rw [BitMap.numClear_eq] at hroom
        exact I.wp_writeAt_extending (V.fresh (by omega)) (by omega) hgrow hone hlt (by omega) hQ
      · exact I.wp_writeAt_known h26 V (by omega) (by omega) (Or.inl (by omega))
          fun f d' => hQ f d' o l
    · have hle : pos + m ≤ sectorsFor (pos + m) * SectorSize := by
        simp only [sectorsFor, SectorSize]
        omega
      exact I.wp_writeAt_known h26 V (by omega) (by omega) (Or.inr (by omega))
        fun f d' => hQ f d' o l

/-- **One call**: its answer is what it should be, and the invariant is preserved. -/
theorem wp_call (I : Inv i st o s l) {c : Call} (hallowed : st.Allowed b c)
    (hcur : st.Current b c) :
    (call (st.handle b) c).wp ab (fun r d' => st.file.Agrees b c r.1 ∧
      ∃ o' l', Inv i ⟨Function.update st.handle b r.2, d', st.file.next b c⟩ o' s l') st.disk := by
  obtain ⟨h26, hcur⟩ := hcur
  cases c with
  | length =>
    rw [call, Prog.wp_pure]
    refine ⟨hcur, o, l, ?_⟩
    rw [Function.update_eq_self]
    exact I
  | file c =>
    cases c with
    | seek position =>
      simp only [call, OpenFile.call, Prog.wp_do, Prog.wp_pure]
      obtain ⟨pos, rfl⟩ := Int.eq_ofNat_of_zero_le hallowed
      exact ⟨trivial, o, l, I.seek (f := (st.handle b).seek pos) (.refl _) rfl⟩
    | read into n =>
      simp only [call, OpenFile.call, OpenFile.read, Prog.wp_do, wp_sync', Prog.wp_pure, I.cursor b]
      refine I.wp_readAt h26 hallowed hcur fun visit into' hdel => ⟨hdel, o, l, I.seek ?_ ?_⟩
      · exact (st.handle b).sameFile_touch _ _
      · show (st.handle b).seekPosition + _ = _
        rw [I.cursor b, Int.natCast_add]
    | write data n =>
      simp only [call, OpenFile.call, OpenFile.write, Prog.wp_do, wp_sync', Prog.wp_pure, I.cursor b]
      refine I.wp_writeAt h26 hallowed hcur fun f d' o' l' hpos I' => ⟨rfl, o', l', ?_⟩
      have hpos' : ({ f with seekPosition := f.seekPosition + n.toNat } : OpenFile).seekPosition
          = ((st.file.cursor b + n.toNat : ℕ) : ℤ) := by
        show f.seekPosition + _ = _
        rw [hpos, I.cursor b, Int.natCast_add]
      have I'' := I'.seek (b := b) (by simp only [Function.update_self]; exact .refl _) hpos'
      rw [Function.update_idem] at I''
      exact I''
    | readAt into n position =>
      obtain ⟨h0, hlt⟩ := hallowed
      obtain ⟨pos, rfl⟩ := Int.eq_ofNat_of_zero_le h0
      simp only [call, OpenFile.call, Prog.wp_do, Prog.wp_pure]
      refine I.wp_readAt h26 hlt hcur fun visit into' hdel => ⟨hdel, o, l, I.touch ?_ rfl⟩
      exact (st.handle b).sameFile_touch _ _
    | writeAt data n position =>
      obtain ⟨h0, hext⟩ := hallowed
      obtain ⟨pos, rfl⟩ := Int.eq_ofNat_of_zero_le h0
      simp only [call, OpenFile.call, Prog.wp_do, Prog.wp_pure]
      exact I.wp_writeAt h26 hext hcur fun f d' o' l' _ I' => ⟨rfl, o', l', I'⟩

end Inv

/-! ### Runs -/

variable {i : Fin NumDirEntries} {st : State}

theorem Inv.of_init (h : (system i).init st) : ∃ o s l, Inv i st o s l := by
  obtain ⟨o, s, len, H, hs, hnew, hlen, hfile⟩ := h
  obtain ⟨l, A⟩ := H.opened (f := ⟨s, st.disk.header s, 0⟩) hs (.refl _) hlen
  have hopen : ∀ b, (st.handle b).hdr.SameFile (st.disk.header s) ∧ (st.handle b).seekPosition = 0 :=
    fun b => (hnew b).of_wp
      (Q := fun f _ => f.hdr.SameFile (st.disk.header s) ∧ f.seekPosition = 0)
      (FileSystem.wp_openFile_new A.lt_numSectors fun f _ hpos hsame => ⟨hsame, hpos⟩)
  refine ⟨o, s, l, H, hs, A.own, ?_, ?_, ?_, fun b => ⟨len, ?_⟩, fun b => ?_⟩
  all_goals rw [hfile]
  · exact A.laid
  · intro p hp v hv
    dsimp only at hp hv
    rw [if_pos hp] at hv
    exact Option.some.inj hv
  · intro p hp
    exact if_neg (Nat.not_lt.mpr hp)
  · exact .of_sameFile A.laid (hopen b).1
  · exact (hopen b).2

/-- The calls the handles are good enough for. -/
def good (st : State) : Bool × Call × Answer → Prop
  | (b, c, _) => st.Allowed b c ∧ st.Current b c

theorem Inv.of_reachable (h : ((system i).restrict good).Reachable st) : ∃ o s l, Inv i st o s l := by
  apply h.invariant
  · exact fun st hinit => Inv.of_init hinit
  · rintro st ⟨b, c, a⟩ ⟨handle, disk, file⟩ ⟨o, s, l, I⟩ ⟨⟨hallowed, hcur⟩, f, hy, rfl, rfl⟩
    obtain ⟨-, o', l', I'⟩ := hy.of_wp (I.wp_call hallowed hcur)
    exact ⟨o', s, l', I'⟩

/-- A byte has been written to an empty file through one of the handles. -/
theorem exists_written : ∃ st₀ st₁ a, (system 0).init st₀ ∧
    (system 0).step st₀ (true, .file (.writeAt (fun _ => 7) 1 0), a) st₁ ∧
    good st₀ (true, .file (.writeAt (fun _ => 7) 1 0), a) ∧
    (st₁.handle false).length = 0 ∧ st₁.file.length = 1 := by
  obtain ⟨d, o, s, -, H, hs, -, hclears⟩ := FileSystem.exists_files
  have A := H.opened_empty hs
  have hwp : (OpenFile.new s).wp False
      (fun f d' => d' = d ∧ f.hdr.SameFile (d.header s)) d :=
    FileSystem.wp_openFile_new A.lt_numSectors fun f _ _ hsame => ⟨rfl, hsame⟩
  obtain ⟨f, d', hnew, hd', hsame⟩ := Prog.exists_yields_of_wp hwp
  rw [hd'] at hnew
  let st₀ : State := ⟨fun _ => f, d, ⟨0, fun p => if p < 0 then some ((d.header s).content d p)
    else none, fun _ => 0⟩⟩
  have hlen : f.length = 0 := by
    rw [OpenFile.length, FileHeader.fileLength, hsame.numBytes]
    exact A.laid.numBytes_toInt
  have hinit : (system 0).init st₀ :=
    ⟨o, s, 0, H, A.entry, fun _ => hnew, A.laid.numBytes_toInt, rfl⟩
  have hallowed : st₀.Allowed true (.file (.writeAt (fun _ => 7) 1 0)) := by
    refine ⟨le_rfl, Or.inr (Or.inr
      ⟨show sectorsFor (0 + (1 : ℤ).toNat) ≤ sectorsFor 0 + 1 by decide, by decide, ?_⟩)⟩
    have hroom : 1 ≤ d.freeMap.numClear := by
      rw [BitMap.numClear_eq]
      omega
    exact le_trans (show sectorsFor (0 + (1 : ℤ).toNat) ≤ 1 by decide)
      (hroom.trans (Nat.le_add_left _ _))
  have hcur : st₀.Current true (.file (.writeAt (fun _ => 7) 1 0)) :=
    ⟨show sectorsFor 0 < NumDirect by decide, Or.inr ⟨by decide, Or.inl hlen⟩⟩
  obtain ⟨o, s, l, I⟩ := Inv.of_init hinit
  obtain ⟨⟨a, f'⟩, d₁, hy, -⟩ := Prog.exists_yields_of_wp (I.wp_call hallowed hcur)
  refine ⟨st₀, ⟨Function.update st₀.handle true f', d₁,
    st₀.file.next true (.file (.writeAt (fun _ => 7) 1 0))⟩, a, hinit,
    ⟨f', hy, rfl, rfl⟩, ⟨hallowed, hcur⟩, hlen, ?_⟩
  exact congrArg SharedFile.length (st₀.file.write_of_pos (n := 1) (fun _ => 7) 0 (by decide))

/-- **Two handles are coherent** as long as each call goes through a handle that is good enough for
it: the disk is consistent and holds all that has been written, and the next such call returns with the
answer it should give. -/
theorem handles_coherent (h : ((system i).restrict good).Reachable st) :
    st.Stored i ∧ ∀ b c, st.Allowed b c → st.Current b c →
      (call (st.handle b) c).wp False (fun r _ => st.file.Agrees b c r.1) st.disk := by
  obtain ⟨o, s, l, I⟩ := Inv.of_reachable h
  refine ⟨⟨I.holds.consistent, s, I.entry, I.laid.numBytes_toInt, I.bytes⟩, ?_⟩
  intro b c hallowed hcur
  exact Prog.wp_mono (I.wp_call hallowed hcur) fun r d' hr => hr.1

/-- The byte is there. -/
theorem handles_coherent_one_byte : ∃ st, ((system 0).restrict good).Reachable st ∧
    st.file.length = 1 ∧ st.Stored 0 := by
  obtain ⟨st₀, st₁, a, hinit, hstep, hgood, -, hlen⟩ := exists_written
  have hr : ((system 0).restrict good).Reachable st₁ :=
    .tail (.of_init hinit) (a := (true, _, a)) ⟨hgood, hstep⟩
  exact ⟨st₁, hr, hlen, (handles_coherent hr).1⟩

/-- The other handle does not see that the file has grown: its `Length` is still 0. -/
theorem length_not_seen : ∃ st, ((system 0).restrict fun st l => st.Allowed l.1 l.2.1).Reachable st ∧
    st.Allowed false .length ∧
    ¬ (call (st.handle false) .length).wp False (fun r _ => st.file.Agrees false .length r.1)
      st.disk := by
  obtain ⟨st₀, st₁, a, hinit, hstep, hgood, hstale, hlen⟩ := exists_written
  refine ⟨st₁, .tail (.of_init hinit) (a := (true, _, a)) ⟨hgood.1, hstep⟩, trivial, ?_⟩
  intro hwp
  rw [call, Prog.wp_pure] at hwp
  have hagree : (st₁.handle false).length = (st₁.file.length : ℤ) := hwp
  rw [hstale, hlen] at hagree
  cases hagree

end TwoHandles

end Nachos
