import Nachos.Bin.Equiv.Sections

/-!
# What the converter describes

The output is always a file the loader accepts (`isNoff_of_main`).  It describes the sections of the
input when there is one of each kind, and not much else: `faithful_iff_describable` says when.
-/

namespace Nachos.Coff2noff

open Memory

variable {coff : File} {c : Conversion} {s : Scnhdr} {l : List Scnhdr} {segment : Segment} {k : Kind}
  {noff : File} {garbage : NoffHeader}

/-! ### The output -/

/-- The header read back. -/
theorem header_writeHeader (c : Conversion) : (writeHeader c).header = c.noffH := by
  have hbytes : ∀ k < 4 * 10, (writeHeader c).bytes k = headerBytes c.noffH k := by
    intro k hk
    exact Bytes.copy_of_mem (Nat.zero_le k) (by omega)
  have hword : ∀ i < 10, (Layout.decodeArray (writeHeader c).bytes i : CInt) = _ :=
    fun i hi => Layout.decodeArray_eq hi hbytes
  unfold File.header NoffHeader.ofBytes
  simp only [hword, Nat.reduceLT]
  rfl

theorem Stored.writeHeader (h : Stored coff c.noff segment s) :
    Stored coff (writeHeader c) segment s := by
  refine ⟨h.virtualAddr, h.size, h.behindHeader, Nat.le_trans h.written (Nat.le_max_left _ _), ?_⟩
  intro hpointer k hk
  rw [← h.bytes hpointer k hk]
  have hbehind := h.behindHeader
  exact Bytes.copy_of_le (by omega)

theorem Describes.writeHeader (h : Describes coff c.noff k l segment) :
    Describes coff (writeHeader c) k l segment := by
  rcases h with hnone | ⟨s, hs, hk, hstored⟩
  · exact Or.inl hnone
  · exact Or.inr ⟨s, hs, hk, hstored.writeHeader⟩

theorem Stored.holds (h : Stored coff noff segment s) (hsmall : noff.length < 2 ^ 31)
    (hpointer : 0 ≤ s.sScnptr.toInt) (hin : s.sScnptr.toNat + s.sSize.toNat ≤ coff.length) :
    Holds coff noff segment s := by
  refine ⟨h.virtualAddr, h.size, ?_⟩
  intro k hk
  have hwritten := h.written
  refine ⟨hpointer, by omega, ?_, by omega, h.bytes hpointer k hk⟩
  exact BitVec.toInt_pos_iff.mpr (by omega)

/-- A segment can stand for several sections only when they are the same. -/
theorem holds_iff (h : Describes coff noff k l segment) (hsmall : noff.length < 2 ^ 31)
    (hin : ∀ s ∈ l, Is k s → 0 ≤ s.sScnptr.toInt → s.sScnptr.toNat + s.sSize.toNat ≤ coff.length) :
    (∀ s ∈ l, Is k s → Holds coff noff segment s) ↔
      (∀ s ∈ l, ∀ s' ∈ l, Is k s → Is k s' → Same coff s s') ∧
      ∀ s ∈ l, Is k s → 0 ≤ s.sScnptr.toInt := by
  constructor
  · intro hholds
    constructor
    · intro s hs s' hs' hk hk'
      obtain ⟨haddr, hsize, hbytes⟩ := hholds s hs hk
      obtain ⟨haddr', hsize', hbytes'⟩ := hholds s' hs' hk'
      refine ⟨haddr.symm.trans haddr', hsize.symm.trans hsize', ?_⟩
      intro i hi
      obtain ⟨-, -, -, -, hi₁⟩ := hbytes i hi
      obtain ⟨-, -, -, -, hi₂⟩ := hbytes' i (by rwa [← hsize', hsize])
      rw [← hi₁, hi₂]
    · intro s hs hk
      exact ((hholds s hs hk).contents 0 (toNat_pos hk.1)).1
  · rintro ⟨hsame, hpointers⟩ s hs hk
    rcases h with ⟨hnone, -⟩ | ⟨s₀, hs₀, hk₀, hstored⟩
    · exact absurd hk (hnone s hs)
    · -- what holds for the section that was stored holds for all that are the same
      obtain ⟨haddr, hsize, hbytes⟩ := hsame s₀ hs₀ s hs hk₀ hk
      have hpointer := hpointers s hs hk
      have hlength := hin s hs hk hpointer
      obtain ⟨haddr₀, hsize₀, hcontents⟩ :=
        hstored.holds hsmall (hpointers s₀ hs₀ hk₀) (hin s₀ hs₀ hk₀ (hpointers s₀ hs₀ hk₀))
      refine ⟨haddr₀.trans haddr, hsize₀.trans hsize, ?_⟩
      intro i hi
      rw [← hsize] at hi
      obtain ⟨-, -, hpos, hwritten, hi₀⟩ := hcontents i hi
      rw [← hsize] at hlength
      exact ⟨hpointer, by omega, hpos, hwritten, hi₀.trans (hbytes i hi)⟩

theorem readHeaders_eq_ok {l : List Scnhdr} (h : readHeaders coff = .ok l) : l = sections coff := by
  unfold readHeaders at h
  split_ifs at h
  cases h
  rfl

theorem main_eq_ok : main coff garbage = .ok noff ↔
    readHeaders coff = .ok (sections coff) ∧
      ∃ c, convertSections coff (start coff garbage) (sections coff) = .ok c ∧ writeHeader c = noff := by
  unfold main
  cases hread : readHeaders coff with
  | error e => simp [bind, Except.bind]
  | ok l =>
    rw [readHeaders_eq_ok hread]
    simp only [bind, Except.bind, true_and]
    exact Except.map_eq_ok

theorem mem_others (hk : k ≠ .uninitData) (hs : s ∈ l) (h : Is k s) : s ∈ others l :=
  List.mem_filter.mpr ⟨hs, by simpa using h.ne hk⟩

theorem Describes.of_others (hk : k ≠ .uninitData) (h : Describes coff noff k (others l) segment) :
    Describes coff noff k l segment := by
  rcases h with ⟨hnone, hsize⟩ | ⟨s, hs, hs', hstored⟩
  · exact Or.inl ⟨fun s hs hs' => hnone s (mem_others hk hs hs') hs', hsize⟩
  · exact Or.inr ⟨s, List.mem_of_mem_filter hs, hs', hstored⟩

/-- The sections that are added up are not copied. -/
theorem Copied.of_others (h : Copied coff (others l) c) : Copied coff l c := by
  have hcode : Kind.code ≠ .uninitData := by decide
  have hdata : Kind.initData ≠ .uninitData := by decide
  refine ⟨h.magic, h.positioned, ?_, h.code.of_others hcode, h.initData.of_others hdata, ?_⟩
  · intro s hs hk
    rcases hk with hk | hk
    · exact h.inFile s (mem_others hcode hs hk) (Or.inl hk)
    · exact h.inFile s (mem_others hdata hs hk) (Or.inr hk)
  · intro s hs s' hs' hk hk'
    exact h.once s (mem_others hdata hs hk) s' (mem_others hdata hs' hk') hk hk'

/-- Where an output comes from. -/
theorem exists_copied (h : main coff garbage = .ok noff) :
    ∃ c segment, writeHeader (c.withUninitData segment) = noff ∧ Copied coff (sections coff) c ∧
      mergeSections { garbage.uninitData with size := 0 } (bss coff) = .ok segment := by
  obtain ⟨-, c', hconvert, rfl⟩ := main_eq_ok.mp h
  obtain ⟨c, segment, hcopy, hmerge, rfl⟩ := (convertSections_iff _ _ _).mp hconvert
  have hothers : ∀ s ∈ others (sections coff), ¬ Is .uninitData s := by
    intro s hs
    simpa using List.of_mem_filter hs
  exact ⟨c, segment, rfl, ((copied_start garbage).convertSections hothers hcopy).of_others, hmerge⟩

theorem length_writeHeader (h : Copied coff l c) (segment : Segment) :
    (writeHeader (c.withUninitData segment)).length < 2 ^ 31 := by
  obtain ⟨-, hheader, hsmall, hlength⟩ := h.positioned
  exact Nat.lt_of_le_of_lt (Nat.max_le.mpr ⟨hlength, hheader⟩) hsmall

theorem Copied.writeHeader (h : Copied coff l c) (segment : Segment) :
    Describes coff (writeHeader (c.withUninitData segment)) .code l c.noffH.code ∧
      Describes coff (writeHeader (c.withUninitData segment)) .initData l c.noffH.initData := by
  have hcode : Describes coff (c.withUninitData segment).noff .code l c.noffH.code := h.code
  have hdata : Describes coff (c.withUninitData segment).noff .initData l c.noffH.initData := h.initData
  exact ⟨hcode.writeHeader, hdata.writeHeader⟩

theorem Describes.inFile (h : Describes coff noff k l segment) (hsmall : noff.length < 2 ^ 31)
    (hpos : 0 < segment.size.toNat) :
    0 ≤ segment.inFileAddr.toInt ∧ segment.inFileAddr.toNat + segment.size.toNat ≤ noff.length := by
  rcases h with ⟨-, hzero⟩ | ⟨s, -, -, hstored⟩
  · rw [hzero] at hpos
    exact absurd hpos (Nat.lt_irrefl 0)
  · have hwritten := hstored.written
    rw [hstored.size]
    exact ⟨BitVec.toInt_pos_iff.mpr (by omega), hwritten⟩

/-- **What the converter writes is what the loader expects**, whatever the sections of the model are; it
does not describe the copying of a negative number of bytes (`copySection`). -/
theorem isNoff_of_main (h : main coff garbage = .ok noff) : noff.IsNoff := by
  obtain ⟨c, segment, rfl, hcopied, -⟩ := exists_copied h
  have hsmall := length_writeHeader hcopied segment
  obtain ⟨hcode, hdata⟩ := hcopied.writeHeader segment
  refine ⟨Nat.le_max_right _ _, ?_, ?_⟩
  · rw [header_writeHeader]
    exact hcopied.magic
  · rw [header_writeHeader]
    intro segment₁ hmem
    rcases List.mem_pair.mp hmem with rfl | rfl
    · exact hcode.inFile hsmall
    · exact hdata.inFile hsmall

theorem is_of_mem_bss (hs : s ∈ bss coff) : Is .uninitData s := by
  simpa using List.of_mem_filter hs

theorem covers_bss (a : ℕ) : (∃ s ∈ sections coff, Is .uninitData s ∧ Covers s a) ↔
    ∃ s ∈ bss coff, Covers s a := by
  simp [bss, uninits, and_assoc]

theorem faithful_iff (hmain : main coff garbage = .ok noff)
    (hsizes : ∀ s ∈ bss coff, 0 ≤ s.sSize.toInt) : Faithful coff noff ↔ Describable coff := by
  obtain ⟨c, segment, rfl, hcopied, hmerge⟩ := exists_copied hmain
  have hsmall := length_writeHeader hcopied segment
  obtain ⟨hcode, hdata⟩ := hcopied.writeHeader segment
  have hcode' := holds_iff hcode hsmall fun s hs hk => hcopied.inFile s hs (Or.inl hk)
  have hdata' := holds_iff hdata hsmall fun s hs hk => hcopied.inFile s hs (Or.inr hk)
  have huninit := mergeSections_covers rfl (fun s hs => ⟨(is_of_mem_bss hs).1, hsizes s hs⟩) hmerge
  constructor
  · intro hfaithful
    obtain ⟨hcode₁, hdata₁, huninit₁⟩ := hfaithful
    rw [header_writeHeader] at hcode₁ hdata₁ huninit₁
    refine ⟨(hcode'.mp hcode₁).1, ?_, huninit.mp fun a => (huninit₁ a).trans (covers_bss a)⟩
    rintro s hs (hk | hk)
    · exact (hcode'.mp hcode₁).2 s hs hk
    · exact (hdata'.mp hdata₁).2 s hs hk
  · intro hdescribable
    obtain ⟨hcode₁, hpointers, huninit₁⟩ := hdescribable
    constructor
    · rw [header_writeHeader]
      exact hcode'.mpr ⟨hcode₁, fun s hs hk => hpointers s hs (Or.inl hk)⟩
    · -- there is only one section with initialised data
      rw [header_writeHeader]
      refine hdata'.mpr ⟨?_, fun s hs hk => hpointers s hs (Or.inr hk)⟩
      intro s hs s' hs' hk hk'
      rw [hcopied.once s hs s' hs' hk hk']
      exact ⟨rfl, rfl, fun _ _ => rfl⟩
    · rw [header_writeHeader]
      intro a
      exact (huninit.mpr huninit₁ a).trans (covers_bss a).symm

theorem accepted_iff (hread : readHeaders coff = .ok (sections coff))
    (hcopy : convertSections coff (start coff garbage) (others (sections coff)) = .ok c)
    (hcontiguous : Contiguous (bss coff)) :
    (∃ noff, main coff garbage = .ok noff) ↔ (bss coff).length ≤ 1 := by
  have hmerge := @mergeSections_contiguous (bss coff) (start coff garbage).noffH.uninitData rfl
    (fun s hs => (is_of_mem_bss hs).1) hcontiguous
  rw [← hmerge]
  constructor
  · rintro ⟨noff, hmain⟩
    obtain ⟨-, segment, -, -, hmerge⟩ := exists_copied hmain
    exact ⟨segment, hmerge⟩
  · rintro ⟨segment, hmerge⟩
    have hconvert := (convertSections_iff _ _ _).mpr ⟨c, segment, hcopy, hmerge, rfl⟩
    exact ⟨_, main_eq_ok.mpr ⟨hread, _, hconvert, rfl⟩⟩

/-- The sample programs: at most one section of each kind. -/
theorem describable_of_single (hcode : ((sections coff).filter fun s => Is .code s).length ≤ 1)
    (hbss : (bss coff).length ≤ 1)
    (hpointers : ∀ s ∈ sections coff, Is .code s ∨ Is .initData s → 0 ≤ s.sScnptr.toInt) :
    Describable coff := by
  refine ⟨?_, hpointers, ?_⟩
  · intro s hs s' hs' hk hk'
    have hmem : s ∈ (sections coff).filter fun s => Is .code s :=
      List.mem_filter.mpr ⟨hs, decide_eq_true hk⟩
    have hmem' : s' ∈ (sections coff).filter fun s => Is .code s :=
      List.mem_filter.mpr ⟨hs', decide_eq_true hk'⟩
    obtain ⟨i, hi, rfl⟩ := List.getElem_of_mem hmem
    obtain ⟨j, hj, rfl⟩ := List.getElem_of_mem hmem'
    have hij : i = j := by omega
    subst hij
    exact ⟨rfl, rfl, fun _ _ => rfl⟩
  · intro first hfirst a
    cases hl : bss coff with
    | nil => simp [hl] at hfirst
    | cons s l =>
      rw [hl] at hfirst hbss
      cases hfirst
      have hnil : l = [] := List.length_eq_zero_iff.mp (Nat.le_zero.mp (Nat.le_of_succ_le_succ hbss))
      simp [hnil, Covers]

/-! ### Files with given sections -/

/-- A little-endian word. -/
def wordBytes (n : ℕ) : List Byte := (List.range 4).map fun i => BitVec.ofNat 8 (n / 256 ^ i)

/-- A section header with a name, an address, a size and a position. -/
def scnhdrBytes (s : String × ℕ × ℕ × ℕ) : List Byte :=
  (List.range 8).map (cstring s.1) ++ wordBytes s.2.1 ++ wordBytes 0 ++ wordBytes s.2.2.1 ++
    wordBytes s.2.2.2 ++ List.replicate 16 0

/-- A COFF file with these sections; `contents` begins after the section headers. -/
def coffFile (l : List (String × ℕ × ℕ × ℕ)) (contents : List Byte) : File :=
  let bytes : List Byte := [0x62, 0x01, BitVec.ofNat 8 l.length, 0] ++ List.replicate 16 0 ++
    [0x07, 0x01] ++ List.replicate 54 0 ++ l.flatMap scnhdrBytes ++ contents
  ⟨bytes.length, fun k => bytes.getD k 0⟩

/-- A program with an empty `.sbss`. -/
def single : File := coffFile
  [(".text", 0, 4, 236), (".data", 4, 2, 240), (".sbss", 6, 0, 0), (".bss", 6, 16, 0)] [1, 2, 3, 4, 5, 6]

/-- The layout of `test/script`: `.sbss` and then `.bss`, right behind the data. -/
def adjoining : File := coffFile
  [(".text", 0, 4, 236), (".data", 4, 2, 240), (".sbss", 6, 8, 0), (".bss", 14, 16, 0)] [1, 2, 3, 4, 5, 6]

/-- `.bss` is somewhere else. -/
def apart : File := coffFile
  [(".text", 0, 4, 236), (".data", 4, 2, 240), (".sbss", 6, 8, 0), (".bss", 64, 16, 0)] [1, 2, 3, 4, 5, 6]

/-- Two sections with code. -/
def twoTexts : File := coffFile [(".text", 0, 4, 156), (".text", 4, 2, 160)] [1, 2, 3, 4, 5, 6]

def zeroHeader : NoffHeader := ⟨0, ⟨0, 0, 0⟩, ⟨0, 0, 0⟩, ⟨0, 0, 0⟩⟩

local instance decidableCovers (s : Scnhdr) (a : ℕ) : Decidable (Covers s a) :=
  inferInstanceAs (Decidable (_ ∧ _))

local instance decidableContiguous (l : List Scnhdr) : Decidable (Contiguous l) :=
  inferInstanceAs (Decidable (List.IsChain _ l))

/-! ### When the output is right -/

/-- **When the converter is right.**  When no size is negative, an output describes the sections of the
input if and only if there is one section with code, or all of them are the same, the positions in the
file are positions, and the uninitialised data begin with the first section and have no gaps.  But
sections of uninitialised data of which each begins where the one before it ends are refused as soon as
there are two. -/
theorem faithful_iff_describable (coff : File) (garbage : NoffHeader) :
    (∀ noff, main coff garbage = .ok noff → (∀ s ∈ sections coff, 0 ≤ s.sSize.toInt) →
      (Faithful coff noff ↔ Describable coff)) ∧
    ∀ c, readHeaders coff = .ok (sections coff) →
      convertSections coff (start coff garbage) (others (sections coff)) = .ok c →
      Contiguous (bss coff) → ((∃ noff, main coff garbage = .ok noff) ↔ (bss coff).length ≤ 1) := by
  constructor
  · intro noff hmain hsizes
    exact faithful_iff hmain fun s hs => hsizes s (List.mem_of_mem_filter hs)
  · intro c hread hcopy hcontiguous
    exact accepted_iff hread hcopy hcontiguous

/-- A program as the compiler makes them is accepted, and described. -/
theorem faithful_iff_describable_single :
    ∃ noff, main single zeroHeader = .ok noff ∧ Faithful single noff := by
  obtain ⟨hfaithful, haccepted⟩ := faithful_iff_describable single zeroHeader
  obtain ⟨l, hread⟩ := Except.exists_ok (x := readHeaders single) (by decide +kernel)
  rw [readHeaders_eq_ok hread] at hread
  obtain ⟨c, hcopy⟩ := Except.exists_ok
    (x := convertSections single (start single zeroHeader) (others (sections single))) (by decide +kernel)
  obtain ⟨noff, hmain⟩ := (haccepted c hread hcopy (by decide +kernel)).mpr (by decide +kernel)
  refine ⟨noff, hmain, (hfaithful noff hmain (by decide +kernel)).mpr ?_⟩
  exact describable_of_single (by decide +kernel) (by decide +kernel) (by decide +kernel)

/-- `.sbss` and `.bss` one after the other are refused.  When they are apart they are accepted, and the
addresses of `.bss` are not in the segment.  Of two sections with code the first one is lost. -/
theorem converter_not_faithful :
    (Contiguous (bss adjoining) ∧ ∀ noff, main adjoining zeroHeader ≠ .ok noff) ∧
    (∃ noff, main apart zeroHeader = .ok noff ∧ ¬ Faithful apart noff) ∧
    ∃ noff, main twoTexts zeroHeader = .ok noff ∧ ¬ Faithful twoTexts noff := by
  refine ⟨⟨by decide +kernel, ?_⟩, ?_, ?_⟩
  · intro noff h
    have hrefused : (main adjoining zeroHeader).toOption.isSome = false := by decide +kernel
    rw [h] at hrefused
    exact absurd hrefused (by simp [Except.toOption])
  · obtain ⟨noff, hmain⟩ := Except.exists_ok (x := main apart zeroHeader) (by decide +kernel)
    have huninit : (main apart zeroHeader).toOption.map (·.header.uninitData) = some ⟨6, 0, 24⟩ := by
      decide +kernel
    rw [hmain] at huninit
    have hsegment : noff.header.uninitData = ⟨6, 0, 24⟩ := Option.some.inj huninit
    refine ⟨noff, hmain, fun h => ?_⟩
    have hcovered := (h.uninitData 64).mpr (by decide +kernel)
    rw [hsegment] at hcovered
    exact absurd hcovered (by decide)
  · obtain ⟨noff, hmain⟩ := Except.exists_ok (x := main twoTexts zeroHeader) (by decide +kernel)
    have hcode : (main twoTexts zeroHeader).toOption.map (·.header.code.virtualAddr) = some 4 := by
      decide +kernel
    rw [hmain] at hcode
    have hsecond : noff.header.code.virtualAddr = 4 := Option.some.inj hcode
    refine ⟨noff, hmain, fun h => ?_⟩
    have hfirst : ∃ s ∈ sections twoTexts, Is .code s ∧ s.sPaddr = 0 := by decide +kernel
    obtain ⟨s, hs, hk, haddr⟩ := hfirst
    have hlost := (h.code s hs hk).virtualAddr
    rw [hsecond, haddr] at hlost
    exact absurd hlost (by decide)

end Nachos.Coff2noff
