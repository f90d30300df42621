import Nachos.Bin.Coff2noff
import Nachos.Lib.Lists

/-!
# The loop over the sections

The sections with uninitialised data and the others do not meet in the loop (`convertSections_iff`).
The first are added up (`mergeSections_covers`).  The others are copied, and `Copied` says what the
header and the file hold after some of them: a second section with code takes the place of the first
one in the header, a second section with initialised data is refused.
-/

namespace Nachos.Coff2noff

open Memory

variable {coff : File} {c c' : Conversion} {s : Scnhdr} {l : List Scnhdr} {segment : Segment} {k : Kind}

/-! ### One section -/

namespace Conversion

def withCode (c : Conversion) (segment : Segment) : Conversion :=
  { c with noffH := { c.noffH with code := segment } }

def withInitData (c : Conversion) (segment : Segment) : Conversion :=
  { c with noffH := { c.noffH with initData := segment } }

def withUninitData (c : Conversion) (segment : Segment) : Conversion :=
  { c with noffH := { c.noffH with uninitData := segment } }

end Conversion

theorem convertSection_of_empty (h : s.sSize = 0) : convertSection coff c s = .ok c := if_pos h

theorem convertSection_code (h : Is .code s) : convertSection coff c s =
    copySection coff (c.withCode ⟨s.sPaddr, c.inNoffFile, s.sSize⟩) s := by
  unfold convertSection
  rw [if_neg h.1, h.2]
  rfl

theorem convertSection_initData (h : Is .initData s) : convertSection coff c s =
    if c.noffH.initData.size ≠ 0 then .error .dataAndRdata
    else copySection coff (c.withInitData ⟨s.sPaddr, c.inNoffFile, s.sSize⟩) s := by
  unfold convertSection
  rw [if_neg h.1, h.2]
  rfl

theorem convertSection_uninitData (h : Is .uninitData s) :
    convertSection coff c s = (mergeSection c.noffH.uninitData s).map c.withUninitData := by
  unfold convertSection
  rw [if_neg h.1, h.2]
  cases mergeSection c.noffH.uninitData s <;> rfl

theorem convertSection_unknown (hsize : s.sSize ≠ 0) (hkind : kind s = none) :
    convertSection coff c s = .error .unknownSegment := by
  unfold convertSection
  rw [if_neg hsize, hkind]

theorem section_cases (s : Scnhdr) : s.sSize = 0 ∨ Is .code s ∨ Is .initData s ∨ Is .uninitData s ∨
    (s.sSize ≠ 0 ∧ kind s = none) := by
  by_cases hsize : s.sSize = 0
  · exact Or.inl hsize
  right
  cases hkind : kind s with
  | none => exact Or.inr (Or.inr (Or.inr ⟨hsize, rfl⟩))
  | some k =>
    cases k with
    | code => exact Or.inl ⟨hsize, hkind⟩
    | initData => exact Or.inr (Or.inl ⟨hsize, hkind⟩)
    | uninitData => exact Or.inr (Or.inr (Or.inl ⟨hsize, hkind⟩))

/-! ### The two parts of the loop -/

/-- Copying does not look at the header. -/
theorem copySection_withUninitData (segment : Segment) :
    copySection coff (c.withUninitData segment) s =
      (copySection coff c s).map (Conversion.withUninitData · segment) := by
  unfold copySection
  dsimp only [Conversion.withUninitData]
  split_ifs <;> rfl

/-- The other sections leave the uninitialised data alone, and do not depend on them. -/
theorem convertSection_other (h : ¬ Is .uninitData s) (segment : Segment) :
    convertSection coff (c.withUninitData segment) s =
      (convertSection coff c s).map (Conversion.withUninitData · segment) := by
  rcases section_cases s with hsize | hcode | hdata | huninit | ⟨hsize, hkind⟩
  · rw [convertSection_of_empty hsize, convertSection_of_empty hsize]
    rfl
  · rw [convertSection_code hcode, convertSection_code hcode, ← copySection_withUninitData]
    rfl
  · have hsame : (c.withUninitData segment).noffH.initData = c.noffH.initData := rfl
    rw [convertSection_initData hdata, convertSection_initData hdata, hsame]
    by_cases htwice : c.noffH.initData.size ≠ 0
    · rw [if_pos htwice, if_pos htwice]
      rfl
    · rw [if_neg htwice, if_neg htwice, ← copySection_withUninitData]
      rfl
  · exact absurd huninit h
  · rw [convertSection_unknown hsize hkind, convertSection_unknown hsize hkind]
    rfl

theorem uninitData_of_other (h : ¬ Is .uninitData s) (hok : convertSection coff c s = .ok c') :
    c'.noffH.uninitData = c.noffH.uninitData := by
  have hsame := @convertSection_other coff c s h c.noffH.uninitData
  rw [show c.withUninitData c.noffH.uninitData = c from rfl, hok] at hsame
  exact congrArg (fun c => c.noffH.uninitData) (Except.ok.inj hsame)

theorem convertSections_cons : convertSections coff c (s :: l) =
    (convertSection coff c s).bind fun c' => convertSections coff c' l := by
  unfold convertSections
  rw [List.foldlM_cons]
  rfl

theorem convertSections_cons_eq_ok :
    convertSections coff c (s :: l) = .ok c' ↔
      ∃ c₁, convertSection coff c s = .ok c₁ ∧ convertSections coff c₁ l = .ok c' := by
  rw [convertSections_cons]
  cases convertSection coff c s with
  | error e => simp [Except.bind]
  | ok c₁ => simp [Except.bind]

/-- The segment after the sections of `l`. -/
def mergeSections (segment : Segment) (l : List Scnhdr) : Except Failure Segment :=
  l.foldlM mergeSection segment

theorem mergeSections_cons_eq_ok {segment segment' : Segment} :
    mergeSections segment (s :: l) = .ok segment' ↔
      ∃ segment₁, mergeSection segment s = .ok segment₁ ∧ mergeSections segment₁ l = .ok segment' := by
  unfold mergeSections
  rw [List.foldlM_cons]
  cases mergeSection segment s with
  | error e => simp [bind, Except.bind]
  | ok segment₁ => simp [bind, Except.bind]

theorem convertSections_others (segment : Segment) :
    convertSections coff (c.withUninitData segment) (others l) =
      (convertSections coff c (others l)).map (Conversion.withUninitData · segment) := by
  have hothers : ∀ s ∈ others l, ¬ Is .uninitData s := by
    intro s hs
    simpa using List.of_mem_filter hs
  generalize others l = l at hothers
  induction l generalizing c with
  | nil => rfl
  | cons s l ih =>
    rw [convertSections_cons, convertSections_cons, convertSection_other (hothers s List.mem_cons_self)]
    cases convertSection coff c s with
    | error e => rfl
    | ok c₁ => exact ih fun s hs => hothers s (List.mem_cons_of_mem _ hs)

/-- **The loop falls apart** into the sections that are added up and those that are copied. -/
theorem convertSections_iff (c c' : Conversion) (l : List Scnhdr) :
    convertSections coff c l = .ok c' ↔ ∃ c₁ segment,
      convertSections coff c (others l) = .ok c₁ ∧
      mergeSections c.noffH.uninitData (uninits l) = .ok segment ∧
      c' = c₁.withUninitData segment := by
  induction l generalizing c with
  | nil =>
    constructor
    · rintro ⟨⟩
      exact ⟨c', c'.noffH.uninitData, rfl, rfl, rfl⟩
    · rintro ⟨c₁, segment, ⟨⟩, ⟨⟩, rfl⟩
      rfl
  | cons s l ih =>
    rw [convertSections_cons_eq_ok]
    by_cases hs : Is .uninitData s
    · -- the segment is all that changes
      have hothers : others (s :: l) = others l := List.filter_cons_of_neg (by simpa using hs)
      have huninits : uninits (s :: l) = s :: uninits l := List.filter_cons_of_pos (by simpa using hs)
      rw [hothers, huninits, convertSection_uninitData hs]
      constructor
      · rintro ⟨c₁, hmerge, hl⟩
        obtain ⟨segment₁, hsegment, rfl⟩ := Except.map_eq_ok.mp hmerge
        obtain ⟨c₂, segment, hcopy, hmerge, rfl⟩ := (ih _).mp hl
        rw [convertSections_others] at hcopy
        obtain ⟨c₃, hc₃, rfl⟩ := Except.map_eq_ok.mp hcopy
        exact ⟨c₃, segment, hc₃, mergeSections_cons_eq_ok.mpr ⟨segment₁, hsegment, hmerge⟩, rfl⟩
      · rintro ⟨c₁, segment, hcopy, hmerge, rfl⟩
        obtain ⟨segment₁, hsegment, hmerge⟩ := mergeSections_cons_eq_ok.mp hmerge
        refine ⟨c.withUninitData segment₁, Except.map_eq_ok.mpr ⟨segment₁, hsegment, rfl⟩, (ih _).mpr ?_⟩
        refine ⟨c₁.withUninitData segment₁, segment, ?_, hmerge, rfl⟩
        rw [convertSections_others]
        exact Except.map_eq_ok.mpr ⟨c₁, hcopy, rfl⟩
    · have hothers : others (s :: l) = s :: others l := List.filter_cons_of_pos (by simpa using hs)
      have huninits : uninits (s :: l) = uninits l := List.filter_cons_of_neg (by simpa using hs)
      rw [hothers, huninits]
      constructor
      · rintro ⟨c₁, hc₁, hl⟩
        obtain ⟨c₂, segment, hcopy, hmerge, rfl⟩ := (ih c₁).mp hl
        rw [uninitData_of_other hs hc₁] at hmerge
        exact ⟨c₂, segment, convertSections_cons_eq_ok.mpr ⟨c₁, hc₁, hcopy⟩, hmerge, rfl⟩
      · rintro ⟨c₂, segment, hcopy, hmerge, rfl⟩
        obtain ⟨c₁, hc₁, hcopy⟩ := convertSections_cons_eq_ok.mp hcopy
        rw [← uninitData_of_other hs hc₁] at hmerge
        exact ⟨c₁, hc₁, (ih c₁).mpr ⟨c₂, segment, hcopy, hmerge, rfl⟩⟩

/-! ### Uninitialised data -/

theorem lt_of_nonneg {w : CInt} (h : 0 ≤ w.toInt) : w.toNat < 2 ^ 31 ∧ w.toInt = w.toNat := by
  have hlt : 2 * w.toNat < 2 ^ 32 := BitVec.toInt_pos_iff.mp h
  exact ⟨by omega, BitVec.toInt_eq_toNat_of_lt hlt⟩

theorem toNat_pos {w : CInt} (h : w ≠ 0) : 0 < w.toNat := by
  rw [Nat.pos_iff_ne_zero]
  intro h0
  exact h (BitVec.eq_of_toNat_eq h0)

theorem mergeSection_of_empty (h : segment.size = 0) :
    mergeSection segment s = .ok { segment with virtualAddr := s.sPaddr, size := s.sSize } :=
  if_neg (not_not.mpr h)

/-- A later section adds its size, as long as the sum is an `int`. -/
theorem mergeSection_size {segment segment' : Segment} (hsize : 0 < segment.size.toInt)
    (hs : 0 ≤ s.sSize.toInt) (h : mergeSection segment s = .ok segment') :
    segment'.virtualAddr = segment.virtualAddr ∧
      segment'.size.toNat = segment.size.toNat + s.sSize.toNat ∧ 0 < segment'.size.toInt := by
  have hne : segment.size ≠ 0 := by
    intro h0
    rw [h0] at hsize
    exact absurd hsize (by decide)
  unfold mergeSection at h
  rw [if_pos hne] at h
  split_ifs at h with h₁ h₂ h₃
  rw [not_not] at h₃
  cases h
  have hfits : segment.size.toInt + s.sSize.toInt < 2 ^ 31 := by
    rw [← h₃]
    exact BitVec.toInt_lt
  obtain ⟨hsize₁, hsize₂⟩ := lt_of_nonneg (Int.le_of_lt hsize)
  obtain ⟨hs₁, hs₂⟩ := lt_of_nonneg hs
  have hadd : (segment.size + s.sSize).toNat = segment.size.toNat + s.sSize.toNat := by
    rw [BitVec.toNat_add, Nat.mod_eq_of_lt (by omega)]
  refine ⟨rfl, hadd, ?_⟩
  show 0 < (segment.size + s.sSize).toInt
  rw [BitVec.toInt_eq_toNat_of_lt (by omega), hadd]
  omega

theorem mergeSections_size {segment segment' : Segment} (hsize : 0 < segment.size.toInt)
    (hl : ∀ s ∈ l, 0 ≤ s.sSize.toInt) (h : mergeSections segment l = .ok segment') :
    segment'.virtualAddr = segment.virtualAddr ∧
      segment'.size.toNat = segment.size.toNat + (l.map fun s => s.sSize.toNat).sum := by
  induction l generalizing segment with
  | nil =>
    cases h
    exact ⟨rfl, rfl⟩
  | cons s l ih =>
    obtain ⟨segment₁, hs, hrest⟩ := mergeSections_cons_eq_ok.mp h
    obtain ⟨haddr, hadd, hpos⟩ := mergeSection_size hsize (hl s List.mem_cons_self) hs
    obtain ⟨haddr', hadd'⟩ := ih hpos (fun s hs => hl s (List.mem_cons_of_mem _ hs)) hrest
    rw [List.map_cons, List.sum_cons, haddr', hadd', haddr, hadd]
    exact ⟨rfl, Nat.add_assoc _ _ _⟩

/-- **The segment of the uninitialised data** begins with the first section and has the size of all of
them. -/
theorem mergeSections_covers {segment segment' : Segment} (hsize : segment.size = 0)
    (hl : ∀ s ∈ l, s.sSize ≠ 0 ∧ 0 ≤ s.sSize.toInt) (h : mergeSections segment l = .ok segment') :
    (∀ a, segment'.Covers a ↔ ∃ s ∈ l, Covers s a) ↔
      ∀ first ∈ l.head?, ∀ a, (∃ s ∈ l, Covers s a) ↔ first.sPaddr.toNat ≤ a ∧
        a < first.sPaddr.toNat + (l.map fun s => s.sSize.toNat).sum := by
  cases l with
  | nil =>
    cases h
    have hempty : ∀ a, ¬ segment.Covers a := by
      intro a ha
      have hlt := ha.2
      rw [hsize] at hlt
      exact absurd (Nat.lt_of_le_of_lt ha.1 hlt) (Nat.lt_irrefl _)
    simp [hempty]
  | cons first l =>
    obtain ⟨hne, hpos⟩ := hl first List.mem_cons_self
    obtain ⟨segment₁, hfirst, hrest⟩ := mergeSections_cons_eq_ok.mp h
    rw [mergeSection_of_empty hsize] at hfirst
    cases hfirst
    have hpos' : 0 < first.sSize.toInt := by
      have := toNat_pos hne
      have := (lt_of_nonneg hpos).2
      omega
    obtain ⟨haddr, hadd⟩ := @mergeSections_size l _ _ hpos'
      (fun s hs => (hl s (List.mem_cons_of_mem _ hs)).2) hrest
    have hcovers : ∀ a, segment'.Covers a ↔ first.sPaddr.toNat ≤ a ∧
        a < first.sPaddr.toNat + ((first :: l).map fun s => s.sSize.toNat).sum := by
      intro a
      unfold Segment.Covers
      rw [haddr, hadd, List.map_cons, List.sum_cons]
    constructor
    · intro hall x hx a
      cases hx
      rw [← hall a, hcovers a]
    · intro hall a
      rw [hcovers a, hall first rfl a]

/-- **The test is the wrong way round.**  Sections of which each begins where the one before it ends are
accepted only when there is at most one. -/
theorem mergeSections_contiguous (hsize : segment.size = 0) (hne : ∀ s ∈ l, s.sSize ≠ 0)
    (hl : Contiguous l) : (∃ segment', mergeSections segment l = .ok segment') ↔ l.length ≤ 1 := by
  rcases l with _ | ⟨first, _ | ⟨second, l⟩⟩
  · constructor
    · intro _
      exact Nat.zero_le 1
    · intro _
      exact ⟨segment, rfl⟩
  · constructor
    · intro _
      exact Nat.le_refl 1
    · intro _
      exact ⟨_, mergeSections_cons_eq_ok.mpr ⟨_, mergeSection_of_empty hsize, rfl⟩⟩
  · constructor
    · rintro ⟨segment', h⟩
      obtain ⟨segment₁, hfirst, hrest⟩ := mergeSections_cons_eq_ok.mp h
      rw [mergeSection_of_empty hsize] at hfirst
      cases hfirst
      obtain ⟨segment₂, hsecond, -⟩ := mergeSections_cons_eq_ok.mp hrest
      have hnext : second.sPaddr = first.sPaddr + first.sSize := by
        apply BitVec.eq_of_toNat_eq
        have hstep := (List.isChain_cons_cons.mp hl).1
        rw [BitVec.toNat_add, hstep, Nat.mod_eq_of_lt second.sPaddr.isLt]
      unfold mergeSection at hsecond
      rw [if_pos (hne first List.mem_cons_self), if_pos hnext] at hsecond
      split_ifs at hsecond
    · intro hlen
      simp at hlen

/-! ### Copying -/

/-- The section is in the file that is written, where the segment says. -/
structure Stored (coff noff : File) (segment : Segment) (s : Scnhdr) : Prop where
  virtualAddr : segment.virtualAddr = s.sPaddr
  size : segment.size = s.sSize
  behindHeader : noffHeaderSize ≤ segment.inFileAddr.toNat
  written : segment.inFileAddr.toNat + s.sSize.toNat ≤ noff.length
  bytes : 0 ≤ s.sScnptr.toInt → ∀ k < s.sSize.toNat,
    noff.bytes (segment.inFileAddr.toNat + k) = coff.bytes (s.sScnptr.toNat + k)

/-- The segment is empty when there is no section of its kind, and one of the sections otherwise. -/
def Describes (coff noff : File) (k : Kind) (l : List Scnhdr) (segment : Segment) : Prop :=
  (∀ s ∈ l, ¬ Is k s) ∧ segment.size = 0 ∨ ∃ s ∈ l, Is k s ∧ Stored coff noff segment s

/-- The position in the output. -/
structure Positioned (c : Conversion) : Prop where
  position : c.inNoffFile.toNat = c.fdOut
  header : noffHeaderSize ≤ c.fdOut
  small : c.fdOut < 2 ^ 31
  length : c.noff.length ≤ c.fdOut

/-- After the sections `l`. -/
structure Copied (coff : File) (l : List Scnhdr) (c : Conversion) : Prop where
  magic : c.noffH.noffMagic = noffMagicNumber
  positioned : Positioned c
  inFile : ∀ s ∈ l, Is .code s ∨ Is .initData s → 0 ≤ s.sScnptr.toInt →
    s.sScnptr.toNat + s.sSize.toNat ≤ coff.length
  code : Describes coff c.noff .code l c.noffH.code
  initData : Describes coff c.noff .initData l c.noffH.initData
  once : ∀ s ∈ l, ∀ s' ∈ l, Is .initData s → Is .initData s' → s = s'

/-- What copying a section does. -/
theorem copySection_ok (h : copySection coff c s = .ok c') : ∃ start,
    (0 ≤ s.sScnptr.toInt → start = s.sScnptr.toNat) ∧ 0 ≤ s.sSize.toInt ∧
    start + s.sSize.toNat ≤ coff.length ∧ c.fdOut + s.sSize.toNat < 2 ^ 31 ∧
    c' = { c with
      fdIn := start + s.sSize.toNat
      fdOut := c.fdOut + s.sSize.toNat
      noff := ⟨c.fdOut + s.sSize.toNat,
        (coff.bytes.offset start).copy c.noff.bytes c.fdOut s.sSize.toNat⟩
      inNoffFile := c.inNoffFile + s.sSize } := by
  unfold copySection at h
  dsimp only at h
  split_ifs at h with hpointer hshort hlong hshort hlong
  · cases h
    refine ⟨s.sScnptr.toNat, fun _ => rfl, ?_, ?_, ?_, rfl⟩ <;> omega
  · cases h
    refine ⟨c.fdIn, fun h => absurd h hpointer, ?_, ?_, ?_, rfl⟩ <;> omega

/-- What is in the file stays there. -/
theorem Stored.copySection {s' : Scnhdr} (h : Stored coff c.noff segment s) (hpos : Positioned c)
    (hcopy : copySection coff c s' = .ok c') : Stored coff c'.noff segment s := by
  obtain ⟨start, -, -, -, -, rfl⟩ := copySection_ok hcopy
  have hwritten := h.written
  have hlength := hpos.length
  refine ⟨h.virtualAddr, h.size, h.behindHeader, ?_, ?_⟩
  · show _ ≤ c.fdOut + s'.sSize.toNat
    omega
  · intro hpointer k hk
    rw [← h.bytes hpointer k hk]
    exact Bytes.copy_of_lt (by omega)

theorem Describes.copySection {s' : Scnhdr} (h : Describes coff c.noff k l segment)
    (hpos : Positioned c) (hcopy : copySection coff c s' = .ok c') :
    Describes coff c'.noff k l segment := by
  rcases h with hnone | ⟨s, hs, hk, hstored⟩
  · exact Or.inl hnone
  · exact Or.inr ⟨s, hs, hk, hstored.copySection hpos hcopy⟩

/-- The section that is copied is in the file. -/
theorem stored_of_copySection (hpos : Positioned c) (hcopy : copySection coff c s = .ok c') :
    Stored coff c'.noff ⟨s.sPaddr, c.inNoffFile, s.sSize⟩ s := by
  obtain ⟨start, hstart, -, -, -, rfl⟩ := copySection_ok hcopy
  obtain ⟨hposition, hheader, -, -⟩ := hpos
  refine ⟨rfl, rfl, ?_, ?_, ?_⟩
  · show _ ≤ c.inNoffFile.toNat
    omega
  · show c.inNoffFile.toNat + _ ≤ _
    rw [hposition]
  · intro hpointer k hk
    show Bytes.copy _ _ _ _ (c.inNoffFile.toNat + k) = _
    rw [hposition, Bytes.copy_of_mem (Nat.le_add_right _ _) (by omega), Nat.add_sub_cancel_left,
      Bytes.offset, hstart hpointer]

theorem forall_mem_concat {P : Scnhdr → Prop} (hl : ∀ s' ∈ l, P s') (hs : P s) :
    ∀ s' ∈ l ++ [s], P s' := by
  intro s' hs'
  rcases List.mem_append.mp hs' with h | h
  · exact hl s' h
  · rwa [List.mem_singleton.mp h]

theorem Describes.concat {noff : File} (hs : ¬ Is k s) (h : Describes coff noff k l segment) :
    Describes coff noff k (l ++ [s]) segment := by
  rcases h with ⟨hnone, hsize⟩ | ⟨s', hs', hk, hstored⟩
  · exact Or.inl ⟨forall_mem_concat hnone hs, hsize⟩
  · exact Or.inr ⟨s', List.mem_append_left _ hs', hk, hstored⟩

theorem Describes.new {noff : File} (hs : Is k s) (h : Stored coff noff segment s) :
    Describes coff noff k (l ++ [s]) segment :=
  Or.inr ⟨s, List.mem_append_right _ (List.mem_singleton.mpr rfl), hs, h⟩

theorem Positioned.copySection (h : Positioned c) (hcopy : copySection coff c s = .ok c') :
    Positioned c' := by
  obtain ⟨start, -, -, -, hfits, rfl⟩ := copySection_ok hcopy
  obtain ⟨hposition, hheader, hsmall, hlength⟩ := h
  refine ⟨?_, ?_, hfits, Nat.le_refl _⟩
  · show (c.inNoffFile + s.sSize).toNat = c.fdOut + s.sSize.toNat
    rw [BitVec.toNat_add, Nat.mod_eq_of_lt (by omega), hposition]
  · show _ ≤ c.fdOut + s.sSize.toNat
    omega

theorem noffH_of_copySection (hcopy : copySection coff c s = .ok c') : c'.noffH = c.noffH := by
  obtain ⟨start, -, -, -, -, rfl⟩ := copySection_ok hcopy
  rfl

/-- The section that is copied is inside the input, when the position is one. -/
theorem inFile_of_copySection (hcopy : copySection coff c s = .ok c') :
    0 ≤ s.sScnptr.toInt → s.sScnptr.toNat + s.sSize.toNat ≤ coff.length := by
  obtain ⟨start, hstart, -, hin, -, -⟩ := copySection_ok hcopy
  intro hpointer
  rwa [← hstart hpointer]

theorem Is.ne {k k' : Kind} (h : Is k s) (hk : k ≠ k') : ¬ Is k' s := by
  intro h'
  exact hk (Option.some.inj (h.2.symm.trans h'.2))

theorem not_is_of_empty (h : s.sSize = 0) : ¬ Is k s := fun hs => hs.1 h

theorem once_concat
    (h : ∀ s₁ ∈ l, ∀ s₂ ∈ l, Is .initData s₁ → Is .initData s₂ → s₁ = s₂)
    (hs : Is .initData s → ∀ s' ∈ l, ¬ Is .initData s') :
    ∀ s₁ ∈ l ++ [s], ∀ s₂ ∈ l ++ [s], Is .initData s₁ → Is .initData s₂ → s₁ = s₂ := by
  apply forall_mem_concat
  · intro s₁ hs₁
    apply forall_mem_concat (h s₁ hs₁)
    intro h₁ h₂
    exact absurd h₁ (hs h₂ s₁ hs₁)
  · apply forall_mem_concat
    · intro s₂ hs₂ h₁ h₂
      exact absurd h₂ (hs h₁ s₂ hs₂)
    · intro _ _
      rfl

/-- A section that is not copied. -/
theorem Copied.concat (h : Copied coff l c) (hcode : ¬ Is .code s) (hdata : ¬ Is .initData s) :
    Copied coff (l ++ [s]) c := by
  refine ⟨h.magic, h.positioned, ?_, h.code.concat hcode, h.initData.concat hdata,
    once_concat h.once fun hs => absurd hs hdata⟩
  apply forall_mem_concat h.inFile
  intro hk
  exact absurd hk (not_or.mpr ⟨hcode, hdata⟩)

/-- The branch of `.text`: a segment that was there before is forgotten. -/
theorem Copied.code_concat (h : Copied coff l c) (hs : Is .code s)
    (hcopy : copySection coff (c.withCode ⟨s.sPaddr, c.inNoffFile, s.sSize⟩) s = .ok c') :
    Copied coff (l ++ [s]) c' := by
  have hpos : Positioned (c.withCode ⟨s.sPaddr, c.inNoffFile, s.sSize⟩) :=
    ⟨h.positioned.position, h.positioned.header, h.positioned.small, h.positioned.length⟩
  have hheader := noffH_of_copySection hcopy
  refine ⟨?_, hpos.copySection hcopy, ?_, ?_, ?_, once_concat h.once fun hd => absurd hd (hs.ne (by decide))⟩
  · rw [hheader]
    exact h.magic
  · exact forall_mem_concat h.inFile fun _ => inFile_of_copySection hcopy
  · rw [hheader]
    have hnew := stored_of_copySection hpos hcopy
    exact Describes.new hs hnew
  · rw [hheader]
    have hdata : Describes coff (c.withCode ⟨s.sPaddr, c.inNoffFile, s.sSize⟩).noff .initData l
      c.noffH.initData := h.initData
    exact (hdata.copySection hpos hcopy).concat (hs.ne (by decide))

/-- The branch of `.data` and `.rdata`: there was no segment before. -/
theorem Copied.initData_concat (h : Copied coff l c) (hs : Is .initData s)
    (hfirst : c.noffH.initData.size = 0)
    (hcopy : copySection coff (c.withInitData ⟨s.sPaddr, c.inNoffFile, s.sSize⟩) s = .ok c') :
    Copied coff (l ++ [s]) c' := by
  have hpos : Positioned (c.withInitData ⟨s.sPaddr, c.inNoffFile, s.sSize⟩) :=
    ⟨h.positioned.position, h.positioned.header, h.positioned.small, h.positioned.length⟩
  have hheader := noffH_of_copySection hcopy
  have hnone : ∀ s' ∈ l, ¬ Is .initData s' := by
    rcases h.initData with hnone | ⟨s', -, hs', hstored⟩
    · exact hnone.1
    · exact absurd (hstored.size.symm.trans hfirst) hs'.1
  refine ⟨?_, hpos.copySection hcopy, ?_, ?_, ?_, once_concat h.once fun _ => hnone⟩
  · rw [hheader]
    exact h.magic
  · exact forall_mem_concat h.inFile fun _ => inFile_of_copySection hcopy
  · rw [hheader]
    have hcode : Describes coff (c.withInitData ⟨s.sPaddr, c.inNoffFile, s.sSize⟩).noff .code l
      c.noffH.code := h.code
    exact (hcode.copySection hpos hcopy).concat (hs.ne (by decide))
  · rw [hheader]
    have hnew := stored_of_copySection hpos hcopy
    exact Describes.new hs hnew

theorem Copied.convertSection (h : Copied coff l c) (hs : ¬ Is .uninitData s)
    (hok : convertSection coff c s = .ok c') : Copied coff (l ++ [s]) c' := by
  rcases section_cases s with hsize | hcode | hdata | huninit | ⟨hsize, hkind⟩
  · rw [convertSection_of_empty hsize] at hok
    cases hok
    exact h.concat (not_is_of_empty hsize) (not_is_of_empty hsize)
  · rw [convertSection_code hcode] at hok
    exact h.code_concat hcode hok
  · rw [convertSection_initData hdata] at hok
    split_ifs at hok with htwice
    exact h.initData_concat hdata (not_not.mp htwice) hok
  · exact absurd huninit hs
  · rw [convertSection_unknown hsize hkind] at hok
    cases hok

/-- **The loop over the sections that are copied.** -/
theorem Copied.convertSections {done : List Scnhdr} (h : Copied coff done c)
    (hl : ∀ s ∈ l, ¬ Is .uninitData s) (hok : convertSections coff c l = .ok c') :
    Copied coff (done ++ l) c' := by
  induction l generalizing done c with
  | nil =>
    cases hok
    rwa [List.append_nil]
  | cons s l ih =>
    obtain ⟨c₁, hs, hrest⟩ := convertSections_cons_eq_ok.mp hok
    rw [List.append_cons]
    exact ih (h.convertSection (hl s List.mem_cons_self) hs)
      (fun s hs => hl s (List.mem_cons_of_mem _ hs)) hrest

theorem copied_start (garbage : NoffHeader) : Copied coff [] (start coff garbage) := by
  refine ⟨rfl, ⟨rfl, Nat.le_refl _, ?_, Nat.zero_le _⟩, ?_, ?_, ?_, ?_⟩
  · show noffHeaderSize < 2 ^ 31
    decide
  · simp
  · exact Or.inl ⟨by simp, rfl⟩
  · exact Or.inl ⟨by simp, rfl⟩
  · simp

end Nachos.Coff2noff
