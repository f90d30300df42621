import Mathlib.Data.List.GetD
import Nachos.Filesys.ArrayFile
import Nachos.Filesys.Equiv.OpenFile

/-!
## An open file refines an array with a cursor

For a file of at most 25 sectors, all direct, every call within the file is answered as the array
answers it (`Represents.call`), and so is every sequence of calls.
-/

namespace Nachos

open Storage Memory

variable {ab : Prop} {d : Disk} {len count : ℕ} {sec : ℕ → ℕ} {f : OpenFile} {a : ArrayFile len}

/-- The open file `f` on the disk `d`, with its `count` blocks in the sectors `sec`, stands for
`a`. -/
structure Represents (sec : ℕ → ℕ) (count : ℕ) (f : OpenFile) (d : Disk) (a : ArrayFile len) :
    Prop where
  direct : count ≤ 25
  numBytes : f.hdr.numBytes.toInt = len
  fits : len ≤ count * SectorSize
  maps : ∀ i < count, (f.hdr.dataSectors (Fin.ofNat NumDirect i)).toInt = sec i
  range : ∀ i < count, sec i < NumSectors
  distinct : ∀ i i', i < count → i' < count → sec i = sec i' → i = i'
  bytes : ∀ k (hk : k < len), flat d sec k = a.bytes ⟨k, hk⟩
  cursor : f.seekPosition = a.cursor

namespace Represents

theorem lt_of_mul_lt (h : Represents sec count f d a) {i : ℕ} (hi : i * SectorSize < len) :
    i < count := by
  have := h.fits
  simp only [SectorSize] at *
  omega

theorem toMaps (h : Represents sec count f d a) {i : ℕ} (hi : i < count) :
    f.hdr.Maps d i (sec i) :=
  ⟨h.range i hi, Or.inl ⟨by have := h.direct; omega, h.maps i hi⟩⟩

/-- A handle with other times or another cursor. -/
theorem move (h : Represents sec count f d a) {visit modify : CInt} {p : ℕ} :
    Represents sec count { f.touch visit modify with seekPosition := p } d
      { a with cursor := p } :=
  ⟨h.direct, h.numBytes, h.fits, h.maps, h.range, h.distinct, h.bytes, rfl⟩

/-- A read delivers what the array delivers. -/
theorem readAt (h : Represents sec count f d a) {into : Buf} {n : ℤ} {pos : ℕ}
    (hlt : pos + n < 2 ^ 31) {Q : ℤ × Buf × OpenFile → Disk → Prop}
    (hQ : ∀ visit, Q ((ArrayFile.avail len n pos : ℕ), a.load into n pos,
      f.touch visit f.hdr.lastModifyTime) d) :
    (f.readAt into n pos).wp ab Q d := by
  refine OpenFile.wp_readAt sec h.numBytes hlt ?_ fun visit => ?_
  · intro _ i _ hi
    exact h.toMaps (h.lt_of_mul_lt (by omega))
  · have hload : (fun k => if k < min n.toNat (len - pos) then flat d sec (pos + k) else into k)
        = a.load into n pos := by
      funext k
      unfold ArrayFile.load ArrayFile.avail
      split_ifs with hk
      · exact h.bytes (pos + k) (by omega)
      · rfl
    rw [hload]
    exact hQ visit

/-- A write within the file does what it does to the array, and touches no other sector. -/
theorem writeAt (h : Represents sec count f d a) {data : Buf} {n : ℤ} {pos : ℕ}
    (hle : pos + n ≤ len) {Q : ℤ × OpenFile → Disk → Prop}
    (hQ : ∀ visit modify d',
      Represents sec count (f.touch visit modify) d' { a with bytes := a.store data n pos } →
      (∀ s, (∀ i < count, sec i ≠ s) → d' s = d s) →
      Q (n.toNat, f.touch visit modify) d') :
    (f.writeAt data n pos).wp ab Q d := by
  by_cases hn : n ≤ 0
  · refine OpenFile.wp_writeAtDepth_nonpos hn ?_
    have hzero : n.toNat = 0 := by omega
    have hstore : a.store data n pos = a.bytes := by
      funext k
      exact if_neg (by omega)
    have h0 := hQ f.hdr.lastVistTime f.hdr.lastModifyTime d
      (by rw [hstore]; exact h) (fun _ _ => rfl)
    rw [hzero] at h0
    exact h0
  · obtain ⟨m, rfl⟩ : ∃ m : ℕ, n = m := ⟨n.toNat, by omega⟩
    have hin : ∀ i, i * SectorSize < pos + m → i < count := fun i hi =>
      h.lt_of_mul_lt (by omega)
    rw [OpenFile.writeAt, OpenFile.writeAtDepth_eq_store (by omega) h.numBytes (by omega)]
    refine OpenFile.wp_store sec (by omega) h.numBytes
      (fun i _ hi => h.toMaps (hin i hi)) ?_ fun visit modify blk hblk => ?_
    · intro i i' _ _ h3 h4
      have := hin i' h4
      have := h.direct
      omega
    have hcount : (pos + m - 1) / SectorSize < count := by
      refine hin _ ?_
      simp only [SectorSize]
      omega
    refine hQ visit modify _ ⟨h.direct, h.numBytes, h.fits, h.maps, h.range, h.distinct, ?_,
      h.cursor⟩ ?_
    · intro k hk
      have hkc : k / SectorSize < count := by
        refine h.lt_of_mul_lt ?_
        simp only [SectorSize]
        omega
      rw [hblk.flat_eq (by omega) h.distinct hcount hkc (fun _ _ => Or.inl hk), h.bytes k hk]
      simp [ArrayFile.store]
    · intro s hs
      refine writeBlocks_of_notMem fun i h1 h2 => hs i ?_
      refine hin i ?_
      simp only [OpenFile.blockCount, SectorSize] at *
      omega

/-- What a call, or a sequence of calls, that has been answered has done. -/
structure Done (sec : ℕ → ℕ) (count : ℕ) (f : OpenFile) (d : Disk) (a : ArrayFile len)
    (f' : OpenFile) (d' : Disk) : Prop where
  represents : Represents sec count f' d' a
  sameHeader : ∃ visit modify, f'.hdr = (f.touch visit modify).hdr
  frame : ∀ s, (∀ i < count, sec i ≠ s) → d' s = d s

theorem Done.trans {f₁ f₂ : OpenFile} {d₁ d₂ : Disk} {a₁ a₂ : ArrayFile len}
    (h₁ : Done sec count f d a₁ f₁ d₁) (h₂ : Done sec count f₁ d₁ a₂ f₂ d₂) :
    Done sec count f d a₂ f₂ d₂ := by
  refine ⟨h₂.represents, ?_, fun s hs => (h₂.frame s hs).trans (h₁.frame s hs)⟩
  obtain ⟨v₁, m₁, e₁⟩ := h₁.sameHeader
  obtain ⟨v₂, m₂, e₂⟩ := h₂.sameHeader
  refine ⟨v₂, m₂, e₂.trans ?_⟩
  simp only [OpenFile.touch, e₁]

/-- One call. -/
theorem call (h : Represents sec count f d a) {c : FileCall} (hc : a.Allowed c) :
    (f.call c).wp ab (fun r d' => r.1 = (a.call c).1 ∧
      Done sec count f d (a.call c).2 r.2 d') d := by
  cases c with
  | seek position =>
    rw [OpenFile.call, Prog.wp_pure]
    refine ⟨rfl, ⟨?_, ⟨f.hdr.lastVistTime, f.hdr.lastModifyTime, rfl⟩, fun _ _ => rfl⟩⟩
    obtain ⟨p, rfl⟩ := Int.eq_ofNat_of_zero_le hc
    exact h.move
  | read into n =>
    simp only [OpenFile.call, OpenFile.read, Prog.wp_do, wp_sync', Prog.wp_pure]
    rw [h.cursor]
    refine h.readAt hc fun visit => ⟨rfl, ⟨?_, ⟨visit, f.hdr.lastModifyTime, rfl⟩, fun _ _ => rfl⟩⟩
    have hcur : (f.touch visit f.hdr.lastModifyTime).seekPosition = a.cursor := h.cursor
    rw [hcur]
    exact h.move
  | write data n =>
    simp only [OpenFile.call, OpenFile.write, Prog.wp_do, wp_sync', Prog.wp_pure]
    rw [h.cursor]
    refine h.writeAt hc fun visit modify d' hrep hframe =>
      ⟨rfl, ⟨?_, ⟨visit, modify, rfl⟩, hframe⟩⟩
    have hcur : (f.touch visit modify).seekPosition = a.cursor := h.cursor
    rw [hcur]
    exact hrep.move
  | readAt into n position =>
    simp only [OpenFile.call, Prog.wp_do, Prog.wp_pure]
    obtain ⟨p, rfl⟩ := Int.eq_ofNat_of_zero_le hc.1
    refine h.readAt hc.2 fun visit => ⟨rfl, ⟨?_, ⟨visit, f.hdr.lastModifyTime, rfl⟩, fun _ _ => rfl⟩⟩
    exact ⟨h.direct, h.numBytes, h.fits, h.maps, h.range, h.distinct, h.bytes, h.cursor⟩
  | writeAt data n position =>
    simp only [OpenFile.call, Prog.wp_do, Prog.wp_pure]
    obtain ⟨p, rfl⟩ := Int.eq_ofNat_of_zero_le hc.1
    exact h.writeAt hc.2 fun visit modify d' hrep hframe =>
      ⟨rfl, ⟨hrep, ⟨visit, modify, rfl⟩, hframe⟩⟩

/-- A sequence of calls, by induction on the sequence. -/
theorem calls (h : Represents sec count f d a) {cs : List FileCall} (hcs : a.AllowedAll cs) :
    (f.calls cs).wp ab (fun r d' => r.1 = (a.calls cs).1 ∧
      Done sec count f d (a.calls cs).2 r.2 d') d := by
  induction cs generalizing f d a with
  | nil =>
    rw [OpenFile.calls, Prog.wp_pure]
    exact ⟨rfl, ⟨h, ⟨f.hdr.lastVistTime, f.hdr.lastModifyTime, rfl⟩, fun _ _ => rfl⟩⟩
  | cons c cs ih =>
    simp only [OpenFile.calls, Prog.wp_do, Prog.wp_pure]
    refine Prog.wp_mono (h.call hcs.1) ?_
    rintro ⟨ans, f₁⟩ d₁ ⟨rfl, h₁⟩
    refine Prog.wp_mono (ih h₁.represents hcs.2) ?_
    rintro ⟨anss, f₂⟩ d₂ ⟨rfl, h₂⟩
    exact ⟨rfl, h₁.trans h₂⟩

end Represents

/-! ### Copying in chunks -/

namespace ArrayFile

/-- The bytes an answer delivers. -/
def delivered : FileAnswer → List Byte
  | .count n into => (List.range n.toNat).map into
  | _ => []

/-- The memory a list is stored in. -/
def bufOf (l : List Byte) : Buf := fun k => l.getD k 0

/-- Write the chunks one after the other from the start, and read back in pieces of the given
sizes. -/
def copyCalls (chunks : List (List Byte)) (into : Buf) (sizes : List ℕ) : List FileCall :=
  .seek 0 :: (chunks.map fun c => .write (bufOf c) c.length) ++
    .seek 0 :: sizes.map fun n : ℕ => .read into n

/-- The array as a list. -/
def toList (a : ArrayFile len) : List Byte := List.ofFn a.bytes

theorem length_toList (a : ArrayFile len) : a.toList.length = len := List.length_ofFn

theorem delivered_load (a : ArrayFile len) (into : Buf) (n : ℤ) (pos : ℕ) :
    delivered (.count (avail len n pos) (a.load into n pos))
      = (a.toList.drop pos).take n.toNat := by
  apply List.ext_getElem
  · simp only [delivered, avail, toList, List.length_map, List.length_range, Int.toNat_natCast,
      List.length_take, List.length_drop, List.length_ofFn]
  · intro k h1 h2
    simp only [delivered, List.length_map, List.length_range, Int.toNat_natCast] at h1
    simp [delivered, load, h1, toList]

theorem calls_append (a : ArrayFile len) (cs cs' : List FileCall) :
    a.calls (cs ++ cs') = ((a.calls cs).1 ++ ((a.calls cs).2.calls cs').1,
      ((a.calls cs).2.calls cs').2) := by
  induction cs generalizing a with
  | nil => rfl
  | cons c cs ih => simp [calls, ih]

theorem allowedAll_append {a : ArrayFile len} {cs cs' : List FileCall} :
    a.AllowedAll (cs ++ cs') ↔ a.AllowedAll cs ∧ (a.calls cs).2.AllowedAll cs' := by
  induction cs generalizing a with
  | nil => simp [AllowedAll, calls]
  | cons c cs ih => simp [AllowedAll, calls, ih, and_assoc]

/-- Writing the chunks puts them behind what was written before. -/
theorem toList_writes (a : ArrayFile len) (chunks : List (List Byte))
    (hfit : a.cursor + chunks.flatten.length ≤ len) :
    let a' := (a.calls (chunks.map fun c => .write (bufOf c) c.length)).2
    a'.toList.take (a.cursor + chunks.flatten.length) = a.toList.take a.cursor ++ chunks.flatten ∧
      a.AllowedAll (chunks.map fun c => .write (bufOf c) c.length) ∧
      (a.calls (chunks.map fun c => .write (bufOf c) c.length)).1.flatMap delivered = [] := by
  induction chunks generalizing a with
  | nil => simp [calls, AllowedAll]
  | cons c chunks ih =>
    simp only [List.flatten_cons, List.length_append] at hfit
    set a₁ := (a.call (.write (bufOf c) c.length)).2 with ha₁
    have hcur : a₁.cursor = a.cursor + c.length := rfl
    have htake : a₁.toList.take (a.cursor + c.length) = a.toList.take a.cursor ++ c := by
      apply List.ext_getElem
      · simp [toList]
        omega
      · intro k h1 h2
        simp only [ha₁, call, toList, store, Int.toNat_natCast, List.getElem_take,
          List.getElem_ofFn, List.getElem_append, List.length_take, List.length_ofFn]
        simp only [List.length_take, length_toList] at h1
        have hmin : min a.cursor len = a.cursor := by omega
        simp only [hmin]
        by_cases hk : k < a.cursor
        · rw [dif_pos hk, if_neg (by omega)]
        · rw [dif_neg hk, if_pos (by omega), bufOf, List.getD_eq_getElem _ _ (by omega)]
    obtain ⟨h1, h2, h3⟩ := ih a₁ (by rw [hcur]; omega)
    refine ⟨?_, ⟨?_, h2⟩, ?_⟩
    · show (a₁.calls _).2.toList.take _ = _
      rw [List.flatten_cons, List.length_append, ← Nat.add_assoc, ← hcur, h1, hcur, htake,
        List.append_assoc]
    · show (a.cursor : ℤ) + (c.length : ℕ) ≤ len
      omega
    · show delivered _ ++ (a₁.calls _).1.flatMap delivered = []
      rw [h3]
      rfl

/-- Reading in pieces delivers the bytes from the cursor on. -/
theorem delivered_reads (a : ArrayFile len) (into : Buf) {sizes : List ℕ} (hc : a.cursor ≤ len)
    (hsizes : ∀ n ∈ sizes, len + n < 2 ^ 31) :
    (a.calls (sizes.map fun n : ℕ => .read into n)).1.flatMap delivered
        = (a.toList.drop a.cursor).take sizes.sum ∧
      a.AllowedAll (sizes.map fun n : ℕ => .read into n) := by
  induction sizes generalizing a with
  | nil => simp [calls, AllowedAll]
  | cons n sizes ih =>
    set a₁ := (a.call (.read into n)).2 with ha₁
    have hcur : a₁.cursor = a.cursor + min n (len - a.cursor) := rfl
    obtain ⟨h1, h2⟩ := ih a₁ (by rw [hcur]; omega)
      (fun m hm => hsizes m (List.mem_cons_of_mem n hm))
    have hn := hsizes n List.mem_cons_self
    refine ⟨?_, ⟨?_, h2⟩⟩
    · show delivered (.count _ (a.load into n a.cursor)) ++ (a₁.calls _).1.flatMap delivered = _
      rw [delivered_load, h1, hcur, List.sum_cons, Int.toNat_natCast]
      show _ ++ (a.toList.drop _).take _ = _
      rw [List.take_add, List.drop_drop]
      congr 1
      by_cases hle : n ≤ len - a.cursor
      · rw [Nat.min_eq_left hle]
      · rw [Nat.min_eq_right (by omega), List.drop_eq_nil_of_le (by rw [length_toList]; omega),
          List.drop_eq_nil_of_le (by rw [length_toList]; omega)]
    · show (a.cursor : ℤ) + (n : ℕ) < 2 ^ 31
      omega

/-- What is written in chunks and read back in other chunks is what was written. -/
theorem delivered_copyCalls (a : ArrayFile len) {chunks : List (List Byte)} (into : Buf)
    {sizes : List ℕ} (hfit : chunks.flatten.length ≤ len)
    (htotal : chunks.flatten.length ≤ sizes.sum) (hsizes : ∀ n ∈ sizes, len + n < 2 ^ 31) :
    a.AllowedAll (copyCalls chunks into sizes) ∧
      ((a.calls (copyCalls chunks into sizes)).1.flatMap delivered).take chunks.flatten.length
        = chunks.flatten := by
  obtain ⟨htake, hwrites, hnothing⟩ :=
    toList_writes ({ a with cursor := 0 } : ArrayFile len) chunks (by simpa using hfit)
  set a₁ := (({ a with cursor := 0 } : ArrayFile len).calls
    (chunks.map fun c => .write (bufOf c) c.length)).2
  obtain ⟨hdel, hreads⟩ := delivered_reads ({ a₁ with cursor := 0 } : ArrayFile len) into
    (Nat.zero_le len) hsizes
  constructor
  · exact ⟨le_rfl, allowedAll_append.mpr ⟨hwrites, le_rfl, hreads⟩⟩
  · have hsplit : (a.calls (copyCalls chunks into sizes)).1.flatMap delivered
        = (({ a₁ with cursor := 0 } : ArrayFile len).calls
          (sizes.map fun n : ℕ => .read into n)).1.flatMap delivered := by
      show delivered .done ++ ((({ a with cursor := 0 } : ArrayFile len).calls
        (_ ++ .seek 0 :: _)).1).flatMap delivered = _
      rw [calls_append, List.flatMap_append, hnothing]
      rfl
    rw [hsplit, hdel, List.drop_zero, List.take_take, Nat.min_eq_left htotal]
    have h0 := htake
    simp only [Nat.zero_add, List.take_zero, List.nil_append] at h0
    exact h0

end ArrayFile

/-! ### The refinement -/

namespace OpenFile

/-- The sector of block `i`, for a direct block. -/
def sectorOf (f : OpenFile) (i : ℕ) : ℕ := (f.hdr.dataSectors (Fin.ofNat NumDirect i)).toInt.toNat

/-- The bytes of the file, with a cursor. -/
def asArray (f : OpenFile) (d : Disk) (len cursor : ℕ) : ArrayFile len :=
  ⟨fun k => flat d f.sectorOf k, cursor⟩

/-- An open file of `len` bytes in `count` direct blocks, in distinct sectors of the disk. -/
structure Direct (f : OpenFile) (count len cursor : ℕ) : Prop where
  numSectors : f.hdr.numSectors.toInt = count
  direct : count ≤ NumDirect - 1
  range : ∀ i < count, Disk.InRange (f.hdr.dataSectors (Fin.ofNat NumDirect i)).toInt
  distinct : ∀ i i', i < count → i' < count → f.hdr.dataSectors (Fin.ofNat NumDirect i) =
    f.hdr.dataSectors (Fin.ofNat NumDirect i') → i = i'
  numBytes : f.hdr.numBytes.toInt = len
  fits : len ≤ count * SectorSize
  cursor : f.seekPosition = cursor

theorem Direct.represents {f : OpenFile} {count len cursor : ℕ} (h : f.Direct count len cursor)
    (d : Disk) : Represents f.sectorOf count f d (f.asArray d len cursor) where
  direct := h.direct
  numBytes := h.numBytes
  fits := h.fits
  maps i hi := (Int.toNat_of_nonneg (h.range i hi).1).symm
  range i hi := by
    have hr := h.range i hi
    unfold sectorOf
    omega
  distinct i i' hi hi' heq := by
    refine h.distinct i i' hi hi' (BitVec.eq_of_toInt_eq ?_)
    have h1 := (h.range i hi).1
    have h2 := (h.range i' hi').1
    unfold sectorOf at heq
    omega
  bytes _ _ := rfl
  cursor := h.cursor

/-- **An open file refines an array with a cursor.**  In every environment, any sequence of calls
within the file returns, with the answers of the array; the file then stands for the array after
those calls, has its old length, and no sector outside its data sectors has changed.  In
particular a byte string written in chunks and read back in other chunks is reproduced. -/
theorem openFile_refines_array {f : OpenFile} {d : Disk} {count len cursor : ℕ}
    (hf : f.Direct count len cursor) :
    (∀ cs, (f.asArray d len cursor).AllowedAll cs → ∀ env, ∃ f' d' env',
      (f.calls cs).run d env = some ((((f.asArray d len cursor).calls cs).1, f'), d', env') ∧
      f'.asArray d' len ((f.asArray d len cursor).calls cs).2.cursor
        = ((f.asArray d len cursor).calls cs).2 ∧
      f'.seekPosition = ((f.asArray d len cursor).calls cs).2.cursor ∧
      f'.length = f.length ∧ ∀ s, (∀ i < count, f.sectorOf i ≠ s) → d' s = d s) ∧
    (∀ chunks into sizes, chunks.flatten.length ≤ len → chunks.flatten.length ≤ sizes.sum →
      (∀ n ∈ sizes, len + n < 2 ^ 31) → ∀ env, ∃ answers f' d' env',
      (f.calls (ArrayFile.copyCalls chunks into sizes)).run d env
        = some ((answers, f'), d', env') ∧
      (answers.flatMap ArrayFile.delivered).take chunks.flatten.length = chunks.flatten) := by
  have hrun : ∀ cs, (f.asArray d len cursor).AllowedAll cs → ∀ env, ∃ f' d' env',
      (f.calls cs).run d env = some ((((f.asArray d len cursor).calls cs).1, f'), d', env') ∧
      Represents.Done f.sectorOf count f d ((f.asArray d len cursor).calls cs).2 f' d' := by
    intro cs hcs env
    have hwp : (f.calls cs).wp False _ d := (hf.represents d).calls hcs
    have hr := Prog.wp_iff_run.mp hwp env
    cases hrun : (f.calls cs).run d env with
    | none =>
      rw [hrun] at hr
      exact hr.elim
    | some r =>
      obtain ⟨⟨answers, f'⟩, d', env'⟩ := r
      rw [hrun] at hr
      obtain ⟨rfl, hdone⟩ := hr
      exact ⟨f', d', env', rfl, hdone⟩
  constructor
  · intro cs hcs env
    obtain ⟨f', d', env', h1, hdone⟩ := hrun cs hcs env
    obtain ⟨visit, modify, hhdr⟩ := hdone.sameHeader
    refine ⟨f', d', env', h1, ?_, hdone.represents.cursor, ?_, hdone.frame⟩
    · have hsec : f'.sectorOf = f.sectorOf := by
        funext i
        rw [sectorOf, hhdr]
        rfl
      have hbytes : (fun k : Fin len => flat d' f'.sectorOf k)
          = ((f.asArray d len cursor).calls cs).2.bytes := by
        funext k
        rw [hsec]
        exact hdone.represents.bytes k k.isLt
      rw [asArray, hbytes]
    · rw [length, length, hhdr]
      rfl
  · intro chunks into sizes hfit htotal hsizes env
    obtain ⟨hall, hcopy⟩ :=
      (f.asArray d len cursor).delivered_copyCalls into hfit htotal hsizes
    obtain ⟨f', d', env', h1, -⟩ := hrun _ hall env
    exact ⟨_, f', d', env', h1, hcopy⟩

/-- A file of ten bytes in sector `5`. -/
def tenBytes : OpenFile := ⟨4, ⟨0, 0, 0, 4, 10, 1, fun _ => 5⟩, 0⟩

/-- Three bytes written in two chunks, and read back one and then up to five at a time. -/
theorem openFile_refines_array_tenBytes :
    ∃ answers f' d' env', (tenBytes.calls (ArrayFile.copyCalls [[1, 2], [3]] (fun _ => 0) [1, 5])).run
      (fun _ _ => 0) (fun _ _ => 0) = some ((answers, f'), d', env') ∧
      (answers.flatMap ArrayFile.delivered).take 3 = [1, 2, 3] := by
  have hdirect : tenBytes.Direct 1 10 0 := by
    refine ⟨rfl, by decide, fun _ _ => show Disk.InRange 5 by decide, fun i i' hi hi' _ => by omega, rfl,
      by decide, rfl⟩
  exact (openFile_refines_array hdirect).2 [[1, 2], [3]] (fun _ => 0) [1, 5] (by decide)
    (by decide) (by decide) fun _ _ => 0

end OpenFile

end Nachos
