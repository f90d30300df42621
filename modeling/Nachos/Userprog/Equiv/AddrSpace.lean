import Nachos.Userprog.Equiv.FlatMemory
import Nachos.Userprog.Image

/-!
# What a program finds in its pages

`image` is what the header of an executable says: the bytes of the two segments at their virtual
addresses, and zeros.  The constructor copies a segment to `virtualAddr*PageSize` in the file, while a
page fault reads page `vpn` at `vpn*PageSize`.  So only a segment at address 0 is where it should be.
-/

namespace Nachos

open Memory

/-! ### Files -/

namespace File

variable {f g : File} {data data' : Buf} {n : ℕ} {pos : ℤ} {a : ℕ}

theorem writeAt_congr (h : ∀ k < n, data k = data' k) : f.writeAt data n pos = f.writeAt data' n pos := by
  unfold writeAt
  split_ifs
  · rfl
  · rfl
  · congr 2
    funext x
    unfold Bytes.copy
    split_ifs with hx
    · exact h _ (by omega)
    · rfl

theorem exists_writeAt (f : File) (data : Buf) (n : ℕ) (hpos : 0 ≤ pos) :
    ∃ g, f.writeAt data n pos = some g := by
  unfold writeAt
  rw [if_neg (not_lt.2 hpos)]
  split_ifs <;> exact ⟨_, rfl⟩

theorem nonneg_of_writeAt (h : f.writeAt data n pos = some g) : 0 ≤ pos := by
  unfold writeAt at h
  split_ifs at h with hneg
  · exact not_lt.1 hneg
  · exact not_lt.1 hneg

/-- What a write does to the byte at `a`. -/
theorem byteAt_writeAt (h : f.writeAt data n pos = some g) :
    g.byteAt a = if pos ≤ a ∧ a < pos + n then data (a - pos.toNat) else f.byteAt a := by
  unfold writeAt at h
  split_ifs at h with hneg hnone
  · cases h
    rw [if_neg (by omega)]
  cases h
  unfold byteAt Bytes.copy
  dsimp only
  split_ifs <;> first | rfl | omega

end File

/-! ### Executables -/

namespace NoffHeader

/-- The ten words of a header. -/
def words (h : NoffHeader) : List CInt :=
  [h.noffMagic, h.code.virtualAddr, h.code.inFileAddr, h.code.size, h.initData.virtualAddr,
    h.initData.inFileAddr, h.initData.size, h.uninitData.virtualAddr, h.uninitData.inFileAddr,
    h.uninitData.size]

theorem ofBytes_congr {b b' : Buf} (h : ∀ k < noffHeaderSize, b k = b' k) :
    ofBytes b = ofBytes b' := by
  have hword : ∀ i < 10, (Layout.decodeArray b i : CInt) = Layout.decodeArray b' i := by
    intro i hi
    apply Layout.decodeArray_congr
    intro j hj
    have hj' : j < 4 := hj
    exact h _ (by show 4 * i + j < 40; omega)
  unfold ofBytes
  dsimp only
  rw [hword 0 (by decide), hword 1 (by decide), hword 2 (by decide), hword 3 (by decide),
    hword 4 (by decide), hword 5 (by decide), hword 6 (by decide), hword 7 (by decide),
    hword 8 (by decide), hword 9 (by decide)]

/-- Reading a header back. -/
theorem ofBytes_encodeArray (h : NoffHeader) :
    ofBytes (Layout.encodeArray fun i => h.words.getD i 0) = h := by
  unfold ofBytes
  dsimp only
  simp only [Layout.decodeArray_encodeArray]
  rfl

end NoffHeader

namespace NoffHeader.SameLayout

variable {h h' : NoffHeader} (hlayout : h.SameLayout h')

include hlayout

theorem code_covers (a : ℕ) : h.code.Covers a ↔ h'.code.Covers a := by
  unfold Segment.Covers
  rw [hlayout.codeAddr, hlayout.codeSize]

theorem data_covers (a : ℕ) : h.initData.Covers a ↔ h'.initData.Covers a := by
  unfold Segment.Covers
  rw [hlayout.dataAddr, hlayout.dataSize]

theorem numPagesFor : AddrSpace.numPagesFor h = AddrSpace.numPagesFor h' := by
  unfold AddrSpace.numPagesFor
  rw [hlayout.codeSize, hlayout.dataSize, hlayout.uninitSize]

theorem total : h.total = h'.total := by
  unfold NoffHeader.total
  rw [hlayout.codeSize, hlayout.dataSize, hlayout.uninitSize]

theorem valid (hvalid : h'.Valid) : h.Valid := by
  refine ⟨?_, ?_, ?_⟩
  · rw [hlayout.total]
    exact hvalid.small
  · intro a ha
    rw [hlayout.code_covers, hlayout.data_covers] at ha
    rw [hlayout.total]
    exact hvalid.inside a ha
  · intro a ha
    rw [hlayout.code_covers, hlayout.data_covers] at ha
    exact hvalid.disjoint a ha

end NoffHeader.SameLayout

/-! ### Sizes -/

variable {segment : Segment}

namespace NoffHeader.Valid

variable {h : NoffHeader} (hvalid : h.Valid)

include hvalid

theorem toNat_numPagesFor :
    (AddrSpace.numPagesFor h).toNat = (h.total + PageSize - 1) / PageSize := by
  have hsmall : h.total + 128 ≤ 2 ^ 31 := hvalid.small
  unfold NoffHeader.total at hsmall
  have hsum : (h.code.size + h.initData.size + h.uninitData.size +
      BitVec.ofNat 32 UserStackSize).toNat = h.total := by
    unfold NoffHeader.total
    simp only [BitVec.toNat_add, BitVec.toNat_ofNat]
    omega
  have hpage : (BitVec.ofNat 32 PageSize).toNat = 128 := rfl
  have htotal : h.total + 128 ≤ 2 ^ 31 := hvalid.small
  unfold AddrSpace.numPagesFor
  dsimp only
  rw [BitVec.toNat_add, BitVec.toNat_udiv, hsum, hpage]
  show _ = (h.total + 127) / 128
  split_ifs with hrest
  · rw [gt_iff_lt, BitVec.lt_def, BitVec.toNat_umod, hsum, hpage] at hrest
    change 0 < h.total % 128 at hrest
    show (h.total / 128 + 1) % 2 ^ 32 = _
    omega
  · rw [gt_iff_lt, BitVec.lt_def, BitVec.toNat_umod, hsum, hpage] at hrest
    change ¬ 0 < h.total % 128 at hrest
    show (h.total / 128 + 0) % 2 ^ 32 = _
    omega

theorem toNat_size : (AddrSpace.numPagesFor h * BitVec.ofNat 32 PageSize).toNat =
    (AddrSpace.numPagesFor h).toNat * PageSize := by
  have htotal : h.total + 128 ≤ 2 ^ 31 := hvalid.small
  rw [BitVec.toNat_mul, hvalid.toNat_numPagesFor]
  show (h.total + 127) / 128 * 128 % 2 ^ 32 = (h.total + 127) / 128 * 128
  omega

/-- The address space has room for what the header says, and its size is an `int`. -/
theorem total_le : h.total ≤ (AddrSpace.numPagesFor h).toNat * PageSize ∧
    (AddrSpace.numPagesFor h).toNat * PageSize < 2 ^ 31 := by
  have htotal : h.total + 128 ≤ 2 ^ 31 := hvalid.small
  rw [hvalid.toNat_numPagesFor]
  show h.total ≤ (h.total + 127) / 128 * 128 ∧ (h.total + 127) / 128 * 128 < 2 ^ 31
  omega

theorem segment_le (hmem : segment ∈ [h.code, h.initData]) (hn : 0 < segment.size.toNat) :
    segment.virtualAddr.toNat + segment.size.toNat ≤ h.total := by
  have hlast := hvalid.inside (segment.virtualAddr.toNat + segment.size.toNat - 1)
  have hcovers : segment.Covers (segment.virtualAddr.toNat + segment.size.toNat - 1) := by
    unfold Segment.Covers
    omega
  simp only [List.mem_cons, List.not_mem_nil, or_false] at hmem
  rcases hmem with rfl | rfl
  · have := hlast (Or.inl hcovers)
    omega
  · have := hlast (Or.inr hcovers)
    omega

end NoffHeader.Valid

/-! ### The constructor -/

namespace AddrSpace

variable {garbage : Buf} {s : FileStore} {executable : File} {vm : File}

/-- A segment in the file, where the constructor puts it. -/
def store (segment : Segment) (contents : Buf) (vm : File) : Option File :=
  if segment.size.toNat = 0 then some vm
  else vm.writeAt contents segment.size.toNat (segment.virtualAddr * BitVec.ofNat 32 PageSize).toInt

theorem toInt_eq_toNat {x : CInt} (h : x.toNat < 2 ^ 31) : x.toInt = x.toNat :=
  BitVec.toInt_eq_toNat_of_lt (by omega)

theorem copySegment_eq {size : ℕ} {temp : Buf} (hsize : size < 2 ^ 31)
    (hle : 0 < segment.size.toNat → segment.virtualAddr.toNat + segment.size.toNat ≤ size)
    (hinFile : 0 < segment.size.toNat → 0 ≤ segment.inFileAddr.toInt ∧
      segment.inFileAddr.toNat + segment.size.toNat ≤ executable.length)
    (hsmall : segment.size.toNat < 2 ^ 31) :
    ∃ temp', copySegment executable segment size temp vm =
      (store segment (executable.contents segment) vm).map fun vm => (temp', vm) := by
  unfold copySegment store
  rw [toInt_eq_toNat hsmall]
  by_cases hn : 0 < segment.size.toNat
  · have hfit := hle hn
    obtain ⟨hpos, hlen⟩ := hinFile hn
    have haddr : segment.virtualAddr.toInt = segment.virtualAddr.toNat := toInt_eq_toNat (by omega)
    have hin : segment.inFileAddr.toInt = segment.inFileAddr.toNat := by
      obtain ⟨n, hn⟩ := Int.eq_ofNat_of_zero_le hpos
      rw [hn, toNat_of_toInt hn]
    rw [if_pos (by omega), if_neg (by omega), if_neg (by omega), hin]
    obtain ⟨into, hinto⟩ := executable.exists_readAt (temp.offset segment.virtualAddr.toNat)
      segment.size.toNat segment.inFileAddr.toNat
    rw [hinto]
    refine ⟨into.copy temp segment.virtualAddr.toNat segment.size.toNat, ?_⟩
    -- what is written is what was read
    have hdata : ∀ k < segment.size.toNat,
        (into.copy temp segment.virtualAddr.toNat segment.size.toNat).offset
          segment.virtualAddr.toNat k = executable.contents segment k := by
      intro k hk
      rw [Bytes.offset, Bytes.copy_of_mem (Nat.le_add_right _ _) (by omega), Nat.add_sub_cancel_left,
        File.readAt_apply hinto hk, if_pos (by omega)]
      rfl
    show (File.writeAt _ _ _ _).bind _ = _
    rw [File.writeAt_congr hdata]
    cases vm.writeAt (executable.contents segment) segment.size.toNat
      (segment.virtualAddr * BitVec.ofNat 32 PageSize).toInt <;> rfl
  · rw [if_neg (by omega), if_pos (by omega)]
    exact ⟨temp, rfl⟩

/-- The file `VirtualMemory` with the two segments. -/
def loaded (executable : File) : Option File :=
  (store executable.header.code (executable.contents executable.header.code) ⟨0, fun _ => 0⟩).bind
    (store executable.header.initData (executable.contents executable.header.initData))

/-- **The constructor**, for executables in the format. -/
theorem new_eq (hnoff : executable.IsNoff) (hvalid : executable.header.Valid) :
    ∃ s₁, new garbage executable s = (loaded executable).map fun vm =>
      (⟨numPagesFor executable.header⟩, Function.update s₁ "VirtualMemory" (some vm)) := by
  obtain ⟨hle, hlt⟩ := hvalid.total_le
  have hsize := hvalid.toNat_size
  obtain ⟨into, hinto⟩ := executable.exists_readAt garbage noffHeaderSize 0
  have hheader : NoffHeader.ofBytes into = executable.header := by
    apply NoffHeader.ofBytes_congr
    intro k hk
    have hlen := hnoff.length
    rw [File.readAt_apply hinto hk, if_pos (by omega), Nat.zero_add]
  have hsmall : ∀ segment ∈ [executable.header.code, executable.header.initData],
      segment.size.toNat < 2 ^ 31 := by
    have htotal : executable.header.code.size.toNat + executable.header.initData.size.toNat +
        executable.header.uninitData.size.toNat + 1024 + 128 ≤ 2 ^ 31 := hvalid.small
    intro segment hmem
    simp only [List.mem_cons, List.not_mem_nil, or_false] at hmem
    rcases hmem with rfl | rfl <;> omega
  have hsegment : ∀ segment ∈ [executable.header.code, executable.header.initData], ∀ temp vm,
      ∃ temp', copySegment executable segment ((numPagesFor executable.header).toNat * PageSize) temp vm =
        (store segment (executable.contents segment) vm).map fun vm => (temp', vm) := by
    intro segment hmem temp vm
    apply copySegment_eq hlt
    · intro hn
      exact (hvalid.segment_le hmem hn).trans hle
    · exact hnoff.inFile segment hmem
    · exact hsmall segment hmem
  refine ⟨(s.create "VirtualMemory" ((numPagesFor executable.header).toNat * PageSize)).2, ?_⟩
  unfold new
  rw [show ((0 : ℕ) : ℤ) = 0 from rfl] at hinto
  rw [hinto]
  show (if (NoffHeader.ofBytes into).noffMagic ≠ noffMagicNumber then none else _) = _
  rw [hheader, if_neg (by simp [hnoff.magic])]
  dsimp only
  rw [toInt_eq_toNat (by rw [hsize]; exact hlt), if_neg (by omega), hsize]
  have hcreate : (s.create "VirtualMemory" ((numPagesFor executable.header).toNat * PageSize)).2
      "VirtualMemory" = some ⟨0, fun _ => 0⟩ := by
    simp only [FileStore.create, Function.update_self]
  show Option.bind _ _ = _
  rw [hcreate, Option.bind_some]
  obtain ⟨temp, hcode⟩ := hsegment executable.header.code (by simp) (fun _ => 0) ⟨0, fun _ => 0⟩
  show Option.bind _ _ = _
  rw [hcode, loaded]
  cases store executable.header.code (executable.contents executable.header.code) ⟨0, fun _ => 0⟩ with
  | none => rfl
  | some vm =>
    obtain ⟨temp', hdata⟩ := hsegment executable.header.initData (by simp) temp vm
    show Option.bind (copySegment _ _ _ _ _) _ = _
    rw [hdata]
    cases hstore : store executable.header.initData
      (executable.contents executable.header.initData) vm with
    | none => simp [hstore]
    | some vm' => simp [hstore]

theorem new_spec (hnoff : executable.IsNoff) (hvalid : executable.header.Valid) {space : AddrSpace}
    {s₁ : FileStore} (hnew : new garbage executable s = some (space, s₁)) :
    space.numPages = numPagesFor executable.header ∧
      ∃ vm, s₁ "VirtualMemory" = some vm ∧ loaded executable = some vm := by
  obtain ⟨s₂, heq⟩ := @new_eq garbage s executable hnoff hvalid
  rw [heq] at hnew
  obtain ⟨vm, hloaded, hvm⟩ := Option.map_eq_some_iff.1 hnew
  obtain ⟨rfl, rfl⟩ := Prod.mk.inj hvm
  exact ⟨rfl, vm, Function.update_self _ _ _, hloaded⟩

theorem exists_new (hnoff : executable.IsNoff) (hvalid : executable.header.Valid) (garbage : Buf)
    (s : FileStore) (hloaded : loaded executable = some vm) :
    ∃ space s₁, new garbage executable s = some (space, s₁) := by
  obtain ⟨s₂, heq⟩ := @new_eq garbage s executable hnoff hvalid
  rw [hloaded] at heq
  exact ⟨_, _, heq⟩

/-! ### Page faults -/

/-- A page fault brings in a page of the file. -/
theorem page_in {m : Machine} {f : ℕ} {addr : CInt} (vm : File) (hframe : m.FreshFrame f)
    (haddr : addr.toNat < 2 ^ 31) :
    ∃ m', m.loadPage vm f addr = some m' ∧ ∀ k < PageSize, m'.mainMemory (f * PageSize + k) =
      vm.byteAt ((Machine.vpn addr).toNat * PageSize + k) := by
  obtain ⟨m', hload⟩ := Paging.exists_loadPage haddr vm m f
  refine ⟨m', hload, ?_⟩
  intro k hk
  rw [Machine.loadPage_mainMemory hload haddr hframe.physical hframe.zero, if_pos (by omega),
    Nat.add_sub_cancel_left, Machine.toNat_vpn]

/-- The program gets its image from page faults when the file has it. -/
theorem loads_iff (hnoff : executable.IsNoff) (hvalid : executable.header.Valid) :
    Loads garbage s executable ↔ ∃ vm, loaded executable = some vm ∧
      ∀ a < (numPagesFor executable.header).toNat * PageSize, vm.byteAt a = executable.image a := by
  have hlt := hvalid.total_le.2
  constructor
  · rintro ⟨space, s', vm', hspace, hvm, hpages⟩
    obtain ⟨hnumPages, vm, hfile, hloaded⟩ := new_spec hnoff hvalid hspace
    rw [hvm] at hfile
    cases hfile
    rw [hnumPages] at hpages
    refine ⟨vm', hloaded, ?_⟩
    intro a ha
    -- frame 0 of a new machine takes the page of `a`
    have hframe : (Machine.new fun _ => 0).FreshFrame 0 := ⟨rfl, fun _ _ => rfl⟩
    have hnat : (BitVec.ofNat 32 a).toNat = a := Nat.mod_eq_of_lt (by omega)
    have hpage : (Machine.vpn (BitVec.ofNat 32 a)).toNat = a / PageSize := by
      rw [Machine.toNat_vpn, hnat]
    obtain ⟨m', hload, hbytes⟩ := hpages _ 0 (BitVec.ofNat 32 a) hframe
      (by rw [hpage]; exact Nat.div_lt_of_lt_mul (by rw [Nat.mul_comm]; exact ha))
    have haddr : (BitVec.ofNat 32 a).toNat < 2 ^ 31 := by omega
    obtain ⟨m'', hload', hbytes'⟩ := page_in vm' hframe haddr
    rw [hload] at hload'
    cases hload'
    have hk := Nat.mod_lt a (show 0 < PageSize by decide)
    have hboth := (hbytes' _ hk).symm.trans (hbytes _ hk)
    rwa [hpage, Nat.div_add_mod'] at hboth
  · rintro ⟨vm, hloaded, hbytes⟩
    obtain ⟨space, s', hspace⟩ := exists_new hnoff hvalid garbage s hloaded
    obtain ⟨hnumPages, vm', hfile, hloaded'⟩ := new_spec hnoff hvalid hspace
    rw [hloaded] at hloaded'
    cases hloaded'
    refine ⟨space, s', vm, hspace, hfile, ?_⟩
    rw [hnumPages]
    intro m f addr hframe hpage
    have hle : ∀ k < PageSize, (Machine.vpn addr).toNat * PageSize + k <
        (numPagesFor executable.header).toNat * PageSize := by
      intro k hk
      have hk' : k < 128 := hk
      show (Machine.vpn addr).toNat * 128 + k < (numPagesFor executable.header).toNat * 128
      change (Machine.vpn addr).toNat < (numPagesFor executable.header).toNat at hpage
      omega
    have haddr : addr.toNat < 2 ^ 31 := by
      have hlast := hle (addr.toNat % PageSize) (Nat.mod_lt _ (by decide))
      rw [Machine.toNat_vpn, Nat.div_add_mod'] at hlast
      omega
    obtain ⟨m', hload, hmemory⟩ := page_in vm hframe haddr
    refine ⟨m', hload, ?_⟩
    intro k hk
    rw [hmemory k hk, hbytes _ (hle k hk)]

/-! ### Where the bytes of the segments end up -/

/-- `virtualAddr*PageSize` -/
def storedAt (segment : Segment) : ℕ := (segment.virtualAddr * BitVec.ofNat 32 PageSize).toNat

/-- The segment has a byte at the place `a` of the file. -/
def Stores (segment : Segment) (a : ℕ) : Prop :=
  storedAt segment ≤ a ∧ a < storedAt segment + segment.size.toNat

instance decidableStores (segment : Segment) (a : ℕ) : Decidable (Stores segment a) :=
  inferInstanceAs (Decidable (_ ∧ _))

theorem byteAt_store {contents : Buf} {f g : File} (h : store segment contents f = some g) (a : ℕ) :
    g.byteAt a =
      if Stores segment a then contents (a - storedAt segment) else f.byteAt a := by
  unfold store at h
  split_ifs at h with hsize
  · cases h
    rw [if_neg]
    rintro ⟨hle, hlt⟩
    omega
  · have hpos : (segment.virtualAddr * BitVec.ofNat 32 PageSize).toInt = storedAt segment := by
      obtain ⟨n, hn⟩ := Int.eq_ofNat_of_zero_le (File.nonneg_of_writeAt h)
      rw [storedAt, toNat_of_toInt hn, hn]
    rw [hpos] at h
    rw [File.byteAt_writeAt h, Int.toNat_natCast]
    refine if_congr ?_ rfl rfl
    unfold Stores
    omega

/-- Nothing is stored in front of the file, where `Lseek` fails: the positions are `int`s. -/
structure Placed (h : NoffHeader) : Prop where
  code : h.code.size = 0 ∨ storedAt h.code < 2 ^ 31
  initData : h.initData.size = 0 ∨ storedAt h.initData < 2 ^ 31

theorem exists_store (hsegment : segment.size = 0 ∨ storedAt segment < 2 ^ 31) (contents : Buf)
    (f : File) : ∃ g, store segment contents f = some g := by
  unfold store
  split_ifs with hsize
  · exact ⟨f, rfl⟩
  · refine f.exists_writeAt contents _ ?_
    rw [toInt_eq_toNat]
    · exact Int.natCast_nonneg _
    · refine hsegment.resolve_left fun hzero => ?_
      rw [hzero] at hsize
      exact hsize rfl

/-- What is at the place `a` of the file. -/
theorem byteAt_loaded (h : loaded executable = some vm) (a : ℕ) : vm.byteAt a =
    if Stores executable.header.initData a then
      executable.contents executable.header.initData (a - storedAt executable.header.initData)
    else if Stores executable.header.code a then
      executable.contents executable.header.code (a - storedAt executable.header.code)
    else 0 := by
  obtain ⟨g, hg, hvm⟩ := Option.bind_eq_some_iff.1 h
  rw [byteAt_store hvm, byteAt_store hg]
  rfl

theorem exists_loaded (h : Placed executable.header) : ∃ vm, loaded executable = some vm := by
  obtain ⟨g, hg⟩ := exists_store h.code (executable.contents executable.header.code) ⟨0, fun _ => 0⟩
  obtain ⟨vm, hvm⟩ := exists_store h.initData (executable.contents executable.header.initData) g
  refine ⟨vm, ?_⟩
  rw [loaded, hg]
  exact hvm

/-- Two executables that differ only in bytes that are not stored at `a`. -/
theorem loaded_congr {executable' vm vm' : File} {a : ℕ}
    (hheader : executable'.header = executable.header)
    (hsame : ∀ segment ∈ [executable.header.code, executable.header.initData],
      ∀ k < segment.size.toNat, storedAt segment + k = a →
        executable.contents segment k = executable'.contents segment k)
    (h : loaded executable = some vm) (h' : loaded executable' = some vm') :
    vm.byteAt a = vm'.byteAt a := by
  have hstored : ∀ segment ∈ [executable.header.code, executable.header.initData], Stores segment a →
      executable.contents segment (a - storedAt segment) =
        executable'.contents segment (a - storedAt segment) := by
    rintro segment hmem ⟨hle, hlt⟩
    exact hsame segment hmem _ (by omega) (by omega)
  rw [byteAt_loaded h, byteAt_loaded h', hheader]
  split_ifs with hdata hcode
  · exact hstored _ (by simp) hdata
  · exact hstored _ (by simp) hcode
  · rfl

/-- Only address 0 is stored at its own place. -/
theorem storedAt_eq_iff : storedAt segment = segment.virtualAddr.toNat ↔ segment.virtualAddr = 0 := by
  have hlt := segment.virtualAddr.isLt
  rw [storedAt, BitVec.toNat_mul, show (BitVec.ofNat 32 PageSize).toNat = 128 from rfl]
  constructor
  · intro h
    apply BitVec.eq_of_toNat_eq
    show segment.virtualAddr.toNat = 0
    omega
  · rintro h
    rw [h]
    rfl

/-- The segments that have contents are where the program expects them. -/
theorem byteAt_loaded_of_zero (h : loaded executable = some vm)
    (hcode : executable.header.code.size = 0 ∨ executable.header.code.virtualAddr = 0)
    (hdata : executable.header.initData.size = 0 ∨ executable.header.initData.virtualAddr = 0)
    (hdisjoint : ∀ a, ¬ (executable.header.code.Covers a ∧ executable.header.initData.Covers a))
    (a : ℕ) : vm.byteAt a = executable.image a := by
  have hplace : ∀ {segment : Segment}, (segment.size = 0 ∨ segment.virtualAddr = 0) →
      (Stores segment a ↔ segment.Covers a) ∧
        (segment.Covers a → storedAt segment = segment.virtualAddr.toNat) := by
    rintro segment (hsize | haddr)
    · unfold Stores Segment.Covers
      rw [hsize, show BitVec.toNat (0 : BitVec 32) = 0 from rfl]
      omega
    · have hstored := storedAt_eq_iff.2 haddr
      unfold Stores Segment.Covers
      rw [hstored]
      exact ⟨Iff.rfl, fun _ => rfl⟩
  have hboth := hdisjoint a
  rw [byteAt_loaded h, File.image]
  simp only [(hplace hcode).1, (hplace hdata).1]
  split_ifs with hd hc hc
  · exact absurd ⟨hc, hd⟩ hboth
  · rw [(hplace hdata).2 hd]
  · rw [(hplace hcode).2 hc]
  · rfl

/-! ### Executables of a given layout -/

/-- The header of `build`. -/
def buildHeader (h : NoffHeader) : NoffHeader where
  noffMagic := noffMagicNumber
  code := { h.code with inFileAddr := int noffHeaderSize }
  initData := { h.initData with inFileAddr := int (noffHeaderSize + h.code.size.toNat : ℕ) }
  uninitData := h.uninitData

/-- An executable with the layout of `h`, and the contents `code` and `data`. -/
def build (h : NoffHeader) (code data : Buf) : File where
  length := noffHeaderSize + h.code.size.toNat + h.initData.size.toNat
  bytes k :=
    if k < noffHeaderSize then Layout.encodeArray (fun i => (buildHeader h).words.getD i 0) k
    else if k < noffHeaderSize + h.code.size.toNat then code (k - noffHeaderSize)
    else data (k - (noffHeaderSize + h.code.size.toNat))

section

variable {h : NoffHeader} (code data : Buf)

theorem build_header : (build h code data).header = buildHeader h := by
  unfold File.header
  rw [← NoffHeader.ofBytes_encodeArray (buildHeader h)]
  apply NoffHeader.ofBytes_congr
  intro k hk
  exact if_pos hk

theorem build_sameLayout : (build h code data).header.SameLayout h := by
  rw [build_header]
  exact ⟨rfl, rfl, rfl, rfl, rfl⟩

theorem build_code {k : ℕ} (hk : k < h.code.size.toNat) :
    (build h code data).contents (buildHeader h).code k = code k := by
  show (if 40 + k < 40 then _ else if 40 + k < 40 + h.code.size.toNat then code (40 + k - 40)
    else _) = _
  rw [if_neg (by omega), if_pos (by omega), Nat.add_sub_cancel_left]

theorem build_image_code {a : ℕ} (ha : h.code.Covers a) :
    (build h code data).image a = code (a - h.code.virtualAddr.toNat) := by
  have hk : a - h.code.virtualAddr.toNat < h.code.size.toNat := by
    unfold Segment.Covers at ha
    omega
  have hcovers : (buildHeader h).code.Covers a := ha
  unfold File.image
  rw [build_header, if_pos hcovers]
  exact build_code code data hk

variable (hvalid : h.Valid)

include hvalid

theorem sizes_small : h.code.size.toNat + h.initData.size.toNat + 1024 + 128 ≤ 2 ^ 31 := by
  have hsmall : h.code.size.toNat + h.initData.size.toNat + h.uninitData.size.toNat + 1024 + 128 ≤
    2 ^ 31 := hvalid.small
  omega

theorem toNat_dataAddr : (buildHeader h).initData.inFileAddr.toNat =
    noffHeaderSize + h.code.size.toNat := by
  have hsmall := sizes_small hvalid
  exact toNat_int_natCast (by show 40 + h.code.size.toNat < 2 ^ 32; omega)

theorem build_data (k : ℕ) :
    (build h code data).contents (buildHeader h).initData k = data k := by
  unfold File.contents
  rw [toNat_dataAddr hvalid]
  show (if 40 + h.code.size.toNat + k < 40 then _
    else if 40 + h.code.size.toNat + k < 40 + h.code.size.toNat then _
    else data (40 + h.code.size.toNat + k - (40 + h.code.size.toNat))) = _
  rw [if_neg (by omega), if_neg (by omega), Nat.add_sub_cancel_left]

theorem build_isNoff : (build h code data).IsNoff := by
  have hsmall := sizes_small hvalid
  refine ⟨?_, ?_, ?_⟩
  · show 40 ≤ 40 + h.code.size.toNat + h.initData.size.toNat
    omega
  · rw [build_header]
    rfl
  · rw [build_header]
    intro segment hmem hn
    simp only [List.mem_cons, List.not_mem_nil, or_false] at hmem
    rcases hmem with rfl | rfl
    · refine ⟨show 0 ≤ (int 40).toInt by decide, ?_⟩
      show 40 + h.code.size.toNat ≤ 40 + h.code.size.toNat + h.initData.size.toNat
      omega
    · rw [toNat_dataAddr hvalid]
      refine ⟨?_, le_rfl⟩
      show 0 ≤ (int (40 + h.code.size.toNat : ℕ)).toInt
      rw [toInt_int_natCast (by omega)]
      omega

theorem build_image_data {a : ℕ} (ha : h.initData.Covers a) :
    (build h code data).image a = data (a - h.initData.virtualAddr.toNat) := by
  have hcovers : (buildHeader h).initData.Covers a := ha
  have hnot : ¬ (buildHeader h).code.Covers a := fun hcode => hvalid.disjoint a ⟨hcode, ha⟩
  unfold File.image
  rw [build_header, if_neg hnot, if_pos hcovers]
  exact build_data code data hvalid _

/-- Two such programs that differ only in bytes that are not stored at `a`. -/
theorem loaded_build {code code' data data' : Buf} {vm vm' : File} {a : ℕ}
    (hcode : ∀ k < h.code.size.toNat, storedAt h.code + k = a → code k = code' k)
    (hdata : ∀ k < h.initData.size.toNat, storedAt h.initData + k = a → data k = data' k)
    (hvm : loaded (build h code data) = some vm) (hvm' : loaded (build h code' data') = some vm') :
    vm.byteAt a = vm'.byteAt a := by
  refine loaded_congr (by rw [build_header, build_header]) ?_ hvm hvm'
  rw [build_header]
  intro segment hmem k hk hstored
  simp only [List.mem_cons, List.not_mem_nil, or_false] at hmem
  rcases hmem with rfl | rfl
  · change k < h.code.size.toNat at hk
    rw [build_code code data hk, build_code code' data' hk]
    exact hcode k hk hstored
  · rw [build_data code data hvalid, build_data code' data' hvalid]
    exact hdata k hk hstored

end

/-- A segment that starts with `x`, and is zero otherwise. -/
def startsWith (x : Byte) : Buf := fun k => if k = 0 then x else 0

/-- The first byte of a segment is not stored at the address of the segment, if that is not 0. -/
theorem startsWith_congr (hne : segment.virtualAddr ≠ 0) (x y : Byte) :
    ∀ k < segment.size.toNat, storedAt segment + k = segment.virtualAddr.toNat →
      startsWith x k = startsWith y k := by
  intro k _ hstored
  have hk : k ≠ 0 := by
    rintro rfl
    exact hne (storedAt_eq_iff.1 hstored)
  unfold startsWith
  rw [if_neg hk, if_neg hk]

theorem covers_virtualAddr (hsize : segment.size ≠ 0) : segment.Covers segment.virtualAddr.toNat := by
  have hn : segment.size.toNat ≠ 0 := fun h0 => hsize (BitVec.eq_of_toNat_eq h0)
  unfold Segment.Covers
  omega

/-- **Loading preserves the image of every program with a given layout exactly when** the segments
that are not empty are at address 0. -/
theorem image_loaded_iff (garbage : Buf) (s : FileStore) {h : NoffHeader} (hvalid : h.Valid) :
    (∀ executable : File, executable.IsNoff → executable.header.SameLayout h →
      Loads garbage s executable) ↔
    (h.code.size = 0 ∨ h.code.virtualAddr = 0) ∧ (h.initData.size = 0 ∨ h.initData.virtualAddr = 0) := by
  have hle := hvalid.total_le.1
  constructor
  · intro hall
    have hbuild : ∀ code data, ∃ vm, loaded (build h code data) = some vm ∧
        ∀ a < (numPagesFor h).toNat * PageSize, vm.byteAt a = (build h code data).image a := by
      intro code data
      have hlayout := @build_sameLayout h code data
      have hnoff := build_isNoff code data hvalid
      have hloads := (loads_iff hnoff (hlayout.valid hvalid)).1 (hall _ hnoff hlayout)
      rwa [hlayout.numPagesFor] at hloads
    -- two programs that differ only in bytes not stored at `a` have the same image there
    have hsame : ∀ {code code' data data' a}, a < (numPagesFor h).toNat * PageSize →
        (∀ k < h.code.size.toNat, storedAt h.code + k = a → code k = code' k) →
        (∀ k < h.initData.size.toNat, storedAt h.initData + k = a → data k = data' k) →
        (build h code data).image a = (build h code' data').image a := by
      intro code code' data data' a ha hcode hdata
      obtain ⟨vm, hvm, himage⟩ := hbuild code data
      obtain ⟨vm', hvm', himage'⟩ := hbuild code' data'
      rw [← himage a ha, ← himage' a ha]
      exact loaded_build hvalid hcode hdata hvm hvm'
    -- so not in the first byte of a segment that is not at address 0
    have hcode : h.code.size = 0 ∨ h.code.virtualAddr = 0 := by
      by_contra hnot
      rw [not_or] at hnot
      have hcovers := covers_virtualAddr hnot.1
      have hlt := (hvalid.inside _ (Or.inl hcovers)).trans_le hle
      have hfirst := @hsame (startsWith 0) (startsWith 1) (startsWith 0) (startsWith 0) _ hlt
        (startsWith_congr hnot.2 0 1) (fun _ _ _ => rfl)
      rw [build_image_code _ _ hcovers, build_image_code _ _ hcovers, Nat.sub_self] at hfirst
      exact absurd hfirst (by decide)
    have hdata : h.initData.size = 0 ∨ h.initData.virtualAddr = 0 := by
      by_contra hnot
      rw [not_or] at hnot
      have hcovers := covers_virtualAddr hnot.1
      have hlt := (hvalid.inside _ (Or.inr hcovers)).trans_le hle
      have hfirst := @hsame (startsWith 0) (startsWith 0) (startsWith 0) (startsWith 1) _ hlt
        (fun _ _ _ => rfl) (startsWith_congr hnot.2 0 1)
      rw [build_image_data _ _ hvalid hcovers, build_image_data _ _ hvalid hcovers,
        Nat.sub_self] at hfirst
      exact absurd hfirst (by decide)
    exact ⟨hcode, hdata⟩
  · rintro ⟨hcode, hdata⟩ executable hnoff hlayout
    rw [← hlayout.codeSize, ← hlayout.codeAddr] at hcode
    rw [← hlayout.dataSize, ← hlayout.dataAddr] at hdata
    have hsmall : ∀ {segment : Segment}, (segment.size = 0 ∨ segment.virtualAddr = 0) →
        segment.size = 0 ∨ storedAt segment < 2 ^ 31 := by
      intro segment hsegment
      refine hsegment.imp_right fun haddr => ?_
      rw [storedAt_eq_iff.2 haddr, haddr]
      decide
    obtain ⟨vm, hvm⟩ := exists_loaded ⟨hsmall hcode, hsmall hdata⟩
    refine (loads_iff hnoff (hlayout.valid hvalid)).2 ⟨vm, hvm, fun a _ => ?_⟩
    exact byteAt_loaded_of_zero hvm hcode hdata (hlayout.valid hvalid).disjoint a

/-- Four bytes of code at address 0, and `dataSize` bytes of initialised data after them. -/
def codeAndData (dataSize : CInt) : NoffHeader :=
  ⟨noffMagicNumber, ⟨0, 0, 4⟩, ⟨4, 0, dataSize⟩, ⟨0, 0, 0⟩⟩

theorem codeAndData_valid {dataSize : CInt} (hsize : dataSize.toNat ≤ 4) :
    (codeAndData dataSize).Valid := by
  refine ⟨?_, ?_, ?_⟩
  · show 4 + dataSize.toNat + 0 + 1024 + 128 ≤ 2 ^ 31
    omega
  · intro a ha
    show a < 4 + dataSize.toNat + 0 + 1024
    rcases ha with ⟨-, hlt⟩ | ⟨-, hlt⟩
    · change a < 0 + 4 at hlt
      omega
    · change a < 4 + dataSize.toNat at hlt
      omega
  · rintro a ⟨⟨-, hlt⟩, hle, -⟩
    change a < 0 + 4 at hlt
    change 4 ≤ a at hle
    omega

/-- Programs that only have code, at address 0. -/
theorem image_loaded_iff_codeOnly : (codeAndData 0).Valid ∧ ∀ executable : File, executable.IsNoff →
    executable.header.SameLayout (codeAndData 0) → Loads (fun _ => 0) (fun _ => none) executable := by
  have hvalid : (codeAndData 0).Valid := codeAndData_valid (by decide)
  exact ⟨hvalid, (image_loaded_iff (fun _ => 0) (fun _ => none) hvalid).2 ⟨Or.inr rfl, Or.inl rfl⟩⟩

/-- Four bytes of initialised data at address 4, of which the first is 1: the program finds 0 there. -/
theorem initData_lost :
    (build (codeAndData 4) (fun _ => 0) (startsWith 1)).IsNoff ∧
      (build (codeAndData 4) (fun _ => 0) (startsWith 1)).header.Valid ∧
      ¬ Loads (fun _ => 0) (fun _ => none) (build (codeAndData 4) (fun _ => 0) (startsWith 1)) := by
  have hvalid : (codeAndData 4).Valid := codeAndData_valid (by decide)
  have hnoff := build_isNoff (fun _ => 0) (startsWith 1) hvalid
  have hvalid' := (@build_sameLayout (codeAndData 4) (fun _ => 0) (startsWith 1)).valid hvalid
  refine ⟨hnoff, hvalid', fun hloads => ?_⟩
  obtain ⟨vm, hvm, himage⟩ := (loads_iff hnoff hvalid').1 hloads
  have hbyte : (loaded (build (codeAndData 4) (fun _ => 0) (startsWith 1))).map (fun vm => vm.byteAt 4) =
      some 0 := by decide +kernel
  rw [hvm, Option.map_some, Option.some.injEq] at hbyte
  rw [himage 4 (by decide +kernel)] at hbyte
  exact absurd hbyte (by decide +kernel)

end AddrSpace

end Nachos
