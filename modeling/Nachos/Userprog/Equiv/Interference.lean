import Nachos.Userprog.Equiv.AddrSpace

/-!
# Programs share their backing store

There is one file `VirtualMemory` for all programs.  When a second program is loaded, the file of the
first is still in use; `Create` truncates it, and the segments of the second program are written to it.
A page of the first program that is brought in after that has the bytes of the second
(`pages_overwritten`).
-/

namespace Nachos

open Memory

namespace AddrSpace

variable {garbage : Buf} {s : FileStore} {h h' : NoffHeader} {addr : CInt} {faults : Set CInt}

/-- Two files bring in the same page when they agree on it. -/
theorem loadPage_eq_iff {m : Machine} {f : ℕ} {vm vm' : File} (hframe : m.FreshFrame f)
    (haddr : addr.toNat < 2 ^ 31) :
    m.loadPage vm f addr = m.loadPage vm' f addr ↔ ∀ k < PageSize,
      vm.byteAt ((Machine.vpn addr).toNat * PageSize + k) =
        vm'.byteAt ((Machine.vpn addr).toNat * PageSize + k) := by
  obtain ⟨m₁, hload, hpage⟩ := page_in vm hframe haddr
  obtain ⟨m₂, hload', hpage'⟩ := page_in vm' hframe haddr
  rw [hload, hload']
  constructor
  · intro heq k hk
    cases heq
    rw [← hpage k hk, hpage' k hk]
  · intro hsame
    rw [Machine.loadPage_eq hload, Machine.loadPage_eq hload']
    congr 2
    funext x
    rw [Machine.loadPage_mainMemory hload haddr hframe.physical hframe.zero,
      Machine.loadPage_mainMemory hload' haddr hframe.physical hframe.zero]
    split_ifs with hx
    · have hbyte := hsame (x - f * PageSize) (by omega)
      rwa [Machine.toNat_vpn] at hbyte
    · rfl

/-- Pages of the upper half of the addresses would be in front of the file. -/
theorem loadPage_eq_none {m : Machine} {f : ℕ} (vm : File) (haddr : ¬ addr.toNat < 2 ^ 31) :
    m.loadPage vm f addr = none := by
  have hneg : Machine.codePos addr < 0 := by
    have hlt := addr.isLt
    have hnat : (Machine.vpn addr * BitVec.ofNat 32 PageSize).toNat = addr.toNat / 128 * 128 := by
      rw [BitVec.toNat_mul, Machine.toNat_vpn]
      show addr.toNat / 128 * 128 % 2 ^ 32 = addr.toNat / 128 * 128
      omega
    unfold Machine.codePos
    rw [BitVec.toInt_eq_toNat_cond, hnat, if_neg (by omega)]
    omega
  have hread : ∀ into, vm.readAt into PageSize (Machine.codePos addr) = none := by
    intro into
    exact if_pos hneg
  unfold Machine.loadPage
  dsimp only
  rw [hread]
  rfl

section

variable {executable : File} (hlayout : executable.header.SameLayout h)

include hlayout

theorem stores_code_congr (a : ℕ) : Stores executable.header.code a ↔ Stores h.code a := by
  unfold Stores storedAt
  rw [hlayout.codeAddr, hlayout.codeSize]

theorem stores_initData_congr (a : ℕ) : Stores executable.header.initData a ↔ Stores h.initData a := by
  unfold Stores storedAt
  rw [hlayout.dataAddr, hlayout.dataSize]

theorem placed_congr (hplaced : Placed h) : Placed executable.header := by
  refine ⟨?_, ?_⟩
  · unfold storedAt
    rw [hlayout.codeAddr, hlayout.codeSize]
    exact hplaced.code
  · unfold storedAt
    rw [hlayout.dataAddr, hlayout.dataSize]
    exact hplaced.initData

/-- Where the program stores nothing, the file is zero. -/
theorem byteAt_loaded_eq_zero {vm : File} (hvm : loaded executable = some vm) {a : ℕ}
    (hcode : ¬ Stores h.code a) (hdata : ¬ Stores h.initData a) : vm.byteAt a = 0 := by
  rw [byteAt_loaded hvm, if_neg (by rwa [stores_initData_congr hlayout]),
    if_neg (by rwa [stores_code_congr hlayout])]

end

/-- Where the program stores a byte, it can be any byte. -/
theorem exists_build (hvalid : h.Valid) (hplaced : Placed h) {a : ℕ}
    (ha : Stores h.code a ∨ Stores h.initData a) (x : Byte) :
    ∃ vm, loaded (build h (fun _ => x) fun _ => x) = some vm ∧ vm.byteAt a = x := by
  obtain ⟨vm, hvm⟩ := exists_loaded (placed_congr (@build_sameLayout h (fun _ => x) fun _ => x) hplaced)
  refine ⟨vm, hvm, ?_⟩
  rw [byteAt_loaded hvm, build_header]
  split_ifs with hdata hcode
  · exact build_data _ _ hvalid _
  · have hk : a - storedAt h.code < h.code.size.toNat := by
      obtain ⟨hle, hlt⟩ : Stores h.code a := hcode
      omega
    exact build_code _ _ hk
  · exact absurd ha (not_or.2 ⟨hcode, hdata⟩)

/-- What the pages say about the two files. -/
theorem Unaffected.byteAt_eq (hall : Unaffected garbage s h h' faults) (hvalid : h.Valid)
    (hvalid' : h'.Valid) {b b' vm vm' : File} (hb : b.IsNoff) (hlayout : b.header.SameLayout h)
    (hb' : b'.IsNoff) (hlayout' : b'.header.SameLayout h') (hvm : loaded b = some vm)
    (hvm' : loaded b' = some vm') (haddr : addr ∈ faults) (hlt : addr.toNat < 2 ^ 31) {k : ℕ}
    (hk : k < PageSize) :
    vm.byteAt ((Machine.vpn addr).toNat * PageSize + k) =
      vm'.byteAt ((Machine.vpn addr).toNat * PageSize + k) := by
  obtain ⟨space, s₁, hnew⟩ := exists_new hb (hlayout.valid hvalid) garbage s hvm
  obtain ⟨space', s₁', hnew'⟩ := exists_new hb' (hlayout'.valid hvalid') garbage s hvm'
  obtain ⟨-, _, hfile, hloaded⟩ := new_spec hb (hlayout.valid hvalid) hnew
  obtain ⟨-, _, hfile', hloaded'⟩ := new_spec hb' (hlayout'.valid hvalid') hnew'
  rw [hvm] at hloaded
  cases hloaded
  rw [hvm'] at hloaded'
  cases hloaded'
  -- frame 0 of a new machine takes the page in both runs
  have hframe : (Machine.new fun _ => 0).FreshFrame 0 := ⟨rfl, fun _ _ => rfl⟩
  exact (loadPage_eq_iff hframe hlt).1 (hall _ _ hb hlayout hb' hlayout' _ _ _ _ _ _ hnew hfile
    hnew' hfile' addr haddr _ 0 hframe) k hk

/-- A byte at a place where one of the later programs stores something is not the same in all runs:
it could be 0 and 1. -/
theorem Unaffected.not_stores (hall : Unaffected garbage s h h' faults) (hvalid : h.Valid)
    (hvalid' : h'.Valid) (hplaced : Placed h) (hplaced' : Placed h') (haddr : addr ∈ faults)
    (hlt : addr.toNat < 2 ^ 31) {k : ℕ} (hk : k < PageSize) :
    ¬ (Stores h.code ((Machine.vpn addr).toNat * PageSize + k) ∨
      Stores h.initData ((Machine.vpn addr).toNat * PageSize + k)) := by
  intro hstored
  obtain ⟨vm', hvm'⟩ := exists_loaded
    (placed_congr (@build_sameLayout h' (fun _ => 0) fun _ => 0) hplaced')
  have hrun : ∀ {x : Byte} {vm : File}, loaded (build h (fun _ => x) fun _ => x) = some vm →
      vm.byteAt ((Machine.vpn addr).toNat * PageSize + k) =
        vm'.byteAt ((Machine.vpn addr).toNat * PageSize + k) := by
    intro x vm hvm
    exact hall.byteAt_eq hvalid hvalid' (build_isNoff _ _ hvalid) (build_sameLayout _ _)
      (build_isNoff _ _ hvalid') (build_sameLayout _ _) hvm hvm' haddr hlt hk
  obtain ⟨vm₁, hvm₁, hbyte₁⟩ := exists_build hvalid hplaced hstored 0
  obtain ⟨vm₂, hvm₂, hbyte₂⟩ := exists_build hvalid hplaced hstored 1
  have hsame := (hrun hvm₁).trans (hrun hvm₂).symm
  rw [hbyte₁, hbyte₂] at hsame
  exact absurd hsame (by decide)

theorem Unaffected.symm (hall : Unaffected garbage s h h' faults) :
    Unaffected garbage s h' h faults := by
  intro b b' hb hlayout hb' hlayout' space s₁ space' s₁' vm vm' hnew hvm hnew' hvm' addr haddr m f hframe
  exact (hall b' b hb' hlayout' hb hlayout space' s₁' space s₁ vm' vm hnew' hvm' hnew hvm addr haddr m f
    hframe).symm

/-- **Programs interfere through the backing store, unless** no page that is brought in afterwards has
a byte that one of the later programs stores.

`s` is any state of the host's files, such as the one after the first program has been loaded. -/
theorem unaffected_iff (garbage : Buf) (s : FileStore) (hvalid : h.Valid) (hvalid' : h'.Valid)
    (hplaced : Placed h) (hplaced' : Placed h') (faults : Set CInt) :
    Unaffected garbage s h h' faults ↔
    ∀ addr ∈ faults, addr.toNat < 2 ^ 31 → ∀ k < PageSize,
      ∀ segment ∈ [h.code, h.initData, h'.code, h'.initData],
        ¬ Stores segment ((Machine.vpn addr).toNat * PageSize + k) := by
  constructor
  · intro hall addr haddr hlt k hk segment hmem
    have hnot := hall.not_stores hvalid hvalid' hplaced hplaced' haddr hlt hk
    have hnot' := hall.symm.not_stores hvalid' hvalid hplaced' hplaced haddr hlt hk
    rw [not_or] at hnot hnot'
    simp only [List.mem_cons, List.not_mem_nil, or_false] at hmem
    rcases hmem with rfl | rfl | rfl | rfl
    · exact hnot.1
    · exact hnot.2
    · exact hnot'.1
    · exact hnot'.2
  · intro hcond b b' hb hlayout hb' hlayout' space s₁ space' s₁' vm vm' hnew hvm hnew' hvm' addr haddr
      m f hframe
    by_cases hlt : addr.toNat < 2 ^ 31
    · rw [loadPage_eq_iff hframe hlt]
      intro k hk
      have hnot := hcond addr haddr hlt k hk
      obtain ⟨-, _, hfile₁, hloaded⟩ := new_spec hb (hlayout.valid hvalid) hnew
      obtain ⟨-, _, hfile₁', hloaded'⟩ := new_spec hb' (hlayout'.valid hvalid') hnew'
      rw [hvm] at hfile₁
      cases hfile₁
      rw [hvm'] at hfile₁'
      cases hfile₁'
      rw [byteAt_loaded_eq_zero hlayout hloaded (hnot _ (by simp)) (hnot _ (by simp)),
        byteAt_loaded_eq_zero hlayout' hloaded' (hnot _ (by simp)) (hnot _ (by simp))]
    · rw [loadPage_eq_none vm hlt, loadPage_eq_none vm' hlt]

theorem codeAndData_placed : Placed (codeAndData 0) := ⟨Or.inr (by decide), Or.inl rfl⟩

/-- The first program, with four bytes of code, has been loaded. -/
theorem exists_first : ∃ space s, new (fun _ => 0) (build (codeAndData 0) (fun _ => 0) fun _ => 0)
    (fun _ => none) = some (space, s) := by
  have hvalid : (codeAndData 0).Valid := codeAndData_valid (by decide)
  have hlayout := @build_sameLayout (codeAndData 0) (fun _ => 0) fun _ => 0
  obtain ⟨vm, hvm⟩ := exists_loaded (placed_congr hlayout codeAndData_placed)
  exact exists_new (build_isNoff _ _ hvalid) (hlayout.valid hvalid) (fun _ => 0) (fun _ => none) hvm

/-- Another program with four bytes of code is loaded after it; the second page of the first program is
the same in all runs. -/
theorem unaffected_iff_secondPage :
    ∃ space s, new (fun _ => 0) (build (codeAndData 0) (fun _ => 0) fun _ => 0) (fun _ => none) =
        some (space, s) ∧
      Unaffected (fun _ => 0) s (codeAndData 0) (codeAndData 0) {128} := by
  have hvalid : (codeAndData 0).Valid := codeAndData_valid (by decide)
  obtain ⟨space, s, hnew⟩ := exists_first
  refine ⟨space, s, hnew, (unaffected_iff (fun _ => 0) s hvalid hvalid codeAndData_placed
    codeAndData_placed {128}).2 ?_⟩
  rintro _ rfl _ k hk segment hmem ⟨hle, hlt⟩
  -- the four bytes are in the first page
  have hend : ∀ segment ∈ [(codeAndData 0).code, (codeAndData 0).initData, (codeAndData 0).code,
      (codeAndData 0).initData], storedAt segment + segment.size.toNat ≤ 128 ∨ segment.size.toNat = 0 := by
    decide
  have hfirst := hend segment hmem
  change _ ≤ 1 * 128 + k at hle
  change 1 * 128 + k < _ at hlt
  omega

/-- The first page depends on the program that is loaded after it. -/
theorem pages_overwritten :
    ∃ space s, new (fun _ => 0) (build (codeAndData 0) (fun _ => 0) fun _ => 0) (fun _ => none) =
        some (space, s) ∧
      ¬ Unaffected (fun _ => 0) s (codeAndData 0) (codeAndData 0) {0} := by
  have hvalid : (codeAndData 0).Valid := codeAndData_valid (by decide)
  obtain ⟨space, s, hnew⟩ := exists_first
  refine ⟨space, s, hnew, fun hall => ?_⟩
  refine hall.not_stores hvalid hvalid codeAndData_placed codeAndData_placed (Set.mem_singleton 0)
    (by decide) (show 0 < PageSize by decide) (Or.inl ?_)
  decide

end AddrSpace

end Nachos
