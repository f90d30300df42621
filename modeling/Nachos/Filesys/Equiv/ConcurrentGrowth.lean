import Nachos.Filesys.Equiv.GrowthLimits
import Nachos.Filesys.Equiv.WriteProtocol

/-!
## Threads that extend their files one at a time

The views of the threads say which sectors the headers on the disk list and which of them are not
yet marked in the stored free map.  As long as at most one thread is extending its file, the map it
has read is the stored one, so the sector it takes belongs to nobody (`Inv.writeHeader`).  Without
that condition two threads can take the same sector (`sector_listed_twice`).
-/

namespace Nachos

open Storage

namespace ConcurrentGrowth

open FileHeader (sectorsFor)
open WriteProtocol (View protocol)

variable {τ : Type} {v : View} {m : ℕ → Bool} {x : ℕ} {c' : Shared τ} {e : Event ℕ Sector SyncCall}

/-- The data sectors that the stored header lists. -/
def sectors : View → List ℕ
  | .idle l => l
  | .opened l => l
  | .fetched l _ => l
  | .listed l added _ => l ++ added

/-- Those that are not marked yet. -/
def pending : View → List ℕ
  | .listed _ added _ => added
  | _ => []

def isExtending : View → Bool
  | .idle _ => false
  | _ => true

/-- The bits of the free map in memory. -/
def bits : View → Option (ℕ → Bool)
  | .fetched _ m => some m
  | .listed _ _ m => some m
  | _ => none

theorem pending_of_not_extending (h : isExtending v = false) : pending v = [] := by
  cases v with
  | idle l => rfl
  | _ => cases h

theorem isExtending_of_bits (h : bits v = some m) : isExtending v = true := by
  cases v with
  | fetched l m => rfl
  | listed l added m => rfl
  | _ => cases h

/-! ### A disk with its free map in sector `a` -/

section OneSector

variable {d : Disk} {o : Ownership Disk.Owner ℕ} {a : ℕ}

theorem mapHeader (H : d.Arranged o) (hmap : o.own .freeMap = [0, a]) :
    (d.header FreeMapSector).Short FreeMapFileSize [a] := by
  obtain ⟨l, hl, hshort⟩ := H.mapFile
  rw [hmap, List.cons.injEq] at hl
  rw [hl.2]
  exact hshort

theorem bit_eq (H : d.Arranged o) (hmap : o.own .freeMap = [0, a]) (hx : x < NumSectors) :
    d.freeMap.bit x = (d a).mapBit x := by
  have hx8 : x / 8 < SectorSize := by
    simp only [NumSectors, SectorsPerTrack, NumTracks, SectorSize] at *
    omega
  rw [Disk.bit_freeMap (mapHeader H hmap) hx, flat, Nat.div_eq_of_lt hx8, Nat.mod_eq_of_lt hx8]
  rfl

theorem listed_map (H : d.Arranged o) (hmap : o.own .freeMap = [0, a]) :
    (d.header FreeMapSector).listed d = [(a : ℤ)] := by
  obtain ⟨t, l, ht, hown, -, hl⟩ := H.own_eq (w := .freeMap) rfl
  obtain rfl : t = 0 := by simpa using ht.symm
  rw [hmap, List.cons.injEq] at hown
  rw [← hown.2] at hl
  exact hl

/-- Writing the sector of the map keeps all files where they are. -/
theorem arranged_writeMap (H : d.Arranged o) (hmap : o.own .freeMap = [0, a]) (b : Sector) :
    Disk.Arranged (Function.update d a b) o ∧
      ∀ w, Disk.headerSector (Function.update d a b) w = d.headerSector w := by
  have hne : a ≠ 0 := by
    have hnd := o.nodup .freeMap
    rw [hmap] at hnd
    simpa [eq_comm] using hnd
  have hmem : a ∈ o.own .freeMap := by
    rw [hmap]
    simp
  apply H.keep
  intro w s hs h0
  rw [Function.update_of_ne]
  rintro rfl
  exact hne (h0 (o.unique hs hmem))

end OneSector

/-! ### The invariant -/

/-- What is true of a thread whose header is in sector `s` and whose view is `v`. -/
structure Local (S : Setup τ) (o : Ownership Disk.Owner ℕ) (d : Disk) (t : τ) (s : ℕ) (v : View) :
    Prop where
  own : o.own (.entry (S.entry t)) = s :: sectors v
  short : (sectors v).length ≤ 25
  entry : d.headerSector (.entry (S.entry t)) = some (s : ℤ)
  known : ∀ m, bits v = some m → ∀ x < NumSectors, m x = d.freeMap.bit x
  room : ∀ l, v = .opened l → ∃ x < NumSectors, d.freeMap.bit x = false

/-- The state between two steps; `hdr t` is the header sector of thread `t`, and the free map is in
sector `a`. -/
structure Inv (S : Setup τ) (a : ℕ) (hdr : τ → ℕ) (o : Ownership Disk.Owner ℕ) (vs : τ → View)
    (d : Disk) (c : Shared τ) : Prop where
  arranged : d.Arranged o
  map : o.own .freeMap = [0, a]
  thread : ∀ t, Local S o d t (hdr t) (vs t)
  marked : ∀ x < NumSectors, d.freeMap.bit x = true ↔ o.Held x ∧ ∀ t, x ∉ pending (vs t)
  alone : ∀ t t', isExtending (vs t) = true → isExtending (vs t') = true → t = t'
  history : ∀ t, c.extending t = isExtending (vs t)

/-- The free map and the place of the header are the same on another disk. -/
theorem Local.congr {S : Setup τ} {o o' : Ownership Disk.Owner ℕ} {d d' : Disk} {t : τ} {s : ℕ}
    (L : Local S o d t s v) (hown : o'.own (.entry (S.entry t)) = o.own (.entry (S.entry t)))
    (hentry : d'.headerSector (.entry (S.entry t)) = d.headerSector (.entry (S.entry t)))
    (hbits : ∀ x < NumSectors, d'.freeMap.bit x = d.freeMap.bit x) : Local S o' d' t s v := by
  refine ⟨hown.trans L.own, L.short, hentry.trans L.entry, ?_, ?_⟩
  · intro m hm x hx
    rw [hbits x hx]
    exact L.known m hm x hx
  · intro l hl
    obtain ⟨x, hx, hclear⟩ := L.room l hl
    exact ⟨x, hx, by rwa [hbits x hx]⟩

namespace Inv

variable {S : Setup τ} {a : ℕ} {hdr : τ → ℕ} {o : Ownership Disk.Owner ℕ} {vs : τ → View}
  {d : Disk} {c : Shared τ}

/-- The sectors of a thread's file are not those of the free map. -/
theorem ne_map (I : Inv S a hdr o vs d c) {t : τ} (hx : x ∈ hdr t :: sectors (vs t)) :
    x ≠ 0 ∧ x ≠ a := by
  have hne : x ∉ o.own .freeMap := by
    intro h
    rw [← (I.thread t).own] at hx
    cases o.unique hx h
  rw [I.map] at hne
  simpa using hne

theorem ne_of_mem (I : Inv S a hdr o vs d c) {t : τ} {w : Disk.Owner} {x y : ℕ}
    (hx : x ∈ hdr t :: sectors (vs t)) (hy : y ∈ o.own w) (hw : w ≠ .entry (S.entry t)) : y ≠ x := by
  rintro rfl
  rw [← (I.thread t).own] at hx
  exact hw (o.unique hy hx)

/-- The others are not extending their files while `t` does, -/
theorem others (I : Inv S a hdr o vs d c) {t t' : τ} (ht : isExtending (vs t) = true) (hne : t' ≠ t) :
    isExtending (vs t') = false := by
  by_contra h
  rw [Bool.not_eq_false] at h
  exact hne (I.alone t' t h ht)

/-- so all their sectors are marked. -/
theorem pending_eq_nil (I : Inv S a hdr o vs d c) {t t' : τ} (ht : isExtending (vs t) = true)
    (hne : t' ≠ t) : pending (vs t') = [] :=
  pending_of_not_extending (I.others ht hne)

theorem sees (I : Inv S a hdr o vs d c) (t : τ) (x : ℕ) : (protocol a (hdr t)).sees (vs t) x (d x) := by
  constructor
  · rintro rfl
    exact mapHeader I.arranged I.map
  · rintro l hl rfl
    constructor
    · obtain ⟨y, hy, hclear⟩ := (I.thread t).room l hl
      exact ⟨y, hy, by rwa [← bit_eq I.arranged I.map hy]⟩
    · intro y hy
      have hheld : o.Held y := by
        refine ⟨.entry (S.entry t), ?_⟩
        rw [(I.thread t).own, hl]
        exact List.mem_cons_of_mem _ hy
      have hy' := I.arranged.range y hheld
      rw [← bit_eq I.arranged I.map hy', I.marked y hy']
      refine ⟨hheld, fun t' => ?_⟩
      -- only `t` itself is extending its file, and it has not taken a sector yet
      by_cases ht : t' = t
      · rw [ht, hl]
        exact List.not_mem_nil
      · rw [I.pending_eq_nil (t := t) (by rw [hl]; rfl) ht]
        exact List.not_mem_nil

/-! ### The steps -/

/-- The semaphores do not matter. -/
theorem of_extending (I : Inv S a hdr o vs d c) (hc : c'.extending = c.extending) :
    Inv S a hdr o vs d c' :=
  ⟨I.arranged, I.map, I.thread, I.marked, I.alone, hc ▸ I.history⟩

/-- A thread writes a data sector of its file. -/
theorem writeData (I : Inv S a hdr o vs d c) {t : τ} (hx : x ∈ sectors (vs t)) (b : Sector) :
    Inv S a hdr o vs (Function.update d x b) c := by
  have L := I.thread t
  have hL := I.arranged.laid L.entry L.own
  have hlen := FileHeader.length_of_listed rfl hL.listed
  have hshort := L.short
  have hS : d.SameStructure (Function.update d x b) := by
    intro y hy
    rw [Function.update_of_ne]
    rintro rfl
    refine I.arranged.not_structural L.own hx (fun hn => ?_) hy
    rw [if_neg (by omega)] at hlen
    simp only [NumDirect] at hn
    omega
  obtain ⟨H, hsame, -, hbits⟩ := I.arranged.sameStructure hS
  refine ⟨H, I.map, fun t' => (I.thread t').congr rfl (hsame _) hbits, ?_, I.alone, I.history⟩
  intro y hy
  rw [hbits y hy]
  exact I.marked y hy

variable [DecidableEq τ] {t : τ} {b : Sector}

/-- A step of `t` after which its view is `v`. -/
theorem step (I : Inv S a hdr o vs d c) {o' : Ownership Disk.Owner ℕ} {d' : Disk} (H : d'.Arranged o')
    (hmap : o'.own .freeMap = [0, a]) (hlocal : Local S o' d' t (hdr t) v)
    (hothers : ∀ t' ≠ t, Local S o' d' t' (hdr t') (vs t'))
    (hmarked : ∀ x < NumSectors, d'.freeMap.bit x = true ↔
      o'.Held x ∧ x ∉ pending v ∧ ∀ t' ≠ t, x ∉ pending (vs t'))
    (hv : isExtending v = true → ∀ t' ≠ t, isExtending (vs t') = false)
    (hc : c'.extending = Function.update c.extending t (isExtending v)) :
    Inv S a hdr o' (Function.update vs t v) d' c' := by
  refine ⟨H, hmap, ?_, fun x hx => ?_, fun t₁ t₂ h₁ h₂ => ?_, fun t' => ?_⟩
  · rw [Function.forall_update_iff vs fun t' v' => Local S o' d' t' (hdr t') v']
    exact ⟨hlocal, hothers⟩
  · rw [Function.forall_update_iff vs fun _ v' => x ∉ pending v']
    exact hmarked x hx
  · by_cases ht₁ : t₁ = t <;> by_cases ht₂ : t₂ = t
    · rw [ht₁, ht₂]
    · rw [ht₁, Function.update_self] at h₁
      rw [Function.update_of_ne ht₂, hv h₁ t₂ ht₂] at h₂
      cases h₂
    · rw [ht₂, Function.update_self] at h₂
      rw [Function.update_of_ne ht₁, hv h₂ t₁ ht₁] at h₁
      cases h₁
    · rw [Function.update_of_ne ht₁] at h₁
      rw [Function.update_of_ne ht₂] at h₂
      exact I.alone t₁ t₂ h₁ h₂
  · rw [hc]
    by_cases ht : t' = t
    · rw [ht, Function.update_self, Function.update_self]
    · rw [Function.update_of_ne ht, Function.update_of_ne ht]
      exact I.history t'

/-- A thread learns something, and the disk stays the same. -/
theorem learn (I : Inv S a hdr o vs d c) (hsec : sectors v = sectors (vs t))
    (hpending : pending v = pending (vs t))
    (hknown : ∀ m, bits v = some m → ∀ x < NumSectors, m x = d.freeMap.bit x)
    (hroom : ∀ l, v = .opened l → ∃ x < NumSectors, d.freeMap.bit x = false)
    (hv : isExtending v = true → ∀ t' ≠ t, isExtending (vs t') = false)
    (hc : c'.extending = Function.update c.extending t (isExtending v)) :
    Inv S a hdr o (Function.update vs t v) d c' := by
  have L := I.thread t
  refine I.step I.arranged I.map ?_ (fun t' _ => I.thread t') ?_ hv hc
  · exact ⟨hsec ▸ L.own, hsec ▸ L.short, L.entry, hknown, hroom⟩
  · intro x hx
    rw [I.marked x hx, hpending]
    refine and_congr_right fun _ => ⟨fun h => ⟨h t, fun t' _ => h t'⟩, fun h t' => ?_⟩
    by_cases ht : t' = t
    · rw [ht]
      exact h.1
    · exact h.2 t' ht

/-- A thread that is extending its file writes the header. -/
theorem writeHeader (I : Inv S a hdr o vs d c) (hS : Function.Injective S.entry) {l added : List ℕ}
    (hv : vs t = .fetched l m) {len : ℕ} (hb : (FileHeader.ofSector b).Short len (l ++ added))
    (hs : (FileHeader.ofSector b).hdrSector = int (hdr t)) (hfree : ∀ x ∈ added, m x = false)
    (hc : c'.extending = c.extending) :
    ∃ o', Inv S a hdr o' (Function.update vs t (.listed l added m)) (Function.update d (hdr t) b) c' := by
  have L := I.thread t
  rw [hv] at L
  have hext : isExtending (vs t) = true := by rw [hv]; rfl
  have hothers : ∀ t' ≠ t, pending (vs t') = [] := fun t' ht => I.pending_eq_nil hext ht
  -- the new sectors belong to nobody
  have hnew : ∀ x ∈ added, ¬ o.Held x := by
    intro x hx hheld
    have hx' := hb.inRange x (List.mem_append_right l hx)
    have hbit := L.known m rfl x hx'
    rw [hfree x hx, eq_comm, Bool.eq_false_iff, Ne, I.marked x hx'] at hbit
    refine hbit ⟨hheld, fun t' => ?_⟩
    by_cases ht : t' = t
    · rw [ht, hv]
      exact List.not_mem_nil
    · rw [hothers t' ht]
      exact List.not_mem_nil
  have hnd : added.Nodup := (List.nodup_append'.mp hb.nodup).2.1
  have hmem : hdr t ∈ hdr t :: sectors (vs t) := List.mem_cons_self
  have hkeep : ∀ w, w ≠ .entry (S.entry t) → ∀ x ∈ o.own w, Function.update d (hdr t) b x = d x :=
    fun w hw x hx => Function.update_of_ne (I.ne_of_mem hmem hx hw) _ _
  obtain ⟨-, hbits⟩ := I.arranged.bit_congr (hkeep .freeMap (by simp))
  obtain ⟨-, htable⟩ := I.arranged.table_congr (hkeep .directory (by simp))
  have hentry : ∀ j, Disk.headerSector (Function.update d (hdr t) b) (.entry j)
      = d.headerSector (.entry j) := by
    intro j
    rw [Disk.headerSector, Disk.headerSector, htable j j.isLt]
  have hheader : Disk.header (Function.update d (hdr t) b) (hdr t) = .ofSector b := by
    rw [Disk.header, Int.toNat_natCast, Function.update_self]
  have hown : o.own (.entry (S.entry t)) = hdr t :: l := L.own
  refine ⟨o.give (.entry (S.entry t)) added hnd hnew, I.step ?_ ?_ ?_ ?_ ?_ ?_ ?_⟩
  · apply I.arranged.change (i := S.entry t)
    · exact fun w hw => Ownership.own_give_of_ne hw
    · exact fun w x hw hx _ _ => hkeep w hw x hx
    · exact fun j _ => htable j j.isLt
    · rw [Disk.sectorsOf, hentry, L.entry, Option.elim_some, hheader, Ownership.own_give_self, hown,
        hb.toLists.listed_eq (hb.short.trans (by decide)) hb.inRange]
      rfl
    · intro x hx
      rw [hentry, L.entry, Option.some.injEq] at hx
      rw [← hx, hheader]
      exact hb.wellFormed hs
    · intro x hx
      rw [Ownership.own_give_self, hown, List.cons_append, List.mem_cons] at hx
      rcases hx with rfl | hx
      · exact I.arranged.range _ ⟨_, (I.thread t).own ▸ hmem⟩
      · exact hb.inRange x hx
  · rw [Ownership.own_give_of_ne (by simp)]
    exact I.map
  · refine ⟨?_, hb.short, (hentry _).trans L.entry, ?_, fun l' hl' => by cases hl'⟩
    · rw [Ownership.own_give_self, hown]
      rfl
    · rintro m' hm' x hx
      rw [hbits x hx]
      exact L.known m' hm' x hx
  · intro t' ht
    refine (I.thread t').congr (Ownership.own_give_of_ne ?_) (hentry _) hbits
    rw [Ne, Disk.Owner.entry.injEq]
    exact fun h => ht (hS h)
  · intro x hx
    rw [hbits x hx, I.marked x hx, Ownership.held_give]
    constructor
    · intro h
      exact ⟨Or.inr h.1, fun hadd => hnew x hadd h.1, fun t' _ => h.2 t'⟩
    · rintro ⟨hheld, hadd, h⟩
      refine ⟨hheld.resolve_left hadd, fun t' => ?_⟩
      by_cases ht : t' = t
      · rw [ht, hv]
        exact List.not_mem_nil
      · exact h t' ht
  · exact fun _ t' ht => I.others hext ht
  · rw [hc, eq_comm, Function.update_eq_self_iff, I.history t, hext]
    rfl

/-- A thread writes the free map and has extended its file. -/
theorem writeMap (I : Inv S a hdr o vs d c) {l added : List ℕ} (hv : vs t = .listed l added m)
    (hb : ∀ x < NumSectors, b.mapBit x = (decide (x ∈ added) || m x))
    (hc : c'.extending = Function.update c.extending t false) :
    Inv S a hdr o (Function.update vs t (.idle (l ++ added))) (Function.update d a b) c' := by
  have L := I.thread t
  rw [hv] at L
  have hext : isExtending (vs t) = true := by rw [hv]; rfl
  obtain ⟨H, hentry⟩ := arranged_writeMap I.arranged I.map b
  have hbit : ∀ x < NumSectors, (Disk.freeMap (Function.update d a b)).bit x
      = (decide (x ∈ added) || d.freeMap.bit x) := by
    intro x hx
    rw [bit_eq H I.map hx, Function.update_self, hb x hx, L.known m rfl x hx]
  refine I.step H I.map ?_ ?_ ?_ (fun h => by cases h) hc
  · exact ⟨L.own, L.short, (hentry _).trans L.entry, fun m' hm' => (by cases hm'),
      fun l' hl' => (by cases hl')⟩
  · -- the others know nothing of the map
    intro t' ht
    have L' := I.thread t'
    have hidle := I.others hext ht
    refine ⟨L'.own, L'.short, (hentry _).trans L'.entry, fun m' hm' => ?_, fun l' hl' => ?_⟩
    · rw [isExtending_of_bits hm'] at hidle
      cases hidle
    · rw [hl'] at hidle
      cases hidle
  · intro x hx
    rw [hbit x hx, Bool.or_eq_true, decide_eq_true_eq, I.marked x hx]
    constructor
    · intro h
      refine ⟨?_, List.not_mem_nil, fun t' ht => ?_⟩
      · rcases h with h | h
        · refine ⟨.entry (S.entry t), ?_⟩
          rw [L.own]
          exact List.mem_cons_of_mem _ (List.mem_append_right l h)
        · exact h.1
      · rw [I.pending_eq_nil hext ht]
        exact List.not_mem_nil
    · rintro ⟨hheld, -, h⟩
      by_cases hadd : x ∈ added
      · exact Or.inl hadd
      · refine Or.inr ⟨hheld, fun t' => ?_⟩
        by_cases ht : t' = t
        · rw [ht, hv]
          exact hadd
        · exact h t' ht

/-- What the history keeps of a step. -/
theorem extending_of_read (hx : x ≠ 0) (h : after d c t (.read x b) c') : c' = c := by
  rw [after, if_neg] at h
  · exact h
  · exact fun h0 => hx (Int.ofNat.inj h0)

theorem extending_of_write (I : Inv S a hdr o vs d c) (hx : x ≠ a) (h : after d c t (.write x b) c') :
    c' = c := by
  rw [after, listed_map I.arranged I.map, if_neg] at h
  · exact h
  · rw [List.mem_singleton]
    exact fun ha => hx (Int.ofNat.inj ha)

theorem extending_eq (I : Inv S a hdr o vs d c) (hv : isExtending v = isExtending (vs t)) :
    c.extending = Function.update c.extending t (isExtending v) := by
  rw [eq_comm, Function.update_eq_self_iff, hv, I.history t]

/-- **One step of a thread that follows the protocol**, and that starts to extend its file when no
other does. -/
theorem next {st : State τ} (I : Inv S a hdr o vs st.store st.shared)
    (hS : Function.Injective S.entry) (hguard : ConcurrentGrowth.alone st (t, e))
    (hread : ∀ i b, e = .read i b → b = st.store i) (hnext : WriteProtocol.Next a (hdr t) (vs t) e v)
    (hafter : after st.store st.shared t e c') :
    ∃ o', Inv S a hdr o' (Function.update vs t v) (e.store st.store) c' := by
  have hmem : ∀ {x}, x ∈ sectors (vs t) → x ∈ hdr t :: sectors (vs t) := List.mem_cons_of_mem _
  generalize hv : vs t = u at hnext
  cases hnext with
  | @sync l s =>
    have hc : c'.extending = st.shared.extending := by
      cases s with
      | writerStart s => rw [hafter.2]
      | writerExit s =>
        rw [after] at hafter
        rw [hafter]
      | readerStart s => exact hafter.elim
      | readerExit s => exact hafter.elim
    rw [← hv, Function.update_eq_self]
    exact ⟨o, I.of_extending hc⟩
  | @readData l x hx b =>
    rw [← show sectors (vs t) = l by rw [hv]; rfl] at hx
    rw [extending_of_read (I.ne_map (hmem hx)).1 hafter, ← hv, Function.update_eq_self]
    exact ⟨o, I⟩
  | @writeData l x hx b =>
    rw [← show sectors (vs t) = l by rw [hv]; rfl] at hx
    rw [I.extending_of_write (I.ne_map (hmem hx)).2 hafter, ← hv, Function.update_eq_self]
    exact ⟨o, I.writeData hx b⟩
  | @openMap l b =>
    obtain ⟨hothers, hclear⟩ := hguard rfl
    rw [after, if_pos Nat.cast_zero] at hafter
    refine ⟨o, I.learn (by rw [hv]; rfl) (by rw [hv]; rfl) (fun m hm => by cases hm) (fun _ _ => ?_)
      (fun _ t' ht => ?_) (by rw [hafter]; rfl)⟩
    · rw [BitMap.numClear_eq] at hclear
      obtain ⟨x, hx⟩ := List.exists_mem_of_length_pos hclear
      exact ⟨x, BitMap.mem_clears.mp hx⟩
    · rw [← I.history t']
      exact hothers t' ht
  | @fetchMap l b =>
    have hne : a ≠ 0 := by
      have hnd := o.nodup .freeMap
      rw [I.map] at hnd
      simpa [eq_comm] using hnd
    have hext : isExtending (vs t) = true := by rw [hv]; rfl
    obtain rfl : b = st.store a := hread a b rfl
    rw [extending_of_read hne hafter]
    refine ⟨o, I.learn (by rw [hv]; rfl) (by rw [hv]; rfl) (fun m hm x hx => ?_) (fun l hl => by cases hl)
      (fun _ t' ht => I.others hext ht) (I.extending_eq hext.symm)⟩
    obtain rfl := Option.some.inj hm
    exact (bit_eq I.arranged I.map hx).symm
  | @writeHeader l added m len b hb hs hfree =>
    have hne := (I.ne_map (t := t) List.mem_cons_self).2
    exact I.writeHeader hS hv hb hs hfree (by rw [I.extending_of_write hne hafter])
  | @writeMap l added m b hb =>
    rw [after, listed_map I.arranged I.map, if_pos List.mem_cons_self] at hafter
    exact ⟨o, I.writeMap hv hb (by rw [hafter])⟩

end Inv

/-! ### Runs -/

variable {S : Setup τ}

/-- The state before the calls: thread `t` has opened the file with the data sectors `l t`. -/
theorem Setup.Proper.exists_inv (hS : S.Proper) (hm : S.Modest) : ∃ a hdr o, ∃ l : τ → List ℕ,
    Inv S a hdr o (fun t => .idle (l t)) S.disk S.start.shared ∧
    ∀ t, hdr t < NumSectors ∧ (S.handle t).hdr.Short (S.handle t).length.toNat (l t) ∧
      (S.handle t).hdr.hdrSector = int (hdr t) ∧
      (S.handle t).seekPosition = (S.handle t).seekPosition.toNat := by
  obtain ⟨o, H⟩ := hS.consistent
  obtain ⟨ml, hml, hms⟩ := H.mapFile
  obtain ⟨a, rfl⟩ := List.length_eq_one_iff.mp hms.length
  choose hdr hentry hsame hpos using hS.opened
  have hown : ∀ t, ∃ l, o.own (.entry (S.entry t)) = hdr t :: l ∧ hdr t < NumSectors ∧
      (S.handle t).hdr.Short (S.handle t).length.toNat l := by
    intro t
    obtain ⟨s, l, hs, hown, hlt, -⟩ := H.own_eq (hentry t)
    obtain rfl := Int.ofNat.inj hs
    refine ⟨l, hown, hlt, ?_⟩
    have hlen : (S.disk.header (hdr t)).numBytes = int ((S.handle t).length.toNat : ℕ) := by
      have hnonneg := (H.wellFormed _ _ (hentry t)).nonneg
      rw [OpenFile.length, FileHeader.fileLength, (hsame t).numBytes, Int.toNat_of_nonneg hnonneg,
        int_toInt]
    have h26 := (hm t).1
    simp only [NumDirect] at h26
    exact (H.short (hentry t) hown hlen (by omega)).congr (hsame t).symm
  choose l hown hlt hshort using hown
  refine ⟨a, hdr, o, l, ⟨H.toArranged, hml, fun t => ?_, fun x hx => ?_, ?_, ?_⟩,
    fun t => ⟨hlt t, hshort t, ?_, ?_⟩⟩
  · exact ⟨hown t, (hshort t).short, hentry t, fun m hm => (by cases hm), fun l hl => (by cases hl)⟩
  · rw [H.marked x hx]
    exact ⟨fun h => ⟨h, fun _ => List.not_mem_nil⟩, fun h => h.1⟩
  · intro t t' h
    cases h
  · exact fun _ => rfl
  · rw [(hsame t).hdrSector]
    exact (H.wellFormed _ _ (hentry t)).hdrSector
  · exact (Int.toNat_of_nonneg (hpos t)).symm

/-- Two empty files on a consistent disk, to each of which a thread writes one byte. -/
def twoEmpty (d : Disk) (s t : ℕ) : Setup Bool where
  disk := d
  entry b := bif b then 1 else 0
  handle b := bif b then ⟨t, d.header t, 0⟩ else ⟨s, d.header s, 0⟩
  calls _ := [(fun _ => 0, 1)]

section TwoEmpty

variable {d : Disk} {o : Ownership Disk.Owner ℕ} {s t : ℕ} (H : d.Holds o)
  (hs : o.own (.entry 0) = [s]) (ht : o.own (.entry 1) = [t])

include H hs ht

theorem length_twoEmpty (b : Bool) : ((twoEmpty d s t).handle b).length = 0 := by
  cases b with
  | false => exact (H.opened_empty hs).laid.numBytes_toInt
  | true => exact (H.opened_empty ht).laid.numBytes_toInt

theorem twoEmpty_proper : (twoEmpty d s t).Proper ∧ (twoEmpty d s t).Modest := by
  have A := H.opened_empty hs
  have B := H.opened_empty ht
  refine ⟨⟨⟨o, H⟩, ?_, fun b => ?_⟩, fun b => ?_⟩
  · intro b b' h
    cases b <;> cases b' <;> first | rfl | cases h
  · cases b with
    | false => exact ⟨s, A.entry, .refl _, le_rfl⟩
    | true => exact ⟨t, B.entry, .refl _, le_rfl⟩
  · have hpos : ((twoEmpty d s t).handle b).seekPosition.toNat = 0 := by
      cases b <;> rfl
    rw [length_twoEmpty H hs ht b, hpos]
    refine ⟨by decide, ?_⟩
    show ConcurrentGrowth.Modest 0 0 [(_, 1)]
    rw [Modest, if_neg (by decide)]
    exact ⟨by decide, by decide, trivial⟩

omit H in
theorem twoEmpty_ne : (s : ℤ) ≠ t := by
  intro h
  obtain rfl := Int.ofNat.inj h
  cases o.unique (hs ▸ List.mem_cons_self : s ∈ o.own (.entry 0)) (ht ▸ List.mem_cons_self)

end TwoEmpty

variable [DecidableEq τ]

/-- **Sector ownership stays disjoint** when the files are extended one at a time: no sector is ever
listed twice, and when all writes have finished the stored free map marks what is listed. -/
theorem ownership_disjoint (hS : S.Proper) (hm : S.Modest) {st : State τ}
    (h : (S.system.restrict alone).Reachable st) :
    (Disk.owners.flatMap (disk st).sectorsOf).Nodup ∧ (Finished st → (disk st).Consistent) := by
  obtain ⟨a, hdr, o, l, I, hopened⟩ := hS.exists_inv hm
  have hfollows : ∀ t, ((S.handle t).writes (S.calls t)).Follows (protocol a (hdr t))
      (fun _ v => ∃ l, v = .idle l) (.idle (l t)) := by
    intro t
    obtain ⟨hlt, hshort, hhdr, hpos⟩ := hopened t
    exact WriteProtocol.follows_writes hlt (hm t).2 hshort hhdr hpos
  obtain ⟨vs', ⟨o', I'⟩, hfollows'⟩ := Prog.Follows.invariant
    (J := fun vs d c => ∃ o, Inv S a hdr o vs d c) ⟨o, I⟩ hfollows
    (fun vs d c ⟨o, I⟩ t x => I.sees t x)
    (fun vs d c t c' ⟨o, I⟩ hafter => by rw [after] at hafter; rw [hafter]; exact ⟨o, I⟩)
    (fun st vs t e v c' ⟨o, I⟩ hguard hread hnext hafter => I.next hS.own hguard hread hnext hafter) h
  refine ⟨I'.arranged.nodup, fun hdone => ?_⟩
  have hidle : ∀ t, pending (vs' t) = [] := by
    intro t
    obtain ⟨f, hf⟩ := hdone t
    have hend := hfollows' t
    rw [hf, Prog.Follows.ret_iff] at hend
    obtain ⟨l, hl⟩ := hend
    rw [hl]
    rfl
  refine Disk.Holds.consistent (o := o') ⟨I'.arranged, fun x hx => ?_⟩
  rw [disk, I'.marked x hx]
  simp only [hidle, List.not_mem_nil, not_false_eq_true, implies_true, and_true]

/-! ### A thread that writes alone -/

/-- The number of data sectors that are marked. -/
def taken : View → ℕ
  | .idle l => l.length
  | .opened l => l.length
  | .fetched l _ => l.length
  | .listed l _ _ => l.length

theorem taken_le (v : View) : taken v ≤ (sectors v).length := by
  cases v with
  | listed l added m =>
    rw [sectors, List.length_append]
    exact Nat.le_add_right _ _
  | _ => exact le_rfl

section Alone

variable {a : ℕ} {hdr : τ → ℕ} {o : Ownership Disk.Owner ℕ} {vs : τ → View} {d : Disk} {c : Shared τ}
  {t : τ}

omit [DecidableEq τ] in
/-- A clear sector is lost only when it has become one of the file. -/
theorem Inv.clears_le (I : Inv S a hdr o vs d c) (hnext : WriteProtocol.Next a (hdr t) (vs t) e v)
    {o' : Ownership Disk.Owner ℕ} {vs' : τ → View} (I' : Inv S a hdr o' vs' (e.store d) c') :
    d.freeMap.clears.length + taken (vs t) ≤
      (Disk.freeMap (e.store d)).clears.length + taken v := by
  have hsame : e.store d a = d a → d.freeMap.clears = (Disk.freeMap (e.store d)).clears := by
    intro ha
    refine BitMap.clears_congr rfl fun x hx => ?_
    rw [bit_eq I.arranged I.map hx, bit_eq I'.arranged I'.map hx, ha]
  have hmem : ∀ {x}, x ∈ sectors (vs t) → x ∈ hdr t :: sectors (vs t) := List.mem_cons_of_mem _
  generalize hv : vs t = u at hnext
  cases hnext with
  | @writeData l x hx b =>
    rw [← show sectors (vs t) = l by rw [hv]; rfl] at hx
    rw [hsame (Function.update_of_ne (I.ne_map (hmem hx)).2.symm _ _)]
  | @writeHeader l added m len b hb hs hfree =>
    rw [hsame (Function.update_of_ne (I.ne_map (t := t) List.mem_cons_self).2.symm _ _)]
    exact le_rfl
  | @writeMap l added m b hb =>
    have hsub : d.freeMap.clears ⊆ (Disk.freeMap (Function.update d a b)).clears ++ added := by
      intro x hx
      obtain ⟨hlt, hclear⟩ := BitMap.mem_clears.1 hx
      rw [List.mem_append, or_iff_not_imp_right]
      intro hadd
      refine BitMap.mem_clears.2 ⟨hlt, ?_⟩
      have hmap := (I.thread t).known m (by rw [hv]; rfl) x hlt
      have hbit := bit_eq I'.arranged I'.map hlt
      rw [Event.store, Function.update_self, hb x hlt, hmap, hclear] at hbit
      rw [hbit]
      simpa using hadd
    have hle := (List.subperm_of_subset d.freeMap.clears_nodup hsub).length_le
    rw [List.length_append] at hle
    show d.freeMap.clears.length + l.length ≤ _ + (l ++ added).length
    rw [List.length_append]
    exact (Nat.add_le_add_right hle _).trans (by rw [Event.store]; omega)
  | _ => exact le_rfl

/-- What `WriteAt` keeps while the other threads do nothing. -/
structure Running (S : Setup τ) (a : ℕ) (hdr : τ → ℕ) (vs : τ → View) (t : τ) (room : ℕ)
    (semaphore : ℤ → ℕ) (v : View) (d : Disk) (c : Shared τ) : Prop where
  semaphore : c.readerWtiterSemap = semaphore
  inv : ∃ o, Inv S a hdr o (Function.update vs t v) d c
  room : room ≤ d.freeMap.clears.length + taken v

/-- While there are clear sectors, no step of `WriteAt` has to wait. -/
theorem Running.next {room : ℕ} {semaphore : ℤ → ℕ} (hS : Function.Injective S.entry)
    (hroom : 25 < room) (hidle : ∀ t' ≠ t, isExtending (vs t') = false) {v v' : View}
    (h : Running S a hdr vs t room semaphore v d c) (hsync : ∀ o, e ≠ .sync o)
    (hread : ∀ i b, e = .read i b → b = d i) (hnext : WriteProtocol.Next a (hdr t) v e v')
    (pool : τ → FsProg OpenFile) :
    alone ⟨pool, d, c⟩ (t, e) ∧
      ∃ c', after d c t e c' ∧ Running S a hdr vs t room semaphore v' (e.store d) c' := by
  obtain ⟨o, I⟩ := h.inv
  have hself : Function.update vs t v t = v := Function.update_self _ _ _
  have hguard : alone ⟨pool, d, c⟩ (t, e) := by
    have hclear : 0 < d.freeMap.numClear := by
      have hle := (taken_le _).trans (I.thread t).short
      have hle' := h.room
      rw [hself] at hle
      rw [BitMap.numClear_eq]
      omega
    cases e with
    | read x b =>
      refine fun _ => ⟨fun t' ht => ?_, hclear⟩
      show c.extending t' = false
      rw [I.history, Function.update_of_ne ht]
      exact hidle t' ht
    | _ => trivial
  obtain ⟨c', hafter, hsem⟩ : ∃ c', after d c t e c' ∧ c'.readerWtiterSemap = c.readerWtiterSemap := by
    cases e with
    | read x b =>
      refine ⟨_, rfl, ?_⟩
      split_ifs <;> rfl
    | write x b =>
      refine ⟨_, rfl, ?_⟩
      split_ifs <;> rfl
    | ask => exact ⟨c, rfl, rfl⟩
    | sync o => exact absurd rfl (hsync o)
  rw [← hself] at hnext
  obtain ⟨o', I'⟩ := Inv.next (by exact I) hS hguard hread hnext hafter
  refine ⟨hguard, c', hafter, hsem.trans h.semaphore, ?_, ?_⟩
  · rw [Function.update_idem] at I'
    exact ⟨o', I'⟩
  · have hle := I.clears_le hnext I'
    rw [hself] at hle
    exact h.room.trans hle

/-- **A `Write` returns** when the other threads do nothing and there are clear sectors. -/
theorem exists_run_write (hS : Function.Injective S.entry) (I : Inv S a hdr o vs d c)
    (hidle : ∀ t' ≠ t, isExtending (vs t') = false) (hclears : 25 < d.freeMap.clears.length) {l : List ℕ}
    (hv : vs t = .idle l) {f : OpenFile} {len pos : ℕ} (hlt : hdr t < NumSectors) (hl : f.hdr.Short len l)
    (hhdr : f.hdr.hdrSector = int (hdr t)) (hpos : f.seekPosition = pos) (data : Buf) {n : ℤ}
    (hmodest : 0 < n → sectorsFor (pos + n.toNat) ≤ sectorsFor len + 1 ∧
      sectorsFor (pos + n.toNat) < NumDirect)
    (hfree : 0 < c.readerWtiterSemap f.fileSector) (pool : τ → FsProg OpenFile)
    (k : ℤ × OpenFile → FsProg OpenFile) :
    ∃ f' o' l' d' c', l'.length = sectorsFor (WriteProtocol.lengthAfter len pos n) ∧
      Inv S a hdr o' (Function.update vs t (.idle l')) d' c' ∧
      d.freeMap.clears.length ≤ d'.freeMap.clears.length + 25 ∧
      (∀ s ≠ f.fileSector, c.readerWtiterSemap s ≤ c'.readerWtiterSemap s) ∧
      Relation.ReflTransGen (S.system.restrict alone).Next
        ⟨Function.update pool t (f.write data n >>= k), d, c⟩
        ⟨Function.update pool t (k ((n.toNat : ℕ), f')), d', c'⟩ := by
  have hwrite : f.write data n >>= k = .sync (.writerStart f.fileSector)
      (f.writeAt data n f.seekPosition >>= fun r => .sync (.writerExit r.2.fileSector)
        (k (r.1, { r.2 with seekPosition := r.2.seekPosition + r.1 }))) := by
    rw [OpenFile.write]
    simp only [bind_assoc, pure_bind]
    rfl
  -- `SynchWriterStart`
  have hstart : after d c t (.sync (.writerStart f.fileSector))
      ⟨Function.update c.readerWtiterSemap f.fileSector (c.readerWtiterSemap f.fileSector - 1),
        c.extending⟩ := ⟨hfree, rfl⟩
  have I₁ : Inv S a hdr o (Function.update vs t (.idle l)) d ⟨Function.update c.readerWtiterSemap
      f.fileSector (c.readerWtiterSemap f.fileSector - 1), c.extending⟩ := by
    rw [← hv, Function.update_eq_self]
    exact I.of_extending rfl
  -- `WriteAt`
  have hfollows : (f.writeAt data n f.seekPosition).Follows (protocol a (hdr t))
      (fun r v => r.1 = ((n.toNat : ℕ) : ℤ) ∧ ∃ l', v = .idle l' ∧
        l'.length = sectorsFor (WriteProtocol.lengthAfter len pos n)) (.idle l) := by
    rw [hpos]
    refine WriteProtocol.follows_writeAt hl hlt hhdr hmodest fun f' l' hl' _ _ => ?_
    exact ⟨rfl, l', rfl, hl'.length⟩
  have hroom : 25 < d.freeMap.clears.length + l.length := by omega
  obtain ⟨⟨-, f'⟩, _, d', c', ⟨rfl, l', rfl, hl'⟩, hend, hrun⟩ := exists_run_of_follows S.start
    (J := Running S a hdr vs t (d.freeMap.clears.length + l.length)
      (Function.update c.readerWtiterSemap f.fileSector (c.readerWtiterSemap f.fileSector - 1)))
    (fun v d c h => by
      obtain ⟨o, I⟩ := h.inv
      have hsees := I.sees t
      rwa [Function.update_self] at hsees)
    (fun pool v d c h => ⟨trivial, c, rfl, h⟩)
    (fun pool v d c e v' h hsync hread hnext => h.next hS hroom hidle hsync hread hnext pool)
    (WriteProtocol.silent_writeAtDepth 4 f data n f.seekPosition) hfollows ⟨rfl, ⟨o, I₁⟩, le_rfl⟩
    (fun r => .sync (.writerExit r.2.fileSector)
      (k (r.1, { r.2 with seekPosition := r.2.seekPosition + r.1 }))) pool
  -- `SynchWriterExit`
  obtain ⟨o', I'⟩ := hend.inv
  have hexit : after d' c' t (.sync (.writerExit f'.fileSector))
      ⟨Function.update c'.readerWtiterSemap f'.fileSector (c'.readerWtiterSemap f'.fileSector + 1),
        c'.extending⟩ := rfl
  refine ⟨{ f' with seekPosition := f'.seekPosition + (n.toNat : ℕ) }, o', l', d',
    ⟨Function.update c'.readerWtiterSemap f'.fileSector (c'.readerWtiterSemap f'.fileSector + 1),
      c'.extending⟩, hl', I'.of_extending rfl, ?_, fun s hs => ?_, ?_⟩
  · have hroom' := hend.room
    have hshort := (I'.thread t).short
    rw [Function.update_self] at hshort
    simp only [sectors, taken] at hshort hroom'
    omega
  · have hsem := congrFun hend.semaphore s
    rw [Function.update_of_ne hs] at hsem
    show _ ≤ Function.update c'.readerWtiterSemap _ _ s
    rw [← hsem, Function.update_apply]
    split_ifs with heq
    · rw [heq]
      exact Nat.le_succ _
    · exact le_rfl
  · rw [hwrite]
    refine .head ⟨(t, .sync (.writerStart f.fileSector)), trivial, step_update (.sync _ _) hstart⟩
      (hrun.tail ⟨(t, .sync (.writerExit f'.fileSector)), trivial, ?_⟩)
    exact step_update (.sync _ _) hexit

end Alone

/-- Both writes can return, one after the other. -/
theorem twoEmpty_finishes {d : Disk} {o : Ownership Disk.Owner ℕ} {s t : ℕ} (H : d.Holds o)
    (hs : o.own (.entry 0) = [s]) (ht : o.own (.entry 1) = [t]) (hroom : 51 < d.freeMap.clears.length) :
    ∃ st, ((twoEmpty d s t).system.restrict alone).Reachable st ∧ Finished st ∧
      ∀ b, ((disk st).sectorsOf (.entry ((twoEmpty d s t).entry b))).length = 2 := by
  obtain ⟨hproper, hmodest⟩ := twoEmpty_proper H hs ht
  obtain ⟨a, hdr, o₀, l, I₀, hopened⟩ := hproper.exists_inv hmodest
  have hempty : ∀ b, ((twoEmpty d s t).handle b).hdr.Short 0 (l b) ∧
      ((twoEmpty d s t).handle b).seekPosition = (0 : ℕ) := by
    intro b
    have hshort := (hopened b).2.1
    rw [length_twoEmpty H hs ht b] at hshort
    exact ⟨hshort, by cases b <;> rfl⟩
  have hmodest' : 0 < (1 : ℤ) → sectorsFor (0 + (1 : ℤ).toNat) ≤ sectorsFor 0 + 1 ∧
      sectorsFor (0 + (1 : ℤ).toNat) < NumDirect := fun _ => by decide
  -- first one thread, then the other
  obtain ⟨f₁, o₁, l₁, d₁, c₁, hl₁, I₁, hclears₁, hsem₁, hrun₁⟩ := exists_run_write (t := false) hproper.own
    I₀ (fun _ _ => rfl) (lt_trans (by decide) hroom) rfl (hopened false).1 (hempty false).1
    (hopened false).2.2.1 (hempty false).2 (fun _ => 0) hmodest' one_pos
    (twoEmpty d s t).start.pool fun r => r.2.writes []
  have hroom₁ : 25 < d₁.freeMap.clears.length := by
    change d.freeMap.clears.length ≤ _ at hclears₁
    omega
  obtain ⟨f₂, o₂, l₂, d₂, c₂, hl₂, I₂, -, -, hrun₂⟩ := exists_run_write (t := true) hproper.own
    I₁ (fun b _ => by cases b <;> rfl) hroom₁ rfl (hopened true).1 (hempty true).1
    (hopened true).2.2.1 (hempty true).2 (fun _ => 0) hmodest' (hsem₁ t (twoEmpty_ne hs ht).symm)
    (Function.update (twoEmpty d s t).start.pool false (f₁.writes [])) fun r => r.2.writes []
  have hpool₁ : (twoEmpty d s t).start.pool = Function.update (twoEmpty d s t).start.pool false
      (((twoEmpty d s t).handle false).write (fun _ => 0) 1 >>= fun r => r.2.writes []) :=
    (Function.update_eq_self false _).symm
  have hpool₂ : Function.update (twoEmpty d s t).start.pool false (f₁.writes []) =
      Function.update (Function.update (twoEmpty d s t).start.pool false (f₁.writes [])) true
        (((twoEmpty d s t).handle true).write (fun _ => 0) 1 >>= fun r => r.2.writes []) :=
    (Function.update_eq_self true _).symm
  rw [← hpool₁] at hrun₁
  rw [← hpool₂] at hrun₂
  refine ⟨_, ⟨_, rfl, hrun₁.trans hrun₂⟩, fun b => ?_, fun b => ?_⟩
  · cases b with
    | false => exact ⟨f₁, rfl⟩
    | true => exact ⟨f₂, rfl⟩
  · have hown := I₂.arranged.sectors (.entry ((twoEmpty d s t).entry b))
    rw [(I₂.thread b).own] at hown
    show (Disk.sectorsOf d₂ _).length = 2
    rw [hown, List.length_map, List.length_cons]
    cases b with
    | false => exact congrArg (· + 1) hl₁
    | true => exact congrArg (· + 1) hl₂

/-- Both writes of such a pair have returned, and both files have a sector. -/
theorem ownership_disjoint_finished : ∃ (S : Setup Bool) (st : State Bool), S.Proper ∧ S.Modest ∧
    (S.system.restrict alone).Reachable st ∧ Finished st ∧
    (∀ b, ((disk st).sectorsOf (.entry (S.entry b))).length = 2) ∧
    (Disk.owners.flatMap (disk st).sectorsOf).Nodup ∧ (disk st).Consistent := by
  obtain ⟨d, o, s, t, H, hs, ht, hroom⟩ := FileSystem.exists_files
  obtain ⟨hproper, hmodest⟩ := twoEmpty_proper H hs ht
  obtain ⟨st, hreach, hfinished, hlength⟩ :=
    twoEmpty_finishes H hs ht (lt_of_lt_of_le (by decide) hroom)
  obtain ⟨hnodup, hconsistent⟩ := ownership_disjoint hproper hmodest hreach
  exact ⟨twoEmpty d s t, st, hproper, hmodest, hreach, hfinished, hlength, hnodup,
    hconsistent hfinished⟩

/-! ### Two threads at the same time -/

/-- The part of a `WriteAt` past the end that fetches the free map, -/
def fetchMap : FsProg (BitMap × OpenFile) := do
  let freeMap ← BitMap.newMap NumSectors
  let freeMapFile ← OpenFile.new 0
  freeMap.fetchFrom freeMapFile

/-- the part that enters the new sector in the header, -/
def enterSector (f : OpenFile) (numBytes position : ℤ) (freeMap : BitMap) :
    FsProg (FileHeader × BitMap) := do
  let (_, hdr, freeMap) ←
    f.hdr.extendFile freeMap (wrap (wrap (position + numBytes) - f.hdr.fileLength))
  let hdr ← hdr.writeBack hdr.hdrSector.toInt
  return (hdr, freeMap)

/-- and the rest of the calls. -/
def finish (f : OpenFile) (data : Buf) (numBytes : ℤ) (calls : List (Buf × ℤ)) (file : OpenFile)
    (hdr : FileHeader) (freeMap : BitMap) : FsProg OpenFile := do
  let _ ← OpenFile.writeAtDepth 3 file freeMap.bytes (freeMap.numWords * 4) 0
  let (result, f) ← { f with hdr }.store data numBytes f.seekPosition
  sync (.writerExit f.fileSector)
  OpenFile.writes { f with seekPosition := f.seekPosition + result } calls

theorem exists_writes_eq (f : OpenFile) (data : Buf) {n : ℤ} (calls : List (Buf × ℤ)) (hn : 0 < n)
    (hpast : wrap (f.seekPosition + n) > f.hdr.fileLength) :
    ∃ k : BitMap × OpenFile → FileHeader × BitMap → FsProg OpenFile,
      f.writes ((data, n) :: calls) = .sync (.writerStart f.fileSector) (fetchMap >>= fun r =>
      enterSector f n f.seekPosition r.1 >>= k r) := by
  refine ⟨fun r r' => finish f data n calls r.2 r'.1 r'.2, ?_⟩
  rw [OpenFile.writes, OpenFile.write, OpenFile.writeAt, OpenFile.writeAtDepth, if_neg (by omega),
    if_pos hpast]
  unfold OpenFile.extend fetchMap enterSector finish
  simp only [bind_assoc, pure_bind]
  rfl

theorem silent_fetchMap : fetchMap.Silent :=
  (WriteProtocol.silent_newMap _).bind fun m => (WriteProtocol.silent_new 0).bind fun file =>
    WriteProtocol.silent_fetchFrom m file

theorem silent_enterSector (f : OpenFile) (n position : ℤ) (m : BitMap) :
    (enterSector f n position m).Silent :=
  (WriteProtocol.silent_extendFile _ _ _).bind fun _ =>
    (WriteProtocol.silent_writeBack _ _).bind fun _ => Prog.silent_pure _

theorem wp_fetchMap {d : Disk} {o : Ownership Disk.Owner ℕ} (H : d.Arranged o)
    {Q : BitMap × OpenFile → Disk → Prop} (hQ : ∀ (m : BitMap) file, m.numBits = NumSectors →
      (∀ x < NumSectors, m.bit x = d.freeMap.bit x) → Q (m, file) d) : fetchMap.wp False Q d := by
  obtain ⟨ml, -, hml⟩ := H.mapFile
  unfold fetchMap
  simp only [Prog.wp_do]
  apply BitMap.wp_newMap
  intro m₀ hm₀ _
  apply FileSystem.wp_openFile_new (s := 0) (by decide)
  intro file _ _ hsame
  apply BitMap.wp_fetchFrom hm₀ (hml.congr hsame.symm)
  intro visit m hm hbits
  apply hQ m _ hm
  intro x hx
  rw [hbits x hx, Disk.bit_freeMap hml hx]

/-- The header of an empty file gets the first clear sector of the map. -/
theorem wp_enterSector {d : Disk} {f : OpenFile} {s x : ℕ} {rest : List ℕ} {m : BitMap}
    (hl : f.hdr.Short 0 []) (hs : s < NumSectors) (hhdr : f.hdr.hdrSector = int s)
    (hclears : m.clears = x :: rest) {Q : FileHeader × BitMap → Disk → Prop}
    (hQ : ∀ h m', h.Lists 1 [x] → Q (h, m') (Function.update d s h.toSector)) :
    (enterSector f (1 : ℕ) (0 : ℕ) m).wp False Q d := by
  have hb := hl.numBytes_toInt
  have hbytes : wrap (wrap (((0 : ℕ) : ℤ) + (1 : ℕ)) - f.hdr.fileLength) = ((0 + 1 : ℕ) : ℤ) - (0 : ℕ) := by
    rw [FileHeader.fileLength, hb]
    rfl
  have hsec : (int s).toInt = s := toInt_int_natCast (hs.trans (by decide))
  obtain ⟨m', heq, -, -⟩ := FileHeader.extendFile_eq (m := m) hb hl.numSectors (by decide : 0 < 0 + 1)
    (by decide) (by rw [hclears]; show 1 - 0 ≤ rest.length + 1; omega) (by decide)
  have hnew : FileHeader.newSectors m 0 (0 + 1) = [x] := by
    rw [FileHeader.newSectors, if_neg (by decide), hclears]
    rfl
  rw [hnew] at heq
  unfold enterSector
  rw [hbytes, heq, pure_bind]
  dsimp only
  rw [FileHeader.hdrSector_grown, hhdr, hsec, Prog.wp_do]
  apply FileHeader.wp_writeBack hs
  intro t
  rw [Prog.wp_pure]
  apply hQ
  exact (hl.toLists.grown (x := x) (by decide) (by decide)).congr ⟨by
    rw [FileHeader.hdrSector_grown]
    exact hhdr, rfl, rfl, rfl⟩

/-- The programs of two threads. -/
def pair (p q : FsProg OpenFile) : Bool → FsProg OpenFile
  | false => p
  | true => q

theorem update_pair_false (p p' q : FsProg OpenFile) :
    Function.update (pair p q) false p' = pair p' q := by
  funext b
  cases b <;> rfl

theorem update_pair_true (p q q' : FsProg OpenFile) :
    Function.update (pair p q) true q' = pair p q' := by
  funext b
  cases b <;> rfl

/-- Only a wait for a semaphore can block. -/
theorem exists_after (d : Disk) (c : Shared Bool) (t : Bool) (e : Event ℕ Sector SyncCall)
    (he : ∀ o, e ≠ .sync o) : ∃ c', after d c t e c' := by
  cases e with
  | read x b => exact ⟨_, rfl⟩
  | write x b => exact ⟨_, rfl⟩
  | ask => exact ⟨c, rfl⟩
  | sync o => exact absurd rfl (he o)

section Run

variable {S : Setup Bool} {d : Disk} {rest : List ℕ}

theorem run_fetchMap {o : Ownership Disk.Owner ℕ} (H : d.Arranged o)
    (hclears : d.freeMap.clears = x :: rest) (b : Bool) (pool : Bool → FsProg OpenFile)
    (k : BitMap × OpenFile → FsProg OpenFile) (c : Shared Bool) :
    ∃ m file c', m.clears = x :: rest ∧ Relation.ReflTransGen S.system.Next
      ⟨Function.update pool b (fetchMap >>= k), d, c⟩ ⟨Function.update pool b (k (m, file)), d, c'⟩ := by
  have hwp : fetchMap.wp False (fun r d' => d' = d ∧ r.1.clears = x :: rest) d := by
    apply wp_fetchMap H
    intro m file hm hbits
    refine ⟨rfl, ?_⟩
    rw [← hclears]
    exact BitMap.clears_congr hm hbits
  obtain ⟨⟨m, file⟩, d', hy, rfl, hm⟩ := Prog.exists_yields_of_wp hwp
  obtain ⟨c', hrun⟩ := exists_run_of_yields silent_fetchMap hy (fun d c => exists_after d c b) k pool c
  exact ⟨m, file, c', hm, hrun⟩

theorem run_enterSector {f : OpenFile} {s : ℕ} {m : BitMap} (hl : f.hdr.Short 0 [])
    (hs : s < NumSectors) (hhdr : f.hdr.hdrSector = int s) (hclears : m.clears = x :: rest) (b : Bool)
    (pool : Bool → FsProg OpenFile) (k : FileHeader × BitMap → FsProg OpenFile) (c : Shared Bool) :
    ∃ (h : FileHeader) (m' : BitMap) (c' : Shared Bool), h.Lists 1 [x] ∧
      Relation.ReflTransGen S.system.Next
        ⟨Function.update pool b (enterSector f (1 : ℕ) (0 : ℕ) m >>= k), d, c⟩
        ⟨Function.update pool b (k (h, m')), Function.update d s h.toSector, c'⟩ := by
  have hwp : (enterSector f (1 : ℕ) (0 : ℕ) m).wp False
      (fun r d' => d' = Function.update d s r.1.toSector ∧ r.1.Lists 1 [x]) d := by
    apply wp_enterSector hl hs hhdr hclears
    intro h m' hlists
    exact ⟨rfl, hlists⟩
  obtain ⟨⟨h, m'⟩, d', hy, rfl, hlists⟩ := Prog.exists_yields_of_wp hwp
  obtain ⟨c', hrun⟩ := exists_run_of_yields (silent_enterSector f _ _ m) hy
    (fun d c => exists_after d c b) k pool c
  exact ⟨h, m', c', hlists, hrun⟩

/-- Both threads start their `Write`. -/
theorem run_writerStart {s t : ℤ} (hst : s ≠ t) (p q : FsProg OpenFile) :
    ∃ c, Relation.ReflTransGen S.system.Next
      ⟨pair (.sync (.writerStart s) p) (.sync (.writerStart t) q), d, ⟨fun _ => 1, fun _ => false⟩⟩
      ⟨pair p q, d, c⟩ := by
  have hstep : ∀ (c : Shared Bool) (b : Bool) (u : ℤ) (r : FsProg OpenFile)
      (pool : Bool → FsProg OpenFile), 0 < c.readerWtiterSemap u → S.system.Next
        ⟨Function.update pool b (.sync (.writerStart u) r), d, c⟩
        ⟨Function.update pool b r, d,
          ⟨Function.update c.readerWtiterSemap u (c.readerWtiterSemap u - 1), c.extending⟩⟩ := by
    intro c b u r pool hu
    have hafter : after d c b (.sync (.writerStart u))
        ⟨Function.update c.readerWtiterSemap u (c.readerWtiterSemap u - 1), c.extending⟩ := ⟨hu, rfl⟩
    exact ⟨(b, .sync (.writerStart u)), step_update (.sync (.writerStart u) r) hafter⟩
  have h₀ := hstep ⟨fun _ => 1, fun _ => false⟩ false s p (pair p (.sync (.writerStart t) q)) one_pos
  have h₁ := hstep ⟨Function.update (fun _ => 1) s 0, fun _ => false⟩ true t q (pair p q)
    (by dsimp only; rw [Function.update_of_ne hst.symm]; exact one_pos)
  rw [update_pair_false, update_pair_false] at h₀
  rw [update_pair_true, update_pair_true] at h₁
  exact ⟨_, .head h₀ (.single h₁)⟩

end Run

/-- Both threads fetch the free map before one of them has stored it, so both enter its first clear
sector in their header. -/
theorem twoEmpty_reachable {d : Disk} {o : Ownership Disk.Owner ℕ} {s t x : ℕ} {rest : List ℕ}
    (H : d.Holds o) (hs : o.own (.entry 0) = [s]) (ht : o.own (.entry 1) = [t])
    (hclears : d.freeMap.clears = x :: rest) :
    ∃ (h₀ h₁ : FileHeader) (pool : Bool → FsProg OpenFile) (c : Shared Bool),
      h₀.Lists 1 [x] ∧ h₁.Lists 1 [x] ∧ (twoEmpty d s t).system.Reachable
        ⟨pool, Function.update (Function.update d s h₀.toSector) t h₁.toSector, c⟩ := by
  have A := H.opened_empty hs
  have B := H.opened_empty ht
  have hshort : ∀ {i s}, d.Opened o i s [] 0 ⟨s, d.header s, 0⟩ → (d.header s).Short 0 [] :=
    fun A => H.short A.entry A.own A.laid.numBytes (by decide)
  have hhdr : ∀ {i s}, d.Opened o i s [] 0 ⟨s, d.header s, 0⟩ → (d.header s).hdrSector = int s :=
    fun A => (H.wellFormed _ _ A.entry).hdrSector
  have hst := twoEmpty_ne hs ht
  have hprog : ∀ {i s}, d.Opened o i s [] 0 ⟨s, d.header s, 0⟩ →
      ∃ k : BitMap × OpenFile → FileHeader × BitMap → FsProg OpenFile,
        OpenFile.writes ⟨s, d.header s, 0⟩ [(fun _ => 0, 1)] = .sync (.writerStart s)
          (fetchMap >>= fun r => enterSector ⟨s, d.header s, 0⟩ (1 : ℕ) (0 : ℕ) r.1 >>= k r) := by
    intro i s A
    apply exists_writes_eq _ _ [] one_pos
    rw [FileHeader.fileLength, A.laid.numBytes_toInt]
    show wrap (0 + 1) > 0
    decide
  obtain ⟨k₀, hk₀⟩ := hprog A
  obtain ⟨k₁, hk₁⟩ := hprog B
  have hpool : (twoEmpty d s t).start = ⟨pair (OpenFile.writes ⟨s, d.header s, 0⟩ [(fun _ => 0, 1)])
      (OpenFile.writes ⟨t, d.header t, 0⟩ [(fun _ => 0, 1)]), d, ⟨fun _ => 1, fun _ => false⟩⟩ := by
    have hpair : (fun b => ((twoEmpty d s t).handle b).writes ((twoEmpty d s t).calls b))
        = pair (OpenFile.writes ⟨s, d.header s, 0⟩ [(fun _ => 0, 1)])
          (OpenFile.writes ⟨t, d.header t, 0⟩ [(fun _ => 0, 1)]) := by
      funext b
      cases b with
      | false => rfl
      | true => rfl
    rw [Setup.start, hpair]
    rfl
  rw [hk₀, hk₁] at hpool
  -- each thread in turn fetches the map, then each in turn enters the sector
  obtain ⟨c₁, hrun₁⟩ := run_writerStart (S := twoEmpty d s t) (d := d) hst
    (fetchMap >>= fun r => enterSector ⟨s, d.header s, 0⟩ (1 : ℕ) (0 : ℕ) r.1 >>= k₀ r)
    (fetchMap >>= fun r => enterSector ⟨t, d.header t, 0⟩ (1 : ℕ) (0 : ℕ) r.1 >>= k₁ r)
  obtain ⟨m₀, file₀, c₂, hm₀, hrun₂⟩ := run_fetchMap (S := twoEmpty d s t) H.toArranged hclears false
    (pair (.abort) (fetchMap >>= fun r => enterSector ⟨t, d.header t, 0⟩ (1 : ℕ) (0 : ℕ) r.1 >>= k₁ r))
    (fun r => enterSector ⟨s, d.header s, 0⟩ (1 : ℕ) (0 : ℕ) r.1 >>= k₀ r) c₁
  obtain ⟨m₁, file₁, c₃, hm₁, hrun₃⟩ := run_fetchMap (S := twoEmpty d s t) H.toArranged hclears true
    (pair (enterSector ⟨s, d.header s, 0⟩ (1 : ℕ) (0 : ℕ) m₀ >>= k₀ (m₀, file₀)) .abort)
    (fun r => enterSector ⟨t, d.header t, 0⟩ (1 : ℕ) (0 : ℕ) r.1 >>= k₁ r) c₂
  obtain ⟨h₀, m₀', c₄, hl₀, hrun₄⟩ := run_enterSector (S := twoEmpty d s t) (d := d)
    (f := ⟨s, d.header s, 0⟩) (hshort A) A.lt_numSectors (hhdr A) hm₀ false
    (pair .abort (enterSector ⟨t, d.header t, 0⟩ (1 : ℕ) (0 : ℕ) m₁ >>= k₁ (m₁, file₁)))
    (k₀ (m₀, file₀)) c₃
  obtain ⟨h₁, m₁', c₅, hl₁, hrun₅⟩ := run_enterSector (S := twoEmpty d s t)
    (d := Function.update d s h₀.toSector) (f := ⟨t, d.header t, 0⟩) (hshort B) B.lt_numSectors (hhdr B)
    hm₁ true (pair (k₀ (m₀, file₀) (h₀, m₀')) .abort) (k₁ (m₁, file₁)) c₄
  rw [update_pair_false, update_pair_false] at hrun₂ hrun₄
  rw [update_pair_true, update_pair_true] at hrun₃ hrun₅
  exact ⟨h₀, h₁, _, c₅, hl₀, hl₁, _, hpool.symm, hrun₁.trans (hrun₂.trans (hrun₃.trans (hrun₄.trans hrun₅)))⟩

theorem mem_sectorsOf {d : Disk} {w : Disk.Owner} {s x : ℕ} (hs : d.headerSector w = some (s : ℤ))
    (hl : (d.header s).Lists 1 [x]) (hx : x < NumSectors) : (x : ℤ) ∈ d.sectorsOf w := by
  rw [Disk.sectorsOf, hs, Option.elim_some, hl.listed_eq (show 1 ≤ 26 by decide) (by simpa using hx)]
  simp

/-- **A sector can be listed in two headers**, when two threads extend their files at the same time. -/
theorem sector_listed_twice : ∃ (S : Setup Bool) (st : State Bool), S.Proper ∧ S.Modest ∧
    S.system.Reachable st ∧ ¬ (Disk.owners.flatMap (disk st).sectorsOf).Nodup := by
  obtain ⟨d, o, s, t, H, hs, ht, hroom⟩ := FileSystem.exists_files
  obtain ⟨hproper, hmodest⟩ := twoEmpty_proper H hs ht
  obtain ⟨x, rest, hclears⟩ := List.exists_cons_of_length_pos (lt_of_lt_of_le (by decide) hroom)
  obtain ⟨h₀, h₁, pool, c, hl₀, hl₁, hreach⟩ := twoEmpty_reachable H hs ht hclears
  refine ⟨twoEmpty d s t, _, hproper, hmodest, hreach, fun hnd => ?_⟩
  have A := H.opened_empty hs
  have B := H.opened_empty ht
  have hst : s ≠ t := fun h => twoEmpty_ne hs ht (congrArg _ h)
  have hx : x < NumSectors :=
    (BitMap.mem_clears.mp (hclears ▸ List.mem_cons_self : x ∈ d.freeMap.clears)).1
  set d₂ : Disk := Function.update (Function.update d s h₀.toSector) t h₁.toSector with hd₂
  -- the directory is where it was
  have hkeep : ∀ y ∈ o.own .directory, d₂ y = d y := by
    intro y hy
    rw [hd₂, Function.update_of_ne, Function.update_of_ne]
    · rintro rfl
      cases o.unique (A.held List.mem_cons_self) hy
    · rintro rfl
      cases o.unique (B.held List.mem_cons_self) hy
  obtain ⟨-, htable⟩ := H.table_congr hkeep
  have hentry : ∀ i, d₂.headerSector (.entry i) = d.headerSector (.entry i) := by
    intro i
    rw [Disk.headerSector, Disk.headerSector, htable i i.isLt]
  -- and both headers list `x`
  have hmem₀ : (x : ℤ) ∈ d₂.sectorsOf (.entry 0) := by
    refine mem_sectorsOf ((hentry 0).trans A.entry) ?_ hx
    rw [Disk.header, Int.toNat_natCast, hd₂, Function.update_of_ne hst, Function.update_self,
      FileHeader.ofSector_toSector]
    exact hl₀
  have hmem₁ : (x : ℤ) ∈ d₂.sectorsOf (.entry 1) := by
    refine mem_sectorsOf ((hentry 1).trans B.entry) ?_ hx
    rw [Disk.header, Int.toNat_natCast, hd₂, Function.update_self, FileHeader.ofSector_toSector]
    exact hl₁
  have hdisj := (List.nodup_flatMap.mp hnd).2
  exact List.pairwise_iff_getElem.mp hdisj 2 3 (by decide) (by decide) (by decide) hmem₀ hmem₁

end ConcurrentGrowth

end Nachos
