import Nachos.Filesys.SynchDisk

/-!
## The cached disk against a plain array of sectors

A plain array of sectors (`plain`) is what callers of `SynchDisk` expect.  A cache entry is
*coherent* when it holds what the disk holds.  `ReadSector` keeps all entries coherent; `WriteSector`
does not look at them, so it leaves an entry for the sector it writes stale unless it writes what
was already there.  From a cold cache, reads agree with the plain array at every point of a run
exactly when no write of the run meets a cached copy of other data (`refines_plain_iff`).
-/

namespace Nachos.SynchDisk

/-- The array of sectors after a sequence of calls. -/
def plain (disk : Disk) : List Call → Disk
  | [] => disk
  | .read _ :: cs => plain disk cs
  | .write s data :: cs => plain (Function.update disk s.toNat data) cs

/-- What a `ReadSector(s)` returns after the calls `cs`. -/
def readAfter (sd : SynchDisk) (cs : List Call) (s : ℤ) : Option Sector :=
  (sd.calls cs).bind fun sd' => (sd'.readSector s).map Prod.fst

/-- Entry `i` is in use for sector `s`. -/
abbrev Holds (sd : SynchDisk) (i : Fin 4) (s : ℤ) : Prop :=
  (sd.cache i).valid = 1 ∧ (sd.cache i).sector = s

/-- No sector has two entries. -/
def Distinct (sd : SynchDisk) : Prop := ∀ s i j, sd.Holds i s → sd.Holds j s → i = j

/-- Every entry holds what the disk holds. -/
def Coherent (sd : SynchDisk) : Prop :=
  ∀ s i, sd.Holds i s → 0 ≤ s ∧ (sd.cache i).data = sd.disk s.toNat

/-! ### Lookup -/

variable {s : ℤ} {data : Sector} {sd sd' : SynchDisk} {c : Call} {cs : List Call}

theorem find_eq_none_iff {sd : SynchDisk} : sd.find s = none ↔ ∀ i, ¬ sd.Holds i s := by
  simp [find, List.find?_eq_none]

theorem holds_of_find {sd : SynchDisk} {i : Fin 4} (h : sd.find s = some i) : sd.Holds i s := by
  simpa using List.find?_some h

theorem holds_load_iff {sd : SynchDisk} {s s' : ℤ} {i : Fin 4} :
    (sd.load s data).Holds i s' ↔ if i = sd.fiFoPointer then s = s' else sd.Holds i s' := by
  by_cases hi : i = sd.fiFoPointer
  · subst hi
    simp [load, Holds]
  · simp [load, Holds, hi]

theorem load_data {sd : SynchDisk} (i : Fin 4) :
    ((sd.load s data).cache i).data =
      if i = sd.fiFoPointer then data else (sd.cache i).data := by
  by_cases hi : i = sd.fiFoPointer
  · subst hi
    simp [load]
  · simp [load, hi]

/-! ### One call -/

/-- A read returns a cached copy and changes nothing, or fetches the sector and loads it. -/
theorem readSector_cases (h : sd.readSector s = some (data, sd')) :
    (∃ i, sd.Holds i s ∧ data = (sd.cache i).data ∧ sd' = sd) ∨
      ((∀ i, ¬ sd.Holds i s) ∧ Disk.InRange s ∧ data = sd.disk s.toNat ∧ sd' = sd.load s data) := by
  unfold readSector at h
  split at h
  case h_1 hfind =>
    by_cases hs : Disk.InRange s
    · simp only [Disk.readRequest, if_pos hs] at h
      obtain ⟨rfl, rfl⟩ := Prod.mk.inj (Option.some.inj h)
      exact Or.inr ⟨find_eq_none_iff.mp hfind, hs, rfl, rfl⟩
    · simp [Disk.readRequest, if_neg hs] at h
  case h_2 i hfind =>
    obtain ⟨rfl, rfl⟩ := Prod.mk.inj (Option.some.inj h)
    exact Or.inl ⟨i, holds_of_find hfind, rfl, rfl⟩

theorem writeSector_cases (h : sd.writeSector s data = some sd') :
    Disk.InRange s ∧ sd' = { sd with disk := Function.update sd.disk s.toNat data } := by
  unfold writeSector at h
  by_cases hs : Disk.InRange s
  · simp only [Disk.writeRequest, if_pos hs] at h
    exact ⟨hs, (Option.some.inj h).symm⟩
  · simp [Disk.writeRequest, if_neg hs] at h

theorem exists_readSector (sd : SynchDisk) (hs : Disk.InRange s) :
    ∃ data sd', sd.readSector s = some (data, sd') := by
  unfold readSector
  split
  · exact ⟨_, _, by simp only [Disk.readRequest, if_pos hs]; rfl⟩
  · exact ⟨_, _, rfl⟩

theorem exists_call (sd : SynchDisk) (hc : Disk.InRange c.sector) : ∃ sd', sd.call c = some sd' := by
  cases c with
  | read s =>
    obtain ⟨data, sd', h⟩ := sd.exists_readSector hc
    exact ⟨sd', by simp [call, h]⟩
  | write s data =>
    exact ⟨_, by simp only [call, writeSector, Disk.writeRequest, if_pos hc]; rfl⟩

theorem call_read (h : sd.call (.read s) = some sd') : ∃ data, sd.readSector s = some (data, sd') := by
  obtain ⟨⟨data, sd''⟩, hread, rfl⟩ := Option.map_eq_some_iff.mp h
  exact ⟨data, hread⟩

/-- A call does to the disk what it does to the plain array. -/
theorem call_disk (h : sd.call c = some sd') : sd'.disk = plain sd.disk [c] := by
  cases c with
  | read s =>
    obtain ⟨data, hread⟩ := call_read h
    rcases readSector_cases hread with ⟨i, -, -, rfl⟩ | ⟨-, -, -, rfl⟩ <;> rfl
  | write s data =>
    obtain ⟨-, rfl⟩ := writeSector_cases h
    rfl

/-- A sector is loaded only when no entry holds it. -/
theorem Distinct.call (hd : sd.Distinct) (h : sd.call c = some sd') : sd'.Distinct := by
  cases c with
  | read s =>
    obtain ⟨data, hread⟩ := call_read h
    rcases readSector_cases hread with ⟨i, -, -, rfl⟩ | ⟨hnone, -, -, rfl⟩
    · exact hd
    · intro s' i j hi hj
      rw [holds_load_iff] at hi hj
      split_ifs at hi hj with h1 h2 h2
      · rw [h1, h2]
      · exact absurd hj (hi ▸ hnone j)
      · exact absurd hi (hj ▸ hnone i)
      · exact hd s' i j hi hj
  | write s data =>
    obtain ⟨-, rfl⟩ := writeSector_cases h
    exact hd

/-- A read keeps the entries coherent, and so does a write of the data every entry for its sector
already holds. -/
theorem Coherent.call (hc : sd.Coherent) (h : sd.call c = some sd')
    (hwrite : ∀ s data, c = .write s data → ∀ i, sd.Holds i s → (sd.cache i).data = data) :
    sd'.Coherent := by
  cases c with
  | read s =>
    obtain ⟨data, hread⟩ := call_read h
    rcases readSector_cases hread with ⟨i, -, -, rfl⟩ | ⟨-, hs, rfl, rfl⟩
    · exact hc
    · intro s' i hi
      rw [holds_load_iff] at hi
      rw [load_data]
      split_ifs at hi ⊢ with h1
      · exact ⟨hi ▸ hs.1, by rw [← hi]; rfl⟩
      · exact hc s' i hi
  | write s data =>
    obtain ⟨hs, rfl⟩ := writeSector_cases h
    intro s' i hi
    obtain ⟨hnonneg, hdata⟩ := hc s' i hi
    refine ⟨hnonneg, ?_⟩
    show (sd.cache i).data = Function.update sd.disk s.toNat data s'.toNat
    by_cases hss : s' = s
    · subst hss
      rw [Function.update_self]
      exact hwrite s' data rfl i hi
    · rw [Function.update_of_ne (by have := hs.1; omega)]
      exact hdata

/-- With coherent entries a read returns what the disk holds. -/
theorem Coherent.readSector {sd : SynchDisk} (hc : sd.Coherent) (hs : Disk.InRange s) :
    (sd.readSector s).map Prod.fst = some (sd.disk s.toNat) := by
  obtain ⟨data, sd', h⟩ := sd.exists_readSector hs
  rw [h]
  rcases readSector_cases h with ⟨i, hi, rfl, -⟩ | ⟨-, -, rfl, -⟩
  · exact congrArg some (hc s i hi).2
  · rfl

/-! ### Runs -/

theorem calls_append (sd : SynchDisk) (cs cs' : List Call) :
    sd.calls (cs ++ cs') = (sd.calls cs).bind fun sd' => sd'.calls cs' := by
  induction cs generalizing sd with
  | nil => rfl
  | cons c cs ih =>
    simp only [List.cons_append, calls, Option.bind_assoc]
    congr 1
    funext sd'
    exact ih sd'

theorem plain_append (disk : Disk) (cs cs' : List Call) :
    plain disk (cs ++ cs') = plain (plain disk cs) cs' := by
  induction cs generalizing disk with
  | nil => rfl
  | cons c cs ih =>
    cases c with
    | read s => exact ih disk
    | write s data => exact ih _

theorem exists_calls (sd : SynchDisk) (hcs : ∀ c ∈ cs, Disk.InRange c.sector) :
    ∃ sd', sd.calls cs = some sd' := by
  induction cs generalizing sd with
  | nil => exact ⟨sd, rfl⟩
  | cons c cs ih =>
    obtain ⟨sd₁, h₁⟩ := sd.exists_call (hcs c List.mem_cons_self)
    obtain ⟨sd₂, h₂⟩ := ih sd₁ (fun c' hc' => hcs c' (List.mem_cons_of_mem c hc'))
    exact ⟨sd₂, by simp [calls, h₁, h₂]⟩

theorem calls_cons (h : sd.calls (c :: cs) = some sd') :
    ∃ sd₁, sd.call c = some sd₁ ∧ sd₁.calls cs = some sd' :=
  Option.bind_eq_some_iff.mp h

theorem calls_disk (h : sd.calls cs = some sd') : sd'.disk = plain sd.disk cs := by
  induction cs generalizing sd with
  | nil =>
    obtain rfl := Option.some.inj h
    rfl
  | cons c cs ih =>
    obtain ⟨sd₁, h₁, h₂⟩ := calls_cons h
    rw [ih h₂, call_disk h₁, ← plain_append]
    rfl

theorem Distinct.calls (hd : sd.Distinct) (h : sd.calls cs = some sd') : sd'.Distinct := by
  induction cs generalizing sd with
  | nil =>
    obtain rfl := Option.some.inj h
    exact hd
  | cons c cs ih =>
    obtain ⟨sd₁, h₁, h₂⟩ := calls_cons h
    exact ih (hd.call h₁) h₂

/-- The writes of `cs` meet no cached copy of other data. -/
def WritesFresh (sd : SynchDisk) (cs : List Call) : Prop :=
  ∀ before s data after, cs = before ++ .write s data :: after →
    ∀ sd', sd.calls before = some sd' → ∀ i, sd'.Holds i s → (sd'.cache i).data = data

theorem WritesFresh.of_append {sd : SynchDisk} {cs cs' : List Call}
    (h : sd.WritesFresh (cs ++ cs')) : sd.WritesFresh cs := by
  intro before s data after heq
  refine h before s data (after ++ cs') ?_
  rw [heq, List.append_assoc]
  rfl

theorem Coherent.calls (hc : sd.Coherent) (hfresh : sd.WritesFresh cs) (h : sd.calls cs = some sd') :
    sd'.Coherent := by
  induction cs generalizing sd with
  | nil =>
    obtain rfl := Option.some.inj h
    exact hc
  | cons c cs ih =>
    obtain ⟨sd₁, h₁, h₂⟩ := calls_cons h
    refine ih (hc.call h₁ ?_) ?_ h₂
    · rintro s data rfl
      exact hfresh [] s data cs rfl sd rfl
    · intro before s data after heq sd₂ hsd₂
      refine hfresh (c :: before) s data after (by rw [heq]; rfl) sd₂ ?_
      rw [SynchDisk.calls, h₁]
      exact hsd₂

/-- **The cached disk is a plain array of sectors** at every point of a run from a cold cache
exactly when each write finds no cached copy of its sector, or one with the data it writes. -/
theorem refines_plain_iff (disk : Disk) (cache : Fin 4 → Cache) (fiFoPointer : Fin 4)
    (hcold : ∀ i, (cache i).valid ≠ 1) (cs : List Call)
    (hcs : ∀ c ∈ cs, Disk.InRange c.sector) :
    (∀ before after, cs = before ++ after → ∀ s, Disk.InRange s →
      readAfter ⟨disk, cache, fiFoPointer⟩ before s = some (plain disk before s.toNat)) ↔
    WritesFresh ⟨disk, cache, fiFoPointer⟩ cs := by
  have hnone : ∀ s i, ¬ Holds ⟨disk, cache, fiFoPointer⟩ i s := fun s i hi => hcold i hi.1
  constructor
  · intro hreads before s data after heq sd hsd i hi
    have hdist : sd.Distinct := Distinct.calls (fun s i _ hi => absurd hi (hnone s i)) hsd
    have hs : Disk.InRange s := hcs (.write s data) (by rw [heq]; simp)
    -- a read right after the write is served from entry `i`, so that entry holds `data`
    have hread := hreads (before ++ [.write s data]) after (by rw [heq]; simp) s hs
    obtain ⟨sd', hsd'⟩ := sd.exists_call (c := .write s data) hs
    obtain ⟨-, hcache⟩ := writeSector_cases hsd'
    have hi' : sd'.Holds i s := by rw [hcache]; exact hi
    obtain ⟨out, sd'', hout⟩ := sd'.exists_readSector hs
    rw [readAfter, calls_append, hsd, Option.bind_some, calls, hsd', Option.bind_some, calls,
      Option.bind_some, hout, plain_append] at hread
    have hlast : out = data := by
      simpa [plain] using hread
    rcases readSector_cases hout with ⟨j, hj, rfl, -⟩ | ⟨hmiss, -⟩
    · have hij : j = i := hdist s j i (by rw [hcache] at hj; exact hj) hi
      rw [← hlast, hij, hcache]
    · exact absurd hi' (hmiss i)
  · rintro hfresh before after rfl s hs
    have hbefore : ∀ c ∈ before, Disk.InRange c.sector :=
      fun c hc => hcs c (List.mem_append_left after hc)
    obtain ⟨sd, hsd⟩ := exists_calls ⟨disk, cache, fiFoPointer⟩ hbefore
    have hcoh : sd.Coherent :=
      Coherent.calls (fun s i hi => absurd hi (hnone s i)) hfresh.of_append hsd
    rw [readAfter, hsd, Option.bind_some, hcoh.readSector hs, calls_disk hsd]

/-- A blank disk with a cold cache. -/
def blank : SynchDisk := ⟨fun _ _ => 0, fun _ => ⟨0, 0, fun _ => 0⟩, 0⟩

/-- Sector `6` is written while only sector `5` is cached, and reads return the new data. -/
theorem refines_plain_iff_uncached_write :
    readAfter blank [.read 5, .write 6 fun _ => 1] 6 = some fun _ => 1 := by
  refine (refines_plain_iff _ _ _ (fun _ => by decide) [.read 5, .write 6 fun _ => 1]
    ?_).mpr ?_ [.read 5, .write 6 fun _ => 1] [] rfl 6 (by decide)
  · intro c hc
    rcases List.mem_pair.mp hc with rfl | rfl
    · show Disk.InRange 5
      decide
    · show Disk.InRange 6
      decide
  intro before s data after heq sd hsd i hi
  -- the write comes after one read, which has cached sector `5` alone
  rcases before with _ | ⟨c, _ | ⟨c', before⟩⟩
  · cases heq
  · obtain ⟨rfl, hrest⟩ := List.cons.inj heq
    obtain ⟨hw, -⟩ := List.cons.inj hrest
    obtain ⟨rfl, -⟩ := Call.write.inj hw
    obtain rfl := Option.some.inj hsd
    exact absurd hi ((show ∀ i, ¬ (blank.load 5 fun _ => 0).Holds i 6 by decide) i)
  · simp at heq

/-- `ReadSector(5)`, `WriteSector(5, data)`, `ReadSector(5)`: the second read is served from the
entry the first one loaded. -/
theorem stale_read :
    readAfter blank [.read 5, .write 5 fun _ => 1] 5 = some (fun _ => 0) ∧
    plain blank.disk [.read 5, .write 5 fun _ => 1] 5 = (fun _ => 1) ∧
    readAfter blank [.read 5, .write 5 fun _ => 1] 5 ≠
      some (plain blank.disk [.read 5, .write 5 fun _ => 1] 5) := by
  have hread : readAfter blank [.read 5, .write 5 fun _ => 1] 5 = some (fun _ => 0) := rfl
  have hplain : plain blank.disk [.read 5, .write 5 fun _ => 1] 5 = (fun _ => 1) := rfl
  refine ⟨hread, hplain, ?_⟩
  rw [hread, hplain]
  intro h
  have h0 := congrFun (Option.some.inj h) 0
  revert h0
  decide

end Nachos.SynchDisk
