import Nachos.Userprog.Equiv.Exception
import Nachos.Userprog.Paging

/-!
# The page table is sound

Every step keeps the page table well mapped, and what is mapped stays mapped to the same frame.  So
the translation of an address never changes, and different addresses, of one thread or of two, are
never translated to the same physical address.
-/

namespace Nachos

namespace Machine

variable {m m' : Machine} {pid : ℤ} {a : CInt} {size : ℕ} {writing : Bool}

/-- What is mapped in `m` is mapped to the same frame in `m'`. -/
def MapsIn (m m' : Machine) : Prop :=
  ∀ pid v j, j < NumPhysPages → m.fits pid v j = true → m'.fits pid v j = true

theorem WellMapped.of_memory (h : m.WellMapped) (b : Buf) :
    ({ m with mainMemory := b } : Machine).WellMapped :=
  ⟨h.numBits, h.valid_iff, h.physical, h.unique, h.writable⟩

theorem entryFor_of_pageFault
    (h : m.translate pid a size writing = some (.error .pageFaultException)) :
    m.entryFor pid (vpn a) = none := by
  unfold translate at h
  split at h
  · cases h
  split at h
  · assumption
  · dsimp only at h
    split_ifs at h <;> cases h

/-- The first half of the handler, after a page fault. -/
theorem allocatePage_mapsIn {f : ℕ} (h : m.WellMapped) (halloc : m.allocatePage pid a = some (f, m')) :
    m.MapsIn m' := by
  intro pid' v j hj hfits
  rw [fits_allocatePage halloc]
  have hne : j ≠ f := by
    rintro rfl
    have hbit := (h.valid_iff j hj).1 (fits_iff.1 hfits).2.1
    rw [(allocatePage_eq halloc).2.1] at hbit
    cases hbit
  rwa [if_neg hne]

end Machine

namespace Paging

open Machine

variable {s s' : State} {m m' : Machine} {pid : ℤ} {access : Access} {result : Option CInt}
  {physicalAddress : ℕ}

theorem perform_eq (h : perform m physicalAddress access = some (result, m')) :
    (access.size = 1 ∨ access.size = 2 ∨ access.size = 4) ∧
      m' = { m with mainMemory := m'.mainMemory } := by
  cases access with
  | read addr size =>
    obtain ⟨value, hvalue, heq⟩ := Option.map_eq_some_iff.1 h
    cases heq
    refine ⟨?_, rfl⟩
    unfold readValue at hvalue
    split at hvalue
    · exact Or.inl rfl
    · exact Or.inr (Or.inl rfl)
    · exact Or.inr (Or.inr rfl)
    · cases hvalue
  | write addr size value =>
    obtain ⟨m₁, hm₁, heq⟩ := Option.map_eq_some_iff.1 h
    cases heq
    unfold writeValue at hm₁
    split_ifs at hm₁ with hsize
    cases hm₁
    exact ⟨hsize, rfl⟩

theorem exists_perform (hsize : access.size = 1 ∨ access.size = 2 ∨ access.size = 4) (m : Machine)
    (p : ℕ) : ∃ result m', perform m p access = some (result, m') := by
  cases access with
  | read a size => rcases hsize with rfl | rfl | rfl <;> exact ⟨_, _, rfl⟩
  | write a size v =>
    have hvalue : m.writeValue p v size = some _ := if_pos hsize
    unfold perform
    dsimp only
    rw [hvalue]
    exact ⟨_, _, rfl⟩

/-- The end of an access only sets bits of an entry, and changes memory. -/
theorem access_end (h : m.WellMapped) {m₁ m₂ : Machine}
    (htranslate : translate m pid access = some (.ok (physicalAddress, m₁)))
    (hperform : perform m₁ physicalAddress access = some (result, m₂)) :
    m₂.WellMapped ∧ m.MapsIn m₂ := by
  obtain ⟨hsize, hm₂⟩ := perform_eq hperform
  unfold translate at htranslate
  rw [h.translate_eq hsize] at htranslate
  split at htranslate
  · cases htranslate
  split at htranslate <;> cases htranslate
  rw [hm₂]
  refine ⟨(h.touch _ _).of_memory _, ?_⟩
  intro pid' v j _ hfits
  rw [← fits_touch] at hfits
  exact hfits

theorem step_mapped {file : File} {e : Event} (h : s.machine.WellMapped)
    (hstep : Step file s e s') : s'.machine.WellMapped ∧ s.machine.MapsIn s'.machine := by
  cases hstep with
  | hit hidle htranslate hperform => exact access_end h htranslate hperform
  | fault hidle htranslate hallocate =>
    refine ⟨h.allocatePage (entryFor_of_pageFault htranslate) hallocate, ?_⟩
    exact allocatePage_mapsIn h hallocate
  | served hserving hload htranslate hperform =>
    rw [loadPage_eq hload] at htranslate
    obtain ⟨hmapped, hkeep⟩ := access_end (h.of_memory _) htranslate hperform
    exact ⟨hmapped, hkeep⟩
  | failed hserving hload htranslate =>
    rw [loadPage_eq hload]
    exact ⟨h.of_memory _, fun _ _ _ _ hfits => hfits⟩

variable {garbage : ℕ → BitVec 32} {files : File → Prop}

theorem wellMapped_of_reachable (h : (system garbage files).Reachable s) :
    s.machine.WellMapped := by
  apply @Transition.System.Reachable.invariant _ _ _ (fun s => s.machine.WellMapped) _ h
  · rintro _ rfl
    exact .new garbage
  · rintro s e s' hs ⟨file, -, hstep⟩
    exact (step_mapped hs hstep).1

/-- Whole runs keep what is mapped. -/
theorem run_mapped (h : s.machine.WellMapped)
    (hrun : Relation.ReflTransGen (system garbage files).Next s s') :
    s'.machine.WellMapped ∧ s.machine.MapsIn s'.machine := by
  induction hrun with
  | refl => exact ⟨h, fun _ _ _ _ hfits => hfits⟩
  | tail _ hnext ih =>
    obtain ⟨e, file, -, hstep⟩ := hnext
    obtain ⟨hmapped, hkeep⟩ := step_mapped ih.1 hstep
    exact ⟨hmapped, fun pid v j hj hfits => hkeep pid v j hj (ih.2 pid v j hj hfits)⟩

end Paging

namespace Machine

variable {m m' : Machine} {pid pid' : ℤ} {a a' : CInt} {size size' : ℕ} {writing writing' : Bool}
  {p p' : ℕ}

/-- A successful translation comes from an entry. -/
theorem WellMapped.translate_ok_iff (h : m.WellMapped) :
    m.translate pid a size writing = some (.ok (p, m')) ↔
      ∃ j < NumPhysPages, m.fits pid (vpn a) j = true ∧ misaligned a size = false ∧
        p = j * PageSize + a.toNat % PageSize ∧ p + size ≤ MemorySize ∧ m' = m.touch j writing := by
  unfold translate
  by_cases haligned : misaligned a size = true
  · simp [haligned]
  rw [if_neg haligned]
  cases hentry : m.entryFor pid (vpn a) with
  | none =>
    simp only [Option.some.injEq, reduceCtorEq, false_iff, not_exists, not_and]
    intro j hj hfits
    rw [entryFor_eq_none hentry hj] at hfits
    cases hfits
  | some j =>
    obtain ⟨hj, hfits⟩ := entryFor_eq_some hentry
    have hphysical := h.physical j hj (fits_iff.1 hfits).2.1
    dsimp only
    rw [if_neg (by simp [h.writable j hj]), hphysical, if_neg (by omega), toNat_offset]
    constructor
    · intro htranslate
      split_ifs at htranslate with hle
      cases htranslate
      exact ⟨j, hj, hfits, by simpa using haligned, rfl, hle, rfl⟩
    · rintro ⟨j', hj', hfits', -, rfl, hle, rfl⟩
      have hjj : j = j' := by
        have hentry' := h.entryFor_iff.2 ⟨hj', hfits'⟩
        rw [hentry] at hentry'
        exact Option.some.inj hentry'
      subst hjj
      rw [if_pos hle]

/-- Translations at two times agree exactly when they are of the same address of the same thread. -/
theorem WellMapped.translate_inj {m₁ m₁' : Machine} (h : m.WellMapped) (h' : m'.WellMapped)
    (hkeep : m.MapsIn m') (htranslate : m.translate pid a size writing = some (.ok (p, m₁)))
    (htranslate' : m'.translate pid' a' size' writing' = some (.ok (p', m₁'))) :
    p = p' ↔ pid = pid' ∧ a = a' := by
  obtain ⟨j, hj, hfits, -, rfl, -⟩ := h.translate_ok_iff.1 htranslate
  obtain ⟨j', hj', hfits', -, rfl, -⟩ := h'.translate_ok_iff.1 htranslate'
  have hlater := hkeep pid _ j hj hfits
  have hlt := Nat.mod_lt a.toNat (show 0 < PageSize by decide)
  have hlt' := Nat.mod_lt a'.toNat (show 0 < PageSize by decide)
  constructor
  · intro heq
    have hframe : j = j' := by
      have hdiv := congrArg (· / PageSize) heq
      simpa [Nat.add_div_of_dvd_right, Nat.div_eq_of_lt, hlt, hlt'] using hdiv
    subst hframe
    obtain ⟨hpage, -, hthread⟩ := fits_iff.1 hlater
    obtain ⟨hpage', -, hthread'⟩ := fits_iff.1 hfits'
    refine ⟨hthread.symm.trans hthread', eq_of_vpn_of_offset (hpage.symm.trans hpage') ?_⟩
    exact Nat.add_left_cancel heq
  · rintro ⟨rfl, rfl⟩
    have hentry := h'.entryFor_iff.2 ⟨hj, hlater⟩
    rw [h'.entryFor_iff.2 ⟨hj', hfits'⟩] at hentry
    rw [Option.some.inj hentry]

/-- A translation is not lost. -/
theorem WellMapped.translate_mapsIn {m₁ : Machine} (h : m.WellMapped) (h' : m'.WellMapped)
    (hkeep : m.MapsIn m') (htranslate : m.translate pid a size writing = some (.ok (p, m₁))) :
    ∃ m₁', m'.translate pid a size writing = some (.ok (p, m₁')) := by
  obtain ⟨j, hj, hfits, haligned, hp, hle, -⟩ := h.translate_ok_iff.1 htranslate
  exact ⟨_, h'.translate_ok_iff.2 ⟨j, hj, hkeep pid _ j hj hfits, haligned, hp, hle, rfl⟩⟩

end Machine

namespace Paging

open Machine

variable {s s' : State} {garbage : ℕ → BitVec 32} {files : File → Prop}

theorem access_entries {m m₁ m₂ : Machine} {pid : ℤ} {access : Access} {p : ℕ}
    {result : Option CInt} (h : m.WellMapped)
    (htranslate : translate m pid access = some (.ok (p, m₁)))
    (hperform : perform m₁ p access = some (result, m₂)) (j : ℕ) :
    (m₂.pageTable j).valid = (m.pageTable j).valid ∧
      (m₂.pageTable j).thread = (m.pageTable j).thread := by
  obtain ⟨-, hm₂⟩ := perform_eq hperform
  obtain ⟨i, -, -, -, -, -, rfl⟩ := h.translate_ok_iff.1 htranslate
  obtain ⟨hvalid, -, hthread, -⟩ := @pageTable_touch m i access.writing j
  rw [hm₂]
  exact ⟨hvalid, hthread⟩

/-- Only a page fault gives an entry to a thread. -/
theorem step_entries {file : File} {e : Event} (h : s.machine.WellMapped)
    (hstep : Step file s e s') (j : ℕ) :
    ((s'.machine.pageTable j).valid = (s.machine.pageTable j).valid ∧
      (s'.machine.pageTable j).thread = (s.machine.pageTable j).thread ∧
      ∀ pid access, e = .fault pid access → ∃ f, s'.serving pid = some (access, f) ∧ f ≠ j) ∨
    ∃ pid access, e = .fault pid access ∧ s'.serving pid = some (access, j) ∧
      (s'.machine.pageTable j).thread = pid := by
  cases hstep with
  | hit hidle htranslate hperform =>
    obtain ⟨hvalid, hthread⟩ := access_entries h htranslate hperform j
    exact Or.inl ⟨hvalid, hthread, nofun⟩
  | @fault pid access f m hidle htranslate hallocate =>
    have hserving : Function.update s.serving pid (some (access, f)) pid = some (access, f) :=
      Function.update_self _ _ _
    obtain ⟨-, -, rfl⟩ := allocatePage_eq hallocate
    by_cases hjf : j = f
    · subst hjf
      refine Or.inr ⟨pid, access, rfl, hserving, ?_⟩
      simp
    · left
      simp only [Function.update_of_ne hjf, true_and]
      rintro _ _ ⟨⟩
      exact ⟨f, hserving, Ne.symm hjf⟩
  | served hserving hload htranslate hperform =>
    rw [loadPage_eq hload] at htranslate
    obtain ⟨hvalid, hthread⟩ := access_entries (h.of_memory _) htranslate hperform j
    exact Or.inl ⟨hvalid, hthread, nofun⟩
  | failed hserving hload htranslate =>
    rw [loadPage_eq hload]
    exact Or.inl ⟨rfl, rfl, nofun⟩

/-- What a translation returns, without the machine. -/
def outcome (r : Option (Except ExceptionType (ℕ × Machine))) : Option (Except ExceptionType ℕ) :=
  r.map fun e => e.map Prod.fst

theorem outcome_eq_error {r : Option (Except ExceptionType (ℕ × Machine))} {e : ExceptionType}
    (h : outcome r = some (.error e)) : r = some (.error e) := by
  obtain ⟨_ | ⟨p, m⟩, rfl, hr⟩ := Option.map_eq_some_iff.1 h <;> cases hr
  rfl

theorem outcome_eq_ok {r : Option (Except ExceptionType (ℕ × Machine))} {p : ℕ}
    (h : outcome r = some (.ok p)) : ∃ m, r = some (.ok (p, m)) := by
  obtain ⟨_ | ⟨p, m⟩, rfl, hr⟩ := Option.map_eq_some_iff.1 h <;> cases hr
  exact ⟨m, rfl⟩

/-- An access that faults, and is not interrupted: the frame, the result and the machine. -/
def serve (file : File) (m : Machine) (pid : ℤ) (access : Access) :
    Option (ℕ × Option CInt × Machine) := do
  let (newPhysicPage, m) ← m.allocatePage pid access.addr
  let m ← m.loadPage file newPhysicPage access.addr
  match translate m pid access with
  | some (.ok (physicalAddress, m)) =>
    (perform m physicalAddress access).map fun r => (newPhysicPage, r)
  | _ => none

theorem step_serve {file : File} {m m' : Machine} {serving : ℤ → Option (Access × ℕ)} {pid : ℤ}
    {access : Access} {f : ℕ} {result : Option CInt} (hidle : serving pid = none)
    (htranslate : outcome (translate m pid access) = some (.error .pageFaultException))
    (hserve : serve file m pid access = some (f, result, m')) :
    ∃ s₁, s₁.serving pid = some (access, f) ∧ Step file ⟨m, serving⟩ (.fault pid access) s₁ ∧
      Step file s₁ (.done pid access result) ⟨m', serving⟩ := by
  obtain ⟨⟨f', m₁⟩, halloc, hrest⟩ := Option.bind_eq_some_iff.1 hserve
  obtain ⟨m₂, hload, hrest⟩ := Option.bind_eq_some_iff.1 hrest
  split at hrest
  · rename_i p m₃ hok
    obtain ⟨⟨result', m₄⟩, hperform, heq⟩ := Option.map_eq_some_iff.1 hrest
    cases heq
    have hself : Function.update serving pid (some (access, f)) pid = some (access, f) :=
      Function.update_self _ _ _
    refine ⟨⟨m₁, Function.update serving pid (some (access, f))⟩, hself,
      .fault hidle (outcome_eq_error htranslate) halloc, ?_⟩
    have hserved : Step file ⟨m₁, Function.update serving pid (some (access, f))⟩
        (.done pid access result)
        ⟨m', Function.update (Function.update serving pid (some (access, f))) pid none⟩ :=
      .served hself hload hok hperform
    have hback : Function.update serving pid none = serving :=
      Function.update_eq_self_iff.2 hidle.symm
    rwa [Function.update_idem, hback] at hserved
  · cases hrest

/-- **The page table is sound** in every reachable state, whatever the threads access and whatever
the file holds.

* An entry is valid exactly when the bit of its frame is set, it then maps its own frame, and no two
  valid entries map the same page of the same thread.
* The `ASSERT` of `Translate` does not fail, for accesses of 1, 2 and 4 bytes.
* A translation stays what it is in the rest of the run; and a translation then, of any address of any
  thread, leads to the same physical address only if it is of the same address of the same thread. -/
theorem page_table_sound (h : (system garbage files).Reachable s) :
    (∀ j < NumPhysPages,
      ((s.machine.pageTable j).valid = true ↔ s.machine.memoryMap.bit j = true) ∧
      ((s.machine.pageTable j).valid = true → (s.machine.pageTable j).physicalPage.toNat = j)) ∧
    (∀ i < NumPhysPages, ∀ j < NumPhysPages, (s.machine.pageTable i).valid = true →
      (s.machine.pageTable j).valid = true →
      (s.machine.pageTable i).thread = (s.machine.pageTable j).thread →
      (s.machine.pageTable i).virtualPage = (s.machine.pageTable j).virtualPage → i = j) ∧
    (∀ pid a size writing, size = 1 ∨ size = 2 ∨ size = 4 →
      s.machine.translate pid a size writing ≠ none) ∧
    (∀ pid a size writing p m, s.machine.translate pid a size writing = some (.ok (p, m)) →
      ∀ s', Relation.ReflTransGen (system garbage files).Next s s' →
        (∃ m', s'.machine.translate pid a size writing = some (.ok (p, m'))) ∧
        ∀ pid' a' size' writing' p' m',
          s'.machine.translate pid' a' size' writing' = some (.ok (p', m')) →
            (p = p' ↔ pid = pid' ∧ a = a')) := by
  have hmapped := wellMapped_of_reachable h
  refine ⟨fun j hj => ⟨hmapped.valid_iff j hj, hmapped.physical j hj⟩, hmapped.unique, ?_, ?_⟩
  · intro pid a size writing hsize
    rw [hmapped.translate_eq hsize]
    split_ifs
    · nofun
    · split <;> nofun
  · intro pid a size writing p m htranslate s' hrun
    obtain ⟨hmapped', hkeep⟩ := run_mapped hmapped hrun
    refine ⟨hmapped.translate_mapsIn hmapped' hkeep htranslate, ?_⟩
    intro pid' a' size' writing' p' m' htranslate'
    exact hmapped.translate_inj hmapped' hkeep htranslate htranslate'

/-- Two threads touch address 0. -/
theorem page_table_sound_twoThreads :
    ∃ s p p' m m', (system (fun _ => 0) fun _ => True).Reachable s ∧
      s.machine.translate 0 0 1 false = some (.ok (p, m)) ∧
      s.machine.translate 1 0 1 false = some (.ok (p', m')) ∧ p ≠ p' := by
  have hrun : (((Machine.new fun _ => 0).allocatePage 0 0).bind fun r =>
      (r.2.allocatePage 1 0).map fun r' =>
        [outcome ((Machine.new fun _ => 0).translate 0 0 1 false),
          outcome (r.2.translate 1 0 1 false), outcome (r'.2.translate 0 0 1 false),
          outcome (r'.2.translate 1 0 1 false)]) =
      some [some (.error .pageFaultException), some (.error .pageFaultException), some (.ok 0),
        some (.ok 128)] := by decide +kernel
  obtain ⟨⟨f₁, m₁⟩, halloc₁, hrest⟩ := Option.bind_eq_some_iff.1 hrun
  obtain ⟨⟨f₂, m₂⟩, halloc₂, hfacts⟩ := Option.map_eq_some_iff.1 hrest
  simp only [List.cons.injEq, and_true] at hfacts
  obtain ⟨hfault₁, hfault₂, hok, hok'⟩ := hfacts
  have hstep₁ : Step ⟨0, fun _ => 0⟩ ⟨.new fun _ => 0, fun _ => none⟩ (.fault 0 (.read 0 1))
      ⟨m₁, Function.update (fun _ => none) 0 (some (.read 0 1, f₁))⟩ :=
    .fault rfl (outcome_eq_error hfault₁) halloc₁
  have hstep₂ : Step ⟨0, fun _ => 0⟩ ⟨m₁, Function.update (fun _ => none) 0 (some (.read 0 1, f₁))⟩
      (.fault 1 (.read 0 1)) ⟨m₂, Function.update
        (Function.update (fun _ => none) 0 (some (.read 0 1, f₁))) 1 (some (.read 0 1, f₂))⟩ :=
    .fault rfl (outcome_eq_error hfault₂) halloc₂
  have hstart : (system (fun _ => 0) fun _ => True).Reachable ⟨.new fun _ => 0, fun _ => none⟩ :=
    .of_init rfl
  have hreach := (hstart.tail ⟨_, trivial, hstep₁⟩).tail ⟨_, trivial, hstep₂⟩
  obtain ⟨m, hm⟩ := outcome_eq_ok hok
  obtain ⟨m', hm'⟩ := outcome_eq_ok hok'
  refine ⟨_, 0, 128, m, m', hreach, hm, hm', ?_⟩
  intro heq
  have hsame := (((page_table_sound hreach).2.2.2 _ _ _ _ _ _ hm _ .refl).2 _ _ _ _ _ _ hm').1 heq
  cases hsame.1

end Paging

end Nachos
