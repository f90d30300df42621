import Nachos.Threads.Equiv.GlobalThreadManager
import Nachos.Threads.Pids

/-!
# Pids are unique while there is room

As long as the constructor finds a free slot, every thread has the slot of its pid, and no slot is lost.
With the table full, the new thread is not in it and has any pid at all; the threads in the table keep
theirs.
-/

namespace Nachos.Pids

variable {τ : Type} [DecidableEq τ] {s s' : State τ} {t u : τ} {garbage : ℤ}

/-- Constructed threads have the slots of their pids, and nobody else has one. -/
structure Registered (s : State τ) : Prop where
  slotted : ∀ t, s.constructed t = true →
    ∃ i : ℕ, s.pid t = i ∧ s.globalThreadManager.globalThreadList[i]? = some (some t)
  unique : ∀ t, s.globalThreadManager.slots t ≤ 1
  gone : ∀ t, s.constructed t = false → s.globalThreadManager.slots t = 0

omit [DecidableEq τ] in
theorem exists_add_iff (t : τ) :
    s.HasRoom ↔ ∃ m i, s.globalThreadManager.addNewThreadtoList t = some (m, i) := by
  unfold State.HasRoom GlobalThreadManager.addNewThreadtoList
  cases hfind : s.globalThreadManager.globalThreadList.findIdx? (·.isNone) with
  | none =>
    rw [List.findIdx?_eq_none_iff] at hfind
    constructor
    · intro hmem
      simpa using hfind none hmem
    · simp
  | some i =>
    obtain ⟨hlt, hnone, -⟩ := List.findIdx?_eq_some_iff_getElem.1 hfind
    rw [Option.isNone_iff_eq_none] at hnone
    refine iff_of_true ?_ ⟨_, _, rfl⟩
    rw [← hnone]
    exact List.getElem_mem hlt

namespace Registered

theorem start (garbage : τ → ℤ) : Registered (start garbage) where
  slotted t ht := absurd ht Bool.false_ne_true
  unique t := by
    have hzero : (Pids.start garbage).globalThreadManager.slots t = 0 :=
      GlobalThreadManager.slots_new t
    omega
  gone t _ := GlobalThreadManager.slots_new t

/-- Different pids, in range. -/
theorem pids (h : Registered s) : s.Unique := by
  intro t ht
  obtain ⟨i, hi, hslot⟩ := h.slotted t ht
  constructor
  · have hlt := (List.getElem?_eq_some_iff.1 hslot).1
    rw [s.globalThreadManager.length_eq] at hlt
    omega
  · intro u hu hpid
    obtain ⟨j, hj, hslot'⟩ := h.slotted u hu
    have hij : i = j := by omega
    subst hij
    rw [hslot] at hslot'
    exact (Option.some.inj (Option.some.inj hslot')).symm

theorem construct (h : Registered s) (hroom : s.HasRoom) (hnew : s.constructed t = false)
    (garbage : ℤ) : Registered (s.construct t garbage) := by
  obtain ⟨m, i, hadd⟩ := (exists_add_iff t).1 hroom
  have heq : s.construct t garbage =
      ⟨m, Function.update s.pid t i, Function.update s.constructed t true⟩ := by
    unfold State.construct
    rw [hadd]
  obtain ⟨hfree, hslots⟩ := GlobalThreadManager.getElem?_add hadd
  have hcount := GlobalThreadManager.slots_add hadd
  rw [heq]
  refine ⟨?_, ?_, ?_⟩
  · intro u hu
    by_cases hut : u = t
    · subst hut
      exact ⟨i, Function.update_self _ _ _, by rw [hslots, if_pos rfl]⟩
    · simp only [Function.update_of_ne hut] at hu ⊢
      obtain ⟨j, hj, hslot⟩ := h.slotted u hu
      refine ⟨j, hj, ?_⟩
      -- the slot of another thread is not the free one
      have hji : j ≠ i := by
        rintro rfl
        rw [hfree] at hslot
        cases hslot
      rw [hslots, if_neg hji]
      exact hslot
  · intro u
    have hone := h.unique u
    show m.slots u ≤ 1
    rw [hcount]
    by_cases hut : u = t
    · subst hut
      have hzero := h.gone u hnew
      rw [if_pos rfl]
      omega
    · rw [if_neg hut]
      exact hone
  · intro u hu
    have hut : u ≠ t := by
      rintro rfl
      simp at hu
    simp only [Function.update_of_ne hut] at hu
    show m.slots u = 0
    rw [hcount, if_neg hut]
    exact h.gone u hu

theorem delete (h : Registered s) (t : τ) :
    Registered { s.destructor t with constructed := Function.update s.constructed t false } := by
  have hcount := fun u => GlobalThreadManager.slots_remove (m := s.globalThreadManager) t u
  refine ⟨?_, ?_, ?_⟩
  · intro u hu
    have hut : u ≠ t := by
      rintro rfl
      simp at hu
    simp only [Function.update_of_ne hut] at hu
    obtain ⟨i, hi, hslot⟩ := h.slotted u hu
    exact ⟨i, hi, GlobalThreadManager.getElem?_remove hslot hut⟩
  · intro u
    have hone := h.unique u
    show (s.globalThreadManager.removeThreadFromList t).slots u ≤ 1
    rw [hcount]
    omega
  · intro u hu
    have hone := h.unique u
    show (s.globalThreadManager.removeThreadFromList t).slots u = 0
    rw [hcount]
    by_cases hut : u = t
    · rw [if_pos hut]
      omega
    · simp only [Function.update_of_ne hut] at hu
      rw [h.gone u hu, Nat.zero_sub]

end Registered

theorem registered_of_reachable {init : τ → ℤ} (h : ((system init).restrict Room).Reachable s) :
    Registered s := by
  apply @Transition.System.Reachable.invariant _ _ _ Registered _ h
  · rintro _ rfl
    exact .start init
  · rintro s e s' hs ⟨hroom, hstep⟩
    cases e with
    | create t garbage =>
      change (if s.constructed t then none else some (s.construct t garbage)) = some s' at hstep
      split_ifs at hstep with hnew
      cases hstep
      exact hs.construct hroom (by simpa using hnew) garbage
    | delete t =>
      change (if s.constructed t then some _ else none) = some s' at hstep
      split_ifs at hstep
      cases hstep
      exact hs.delete t

/-- The new thread of a full table has any pid at all; nothing else changes. -/
theorem Registered.construct_of_full (h : Registered s) (hfull : ¬ s.HasRoom)
    (hnew : s.constructed t = false) (garbage : ℤ) :
    s.construct t garbage = ⟨s.globalThreadManager, Function.update s.pid t garbage,
      Function.update s.constructed t true⟩ := by
  have hadd : s.globalThreadManager.addNewThreadtoList t = none := by
    rw [Option.eq_none_iff_forall_ne_some]
    rintro ⟨m, i⟩ hadd
    exact hfull ((exists_add_iff t).2 ⟨m, i, hadd⟩)
  unfold State.construct
  rw [hadd]
  dsimp only
  unfold State.destructor
  dsimp only
  rw [GlobalThreadManager.remove_of_slots_eq_zero (h.gone t hnew)]

theorem not_unique_of_full (h : Registered s) (hfull : ¬ s.HasRoom)
    (hnew : s.constructed t = false) (hgarbage : garbage < 0 ∨ maxThreadNum ≤ garbage) :
    ¬ (s.construct t garbage).Unique := by
  rw [h.construct_of_full hfull hnew]
  intro hunique
  obtain ⟨hrange, -⟩ := hunique t (Function.update_self _ _ _)
  dsimp only at hrange
  rw [Function.update_self] at hrange
  omega

/-- **Pids are unique** in every history in which the constructor finds a free slot.  After such a
history, a new thread has a pid of its own, whatever the memory held, exactly when there is a free slot;
and without one, the threads in the table and their pids stay what they are. -/
theorem pids_unique {init : τ → ℤ} (h : ((system init).restrict Room).Reachable s) :
    s.Unique ∧ ∀ t, s.constructed t = false →
      ((∀ garbage, (s.construct t garbage).Unique) ↔ s.HasRoom) ∧
      (¬ s.HasRoom → ∀ garbage,
        (s.construct t garbage).globalThreadManager = s.globalThreadManager ∧
        ∀ u, u ≠ t → (s.construct t garbage).pid u = s.pid u) := by
  have hregistered := registered_of_reachable h
  refine ⟨hregistered.pids, ?_⟩
  intro t hnew
  refine ⟨⟨?_, ?_⟩, ?_⟩
  · intro hunique
    by_contra hfull
    exact not_unique_of_full hregistered hfull hnew (Or.inl (by decide)) (hunique (-1))
  · exact fun hroom garbage => (hregistered.construct hroom hnew garbage).pids
  · intro hfull garbage
    rw [hregistered.construct_of_full hfull hnew]
    exact ⟨rfl, fun u hu => Function.update_of_ne hu _ _⟩

/-- Two threads, one after the other. -/
theorem pids_unique_twoThreads :
    ∃ s : State Bool, ((system fun _ => 7).restrict Room).Reachable s ∧ s.constructed false = true ∧
      s.constructed true = true ∧ s.pid true ≠ s.pid false := by
  have hstart : ((system fun _ => 7).restrict Room).Reachable (start fun _ : Bool => 7) := .of_init rfl
  have hone : ((system fun _ => 7).restrict Room).Reachable ((start fun _ => 7).construct false 7) := by
    apply hstart.tail (a := .create false 7)
    refine ⟨?_, rfl⟩
    unfold Room State.HasRoom
    decide
  have htwo : ((system fun _ => 7).restrict Room).Reachable
      (((start fun _ => 7).construct false 7).construct true 7) := by
    apply hone.tail (a := .create true 7)
    refine ⟨?_, rfl⟩
    unfold Room State.HasRoom
    decide
  refine ⟨_, htwo, by decide, by decide, ?_⟩
  intro hpid
  cases ((pids_unique htwo).1 false (by decide)).2 true (by decide) hpid

/-- The 129th thread finds the table full and the pid of the first one in memory. -/
theorem pid_of_full_table :
    ∃ s : State ℕ, (system fun _ => 0).Reachable s ∧ s.constructed 0 = true ∧
      s.constructed 128 = true ∧ s.pid 128 = s.pid 0 ∧ ¬ s.Unique := by
  have hfinal : (((List.range 129).map fun t => Event.create t 0).foldlM State.next
      (start fun _ => 0)).map (fun s => (s.constructed 0, s.constructed 128, s.pid 0, s.pid 128)) =
      some (true, true, 0, 0) := by decide +kernel
  obtain ⟨s, hs, heq⟩ := Option.map_eq_some_iff.1 hfinal
  simp only [Prod.mk.injEq] at heq
  obtain ⟨hfirst, hlast, hpid, hpid'⟩ := heq
  have hrun : (system fun _ => 0).Run (start fun _ => 0) _ s := .of_foldlM (fun _ _ _ h => h) hs
  refine ⟨s, hrun.reachable (.of_init rfl), hfirst, hlast, hpid'.trans hpid.symm, ?_⟩
  intro hunique
  cases (hunique 0 hfirst).2 128 hlast (hpid'.trans hpid.symm)

end Nachos.Pids
