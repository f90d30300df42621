import Nachos.Threads.Equiv.GlobalThreadManager
import Nachos.Threads.Equiv.Kernel

/-!
# Finished threads

`Finish` records the thread in `threadToBeDestroyed` and the next thread that is *resumed* deletes
it, on its way out of `Scheduler::Run`.  A thread that runs for the first time starts in `ThreadRoot`
and deletes nothing, and when it finishes itself it writes over the record: the thread recorded before
is never deleted, and keeps its slot (`finished_thread_kept`).

As long as `Finish` always finds the record empty, every finished thread is recorded or deleted, and
a deleted thread has no slot (`finished_reclaimed`).
-/

namespace Nachos.Kernel

variable {τ σ μ κ ξ δ : Type}

/-- What the deletion of threads depends on. -/
def State.ledger (s : State τ σ μ κ ξ δ) :
    Option τ × GlobalThreadManager τ × (τ → Bool) × (τ → Bool) × (τ → Bool) :=
  (s.threadToBeDestroyed, s.globalThreadManager, s.created, s.finished, s.deleted)

variable [DecidableEq τ] {s s' : State τ σ μ κ ξ δ}

/-- `threadToBeDestroyed = currentThread` -/
def State.doDestroy (s : State τ σ μ κ ξ δ) : State τ σ μ κ ξ δ :=
  { s with
    threadToBeDestroyed := some s.currentThread
    finished := Function.update s.finished s.currentThread true }

/-- What a step does to it. -/
inductive LedgerStep (s s' : State τ σ μ κ ξ δ) : Prop where
  | same (hother : ∀ t ops, s.code = [] → s.program s.currentThread ≠ .create t :: ops)
      (h : s'.ledger = s.ledger)
  | reap {k} (hcode : s.code = .reap :: k) (h : s'.ledger = s.doReap.ledger)
  | destroy {k} (hcode : s.code = .destroy :: k) (h : s'.ledger = s.doDestroy.ledger)
  | create {t ops} (hcode : s.code = []) (hprogram : s.program s.currentThread = .create t :: ops)
      (h : s'.ledger = (s.newThread t).ledger)

theorem ledger_step [DecidableEq σ] [DecidableEq μ] [DecidableEq κ] {P : Program τ σ μ κ ξ δ}
    (hstep : Step P s s') : LedgerStep s s' := by
  cases hstep with
  | @exec _ i k due timer hcode hexec =>
    by_cases hreap : i = .reap
    · subst hreap
      cases hexec
      exact .reap hcode rfl
    by_cases hdestroy : i = .destroy
    · subst hdestroy
      cases hexec
      exact .destroy hcode rfl
    · obtain ⟨hrecord, hmanager, hcreated, hfinished, hdeleted⟩ :=
        (exec_footprint hexec).ledger hreap hdestroy
      refine .same (fun t ops hnil => ?_) ?_
      · rw [hcode] at hnil
        cases hnil
      · simp only [State.ledger, hrecord, hmanager, hcreated, hfinished, hdeleted]
  | handle hcode _ =>
    refine .same (fun t ops hnil => ?_) rfl
    rw [hcode] at hnil
    cases hnil
  | own _ hprogram _ =>
    refine .same (fun t ops _ hcreate => ?_) rfl
    rw [hprogram] at hcreate
    cases hcreate
  | @call op ops due timer hcode hprogram _ =>
    cases op with
    | create t => exact .create hcode hprogram rfl
    | _ =>
      refine .same (fun t ops _ hcreate => ?_) rfl
      rw [hprogram] at hcreate
      cases hcreate

/-- The guard: `Finish` finds `threadToBeDestroyed` empty, and `new Thread` returns a new object. -/
def State.Reclaiming (s : State τ σ μ κ ξ δ) : Prop :=
  match s.code, s.program s.currentThread with
  | .destroy :: _, _ => s.threadToBeDestroyed = none
  | [], .create t :: _ => s.created t = false ∧ s.deleted t = false
  | _, _ => True

instance (s : State τ σ μ κ ξ δ) : Decidable s.Reclaiming := by
  unfold State.Reclaiming
  generalize s.code = code, s.program s.currentThread = program
  rcases code with _ | ⟨i, k⟩
  · rcases program with _ | ⟨op, ops⟩
    · exact .isTrue trivial
    · rcases op with _ | _ <;> infer_instance
  · rcases i with _ | _ <;> infer_instance

/-- Finished threads are recorded or deleted, and deleted ones have no slot. -/
structure Reclaimed (s : State τ σ μ κ ξ δ) : Prop where
  finished : ∀ t, s.finished t = true → s.threadToBeDestroyed = some t ∨ s.deleted t = true
  gone : ∀ t, s.deleted t = true ∨ s.created t = false → s.globalThreadManager.slots t = 0
  unique : ∀ t, s.globalThreadManager.slots t ≤ 1

namespace Reclaimed

theorem of_ledger (h : Reclaimed s) (heq : s'.ledger = s.ledger) : Reclaimed s' := by
  simp only [State.ledger, Prod.mk.injEq] at heq
  obtain ⟨hrecord, hmanager, hcreated, hfinished, hdeleted⟩ := heq
  obtain ⟨h₁, h₂, h₃⟩ := h
  constructor
  · rwa [hrecord, hfinished, hdeleted]
  · rwa [hmanager, hcreated, hdeleted]
  · rwa [hmanager]

theorem doReap (h : Reclaimed s) : Reclaimed s.doReap := by
  unfold State.doReap
  split
  · rename_i t hrecord
    refine ⟨?_, ?_, ?_⟩
    · intro u hu
      right
      rcases h.finished u hu with hslot | hdeleted
      · rw [hrecord, Option.some.injEq] at hslot
        simp [hslot]
      · simp [Function.update_apply, hdeleted]
    · intro u hu
      rw [GlobalThreadManager.slots_remove]
      have hone := h.unique u
      by_cases hut : u = t
      · simp [hut] at hone ⊢
        omega
      · simp only [Function.update_of_ne hut] at hu
        rw [h.gone u hu, Nat.zero_sub]
    · intro u
      rw [GlobalThreadManager.slots_remove]
      exact (Nat.sub_le _ _).trans (h.unique u)
  · exact h

/-- `Finish` with the record empty. -/
theorem record (h : Reclaimed s) (hrecord : s.threadToBeDestroyed = none) :
    Reclaimed s.doDestroy := by
  refine ⟨?_, h.gone, h.unique⟩
  intro t ht
  by_cases hcurrent : t = s.currentThread
  · exact Or.inl (congrArg some hcurrent.symm)
  · have hbefore : s.finished t = true := by simpa [State.doDestroy, hcurrent] using ht
    rcases h.finished t hbefore with hslot | hdeleted
    · rw [hrecord] at hslot
      cases hslot
    · exact Or.inr hdeleted

theorem newThread {t : τ} (h : Reclaimed s) (hcreated : s.created t = false)
    (hdeleted : s.deleted t = false) : Reclaimed (s.newThread t) := by
  have hzero := h.gone t (Or.inr hcreated)
  -- only the new thread gains a slot, and it had none
  have hslots : ∀ u, (s.newThread t).globalThreadManager.slots u ≤
      s.globalThreadManager.slots u + if u = t then 1 else 0 := by
    intro u
    unfold State.newThread
    dsimp only
    split
    · rename_i m pid hadd
      exact (GlobalThreadManager.slots_add hadd u).le
    · exact Nat.le_add_right _ _
  refine ⟨h.finished, ?_, ?_⟩
  · intro u hu
    have hut : u ≠ t := by
      rintro rfl
      simp [State.newThread, hdeleted] at hu
    simp only [State.newThread, Function.update_of_ne hut] at hu
    have hle := hslots u
    rw [if_neg hut, h.gone u hu] at hle
    exact Nat.le_zero.1 hle
  · intro u
    have hle := hslots u
    have hone := h.unique u
    by_cases hut : u = t
    · subst hut
      rw [if_pos rfl, hzero] at hle
      exact hle
    · rw [if_neg hut] at hle
      exact hle.trans hone

theorem start {main : τ} {func : ξ} {initialValue : σ → ℤ} {d : δ} :
    Reclaimed (start main func initialValue d : State τ σ μ κ ξ δ) := by
  have hslots : ∀ u, (Kernel.start main func initialValue d :
      State τ σ μ κ ξ δ).globalThreadManager.slots u ≤ if u = main then 1 else 0 := by
    intro u
    unfold Kernel.start
    dsimp only
    split
    · rename_i m pid hadd
      rw [GlobalThreadManager.slots_add hadd, GlobalThreadManager.slots_new, Nat.zero_add]
    · rw [GlobalThreadManager.slots_new]
      exact Nat.zero_le _
  refine ⟨?_, ?_, ?_⟩
  · intro t ht
    cases ht
  · intro t ht
    have hmain : t ≠ main := by
      rintro rfl
      simp [Kernel.start] at ht
    have hle := hslots t
    rw [if_neg hmain] at hle
    exact Nat.le_zero.1 hle
  · intro t
    apply (hslots t).trans
    split_ifs <;> decide

variable [DecidableEq σ] [DecidableEq μ] [DecidableEq κ]

theorem step {P : Program τ σ μ κ ξ δ} (h : Reclaimed s) (hguard : s.Reclaiming)
    (hstep : Step P s s') : Reclaimed s' := by
  unfold State.Reclaiming at hguard
  cases ledger_step hstep with
  | same _ heq => exact h.of_ledger heq
  | reap _ heq => exact h.doReap.of_ledger heq
  | destroy hcode heq =>
    rw [hcode] at hguard
    exact (h.record hguard).of_ledger heq
  | create hcode hprogram heq =>
    rw [hcode, hprogram] at hguard
    exact (h.newThread hguard.1 hguard.2).of_ledger heq

end Reclaimed

/-- **Finished threads are reclaimed, as long as `Finish` always finds `threadToBeDestroyed`
empty**: each is the one recorded there, or has been deleted and has no slot in the table. -/
theorem finished_reclaimed [DecidableEq σ] [DecidableEq μ] [DecidableEq κ]
    {P : Program τ σ μ κ ξ δ} {main : τ} {func : ξ} {initialValue : σ → ℤ} {d : δ}
    (h : ((system P main func initialValue d).restrict fun s _ => s.Reclaiming).Reachable s) {t : τ}
    (ht : s.finished t = true) :
    s.threadToBeDestroyed = some t ∨ s.deleted t = true ∧ ¬ s.globalThreadManager.Holds t := by
  have hinv : Reclaimed s := by
    refine h.invariant ?_ ?_
    · rintro _ rfl
      exact Reclaimed.start
    · rintro s _ s' hs ⟨hguard, hstep⟩
      exact hs.step hguard hstep
  rcases hinv.finished t ht with hrecord | hdeleted
  · exact Or.inl hrecord
  · refine Or.inr ⟨hdeleted, ?_⟩
    rw [GlobalThreadManager.holds_iff, hinv.gone t (Or.inl hdeleted)]
    exact lt_irrefl 0

/-- The main thread (`true`) creates and forks the threads `ts`, whose code (`false`) is empty, and
yields. -/
def forkAll (ts : List (Fin 3)) : Bool → List (Op (Fin 3) Empty Empty Empty Bool)
  | true => ts.map .create ++ ts.map (.fork · false) ++ [.yield]
  | false => []

theorem finished_reclaimed_one :
    ∃ s : State (Fin 3) Empty Empty Empty Bool Unit,
      s.finished 1 = true ∧ s.threadToBeDestroyed = none ∧ s.deleted 1 = true ∧
        ¬ s.globalThreadManager.Holds 1 := by
  have hrun : ((fun o => o.bind fun s : State (Fin 3) Empty Empty Empty Bool Unit =>
      if s.Reclaiming then s.next (callsOnly (forkAll [1])) else none)^[26]
        (some (start 0 true (fun x => x.elim) ()))).map
      (fun s => (s.finished 1, s.threadToBeDestroyed)) = some (true, none) := by decide +kernel
  obtain ⟨s, hs, hfacts⟩ := Option.map_eq_some_iff.1 hrun
  obtain ⟨hfinished, hrecord⟩ := Prod.mk.inj hfacts
  rcases finished_reclaimed (reachable_of_iterate (P := .ofBody (callsOnly (forkAll [1])))
    (fun _ _ _ _ _ h => h) State.Reclaiming 26 hs) hfinished with h | h
  · rw [hrecord] at h
    cases h
  · exact ⟨s, hfinished, hrecord, h⟩

/-- Two threads are forked and finish one after the other, before the main thread is resumed: the
first one stays in the table, and nothing refers to it any more. -/
theorem finished_thread_kept :
    ∃ s : State (Fin 3) Empty Empty Empty Bool Unit,
      (system (.ofBody (callsOnly (forkAll [1, 2]))) 0 true (fun x => x.elim) ()).Reachable s ∧
        s.finished 1 = true ∧ s.threadToBeDestroyed = none ∧ s.deleted 1 = false ∧
          s.globalThreadManager.Holds 1 := by
  have hrun : ((fun o => o.bind fun s : State (Fin 3) Empty Empty Empty Bool Unit =>
      s.next (callsOnly (forkAll [1, 2])))^[40] (some (start 0 true (fun x => x.elim) ()))).map
      (fun s => (s.finished 1, s.threadToBeDestroyed, s.deleted 1,
        s.globalThreadManager.slots 1)) = some (true, none, false, 1) := by decide +kernel
  obtain ⟨s, hs, hfacts⟩ := Option.map_eq_some_iff.1 hrun
  rw [Prod.mk.injEq, Prod.mk.injEq, Prod.mk.injEq] at hfacts
  obtain ⟨hfinished, hrecord, hdeleted, hslots⟩ := hfacts
  refine ⟨s, ?_, hfinished, hrecord, hdeleted, ?_⟩
  · apply Transition.System.Reachable.iterate _ 40 (Transition.System.Reachable.of_init rfl) hs
    intro s s' hnext
    exact ⟨(), Step.of_next (P := .ofBody (callsOnly (forkAll [1, 2]))) (fun _ _ _ _ _ h => h) hnext⟩
  · rw [GlobalThreadManager.holds_iff, hslots]
    exact Nat.one_pos

end Nachos.Kernel
