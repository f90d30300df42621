import Nachos.Threads.Equiv.Finish
import Nachos.Threads.Equiv.Scheduler
import Nachos.Userprog.Equiv.Paging
import Nachos.Userprog.Lifetimes

/-!
# Frames outlive their threads

A frame stays mapped for the pid of the thread that filled it.  When the thread has been deleted its
slot is the first to be taken again, and the new thread finds the frame mapped under its own pid
(`stale_frame`).

As long as new threads get pids that no valid entry records, this does not happen: live threads are
told apart by their pids, since each has the slot of its pid, and a thread that has been deleted does
not run (`frames_isolated`).
-/

namespace Nachos.Lifetimes

open Kernel Machine

variable {τ σ μ κ ξ δ : Type}

/-- What threads are used for: `Fork` is called once for a thread, and `new Thread` returns a new
object. -/
def State.Orderly (s : State τ σ μ κ ξ δ) : Prop :=
  s.kernel.ForkOnce ∧
    ∀ t ∈ s.creating, s.kernel.created t = false ∧ s.kernel.deleted t = false

instance (s : State τ σ μ κ ξ δ) : Decidable s.Orderly := by
  unfold State.Orderly
  infer_instance

/-- The guard: the pid of a new thread is not recorded in a valid entry. -/
def State.FreshPid (s : State τ σ μ κ ξ δ) : Prop :=
  ∀ t ∈ s.creating, ∃ slot ∈ s.kernel.globalThreadManager.addNewThreadtoList t,
    ∀ j < NumPhysPages, (s.memory.machine.pageTable j).valid = true →
      (s.memory.machine.pageTable j).thread ≠ slot.2

instance (s : State τ σ μ κ ξ δ) : Decidable s.FreshPid := by
  unfold State.FreshPid
  infer_instance

/-- A thread that has been created and not deleted. -/
abbrev State.Live (s : State τ σ μ κ ξ δ) (t : τ) : Prop :=
  s.kernel.created t = true ∧ s.kernel.deleted t = false

/-- The thread's pid is the index of its slot. -/
def State.Slotted (s : State τ σ μ κ ξ δ) (t : τ) : Prop :=
  ∃ i : ℕ, s.pid t = i ∧ s.kernel.globalThreadManager.globalThreadList[i]? = some (some t)

/-- What holds between steps, apart from what the scheduler keeps. -/
structure Owned (s : State τ σ μ κ ξ δ) : Prop where
  mapped : s.memory.machine.WellMapped
  finished : ∀ t, s.kernel.threadToBeDestroyed = some t ∨ s.kernel.deleted t = true →
    s.kernel.finished t = true
  slotted : ∀ t, s.Live t → s.Slotted t
  owner : ∀ j < NumPhysPages, (s.memory.machine.pageTable j).valid = true →
    ∀ t, s.Live t → (s.memory.machine.pageTable j).thread = s.pid t → s.filler j = some t

variable {s s' : State τ σ μ κ ξ δ} {k k' : Kernel.State τ σ μ κ ξ δ} {t u : τ}

theorem creating_eq_some : s.creating = some t ↔
    s.kernel.code = [] ∧ ∃ ops, s.kernel.program s.kernel.currentThread = .create t :: ops := by
  unfold State.creating
  split
  · rename_i hcode hprogram
    simp [hcode, hprogram]
  · rename_i hother
    constructor
    · nofun
    · rintro ⟨hcode, ops, hprogram⟩
      exact absurd hprogram (hother _ _ hcode)

/-- Inside the kernel no thread is created. -/
theorem creating_of_inside {i : Instr τ σ μ κ ξ} {l : List (Instr τ σ μ κ ξ)}
    (hcode : s.kernel.code = i :: l) : s.creating = none := by
  unfold State.creating
  rw [hcode]

theorem creating_of_other
    (h : ∀ t ops, s.kernel.code = [] → s.kernel.program s.kernel.currentThread ≠ .create t :: ops) :
    s.creating = none := by
  rw [Option.eq_none_iff_forall_ne_some]
  intro t hcreating
  obtain ⟨hcode, ops, hprogram⟩ := creating_eq_some.1 hcreating
  exact h t ops hcode hprogram

/-- When no thread is created, the pids stay. -/
theorem newPid_of_not_creating [DecidableEq τ] (h : s.creating = none) (garbage : ℤ) :
    s.newPid garbage = s.pid := by
  unfold State.newPid
  rw [h]

theorem newFiller_fault {m : Paging.State} {pid : ℤ} {access : Paging.Access} {f : ℕ}
    (hserving : m.serving pid = some (access, f)) :
    s.newFiller m (.fault pid access) = Function.update s.filler f (some s.kernel.currentThread) := by
  unfold State.newFiller
  dsimp only
  rw [hserving]

namespace Owned

/-- Live threads have different pids. -/
theorem pid_inj (h : Owned s) (ht : s.Live t) (hu : s.Live u) (hpid : s.pid t = s.pid u) : t = u := by
  obtain ⟨i, hi, hslot⟩ := h.slotted t ht
  obtain ⟨j, hj, hslot'⟩ := h.slotted u hu
  have hij : i = j := by
    rw [hi, hj] at hpid
    exact_mod_cast hpid
  subst hij
  rw [hslot] at hslot'
  simpa using hslot'

/-- Outside the kernel the current thread has not been deleted. -/
theorem current_live (h : Owned s) (hscheduled : Scheduled s.kernel) (hcode : s.kernel.code = [])
    (hcreated : s.kernel.created s.kernel.currentThread = true) : s.Live s.kernel.currentThread := by
  refine ⟨hcreated, ?_⟩
  rw [← Bool.not_eq_true]
  intro hdeleted
  have hphase : s.kernel.placement.phase = .running := by
    show phase s.kernel.code = .running
    rw [hcode]
    rfl
  have hnot : s.kernel.finished s.kernel.currentThread = false :=
    hscheduled.partitioned.current_not_finished hphase
  rw [h.finished _ (Or.inr hdeleted)] at hnot
  cases hnot

/-! ### Steps of the kernel -/

theorem of_ledger (h : Owned { s with kernel := k }) (heq : k'.ledger = k.ledger) :
    Owned { s with kernel := k' } := by
  simp only [State.ledger, Prod.mk.injEq] at heq
  obtain ⟨hrecord, hmanager, hcreated, hfinished, hdeleted⟩ := heq
  obtain ⟨h₁, h₂, h₃, h₄⟩ := h
  dsimp only [State.Live, State.Slotted] at h₂ h₃ h₄
  refine ⟨h₁, ?_, ?_, ?_⟩ <;> dsimp only [State.Live, State.Slotted]
  · rwa [hrecord, hfinished, hdeleted]
  · rwa [hmanager, hcreated, hdeleted]
  · rwa [hcreated, hdeleted]

variable [DecidableEq τ]

/-- Deleting a thread frees its slot, and its frames stay as they are. -/
theorem reap (h : Owned s) : Owned { s with kernel := s.kernel.doReap } := by
  unfold Kernel.State.doReap
  split
  · rename_i u hrecord
    -- the threads that are still live are others
    have hlive : ∀ t, s.kernel.created t = true ∧ Function.update s.kernel.deleted u true t = false →
        s.Live t ∧ t ≠ u := by
      rintro t ⟨hcreated, hdeleted⟩
      have htu : t ≠ u := by
        rintro rfl
        rw [Function.update_self] at hdeleted
        cases hdeleted
      rw [Function.update_of_ne htu] at hdeleted
      exact ⟨⟨hcreated, hdeleted⟩, htu⟩
    refine ⟨h.mapped, ?_, ?_, ?_⟩
    · rintro t (hnone | hdeleted)
      · cases hnone
      · by_cases htu : t = u
        · subst htu
          exact h.finished t (Or.inl hrecord)
        · simp only [Function.update_of_ne htu] at hdeleted
          exact h.finished t (Or.inr hdeleted)
    · intro t ht
      obtain ⟨hold, htu⟩ := hlive t ht
      obtain ⟨i, hi, hslot⟩ := h.slotted t hold
      exact ⟨i, hi, GlobalThreadManager.getElem?_remove hslot htu⟩
    · intro j hj hvalid t ht
      exact h.owner j hj hvalid t (hlive t ht).1
  · exact h

theorem destroy (h : Owned s) : Owned { s with kernel := s.kernel.doDestroy } := by
  refine ⟨h.mapped, ?_, h.slotted, h.owner⟩
  intro t ht
  show Function.update s.kernel.finished s.kernel.currentThread true t = true
  by_cases hcurrent : t = s.kernel.currentThread
  · rw [hcurrent, Function.update_self]
  · rw [Function.update_of_ne hcurrent]
    rcases ht with hrecord | hdeleted
    · exact absurd (Option.some.inj hrecord).symm hcurrent
    · exact h.finished t (Or.inr hdeleted)

/-- A new thread with a pid that no valid entry records. -/
theorem create (h : Owned s) {m : GlobalThreadManager τ} {i : ℕ}
    (hnew : s.kernel.created t = false ∧ s.kernel.deleted t = false)
    (hadd : s.kernel.globalThreadManager.addNewThreadtoList t = some (m, i))
    (hfresh : ∀ j < NumPhysPages, (s.memory.machine.pageTable j).valid = true →
      (s.memory.machine.pageTable j).thread ≠ i) :
    Owned { s with kernel := s.kernel.newThread t, pid := Function.update s.pid t i } := by
  obtain ⟨hfree, hslots⟩ := GlobalThreadManager.getElem?_add hadd
  have hmanager : (s.kernel.newThread t).globalThreadManager = m := by
    unfold Kernel.State.newThread
    rw [hadd]
  have hlive : ∀ u, u ≠ t → (s.kernel.newThread t).created u = true ∧ s.kernel.deleted u = false →
      s.Live u := by
    rintro u hut ⟨hcreated, hdeleted⟩
    rw [show (s.kernel.newThread t).created u = s.kernel.created u from
      Function.update_of_ne hut _ _] at hcreated
    exact ⟨hcreated, hdeleted⟩
  refine ⟨h.mapped, h.finished, ?_, ?_⟩
  · intro u hu
    unfold State.Slotted
    dsimp only
    rw [hmanager]
    by_cases hut : u = t
    · subst hut
      exact ⟨i, Function.update_self _ _ _, by rw [hslots, if_pos rfl]⟩
    · obtain ⟨i', hi', hslot⟩ := h.slotted u (hlive u hut hu)
      refine ⟨i', ?_, ?_⟩
      · rw [Function.update_of_ne hut]
        exact hi'
      · rw [hslots, if_neg ?_]
        · exact hslot
        · rintro rfl
          rw [hfree] at hslot
          cases hslot
  · intro j hj hvalid u hu hthread
    dsimp only at hthread
    by_cases hut : u = t
    · subst hut
      rw [Function.update_self] at hthread
      exact absurd hthread (hfresh j hj hvalid)
    · rw [Function.update_of_ne hut] at hthread
      exact h.owner j hj hvalid u (hlive u hut hu) hthread

variable [DecidableEq σ] [DecidableEq μ] [DecidableEq κ] {P : Program τ σ μ κ ξ δ} {garbage : ℤ}

theorem kernel (h : Owned s) (horderly : s.Orderly) (hfresh : s.FreshPid)
    (hstep : Kernel.Step P s.kernel k) : Owned { s with kernel := k, pid := s.newPid garbage } := by
  cases ledger_step hstep with
  | same hother heq =>
    rw [newPid_of_not_creating (creating_of_other hother)]
    exact of_ledger (k := s.kernel) h heq
  | reap hcode heq =>
    rw [newPid_of_not_creating (creating_of_inside hcode)]
    exact h.reap.of_ledger heq
  | destroy hcode heq =>
    rw [newPid_of_not_creating (creating_of_inside hcode)]
    exact h.destroy.of_ledger heq
  | @create t ops hcode hprogram heq =>
    have hcreating : s.creating = some t := creating_eq_some.2 ⟨hcode, ops, hprogram⟩
    obtain ⟨⟨m, i⟩, hadd, hunused⟩ := hfresh t hcreating
    rw [Option.mem_def] at hadd
    have hnew : s.newPid garbage = Function.update s.pid t i := by
      unfold State.newPid
      rw [hcreating]
      dsimp only
      rw [hadd]
    rw [hnew]
    exact of_ledger (s := { s with pid := Function.update s.pid t i })
      (h.create (horderly.2 t hcreating) hadd hunused) heq

/-! ### Accesses -/

omit [DecidableEq τ] [DecidableEq σ] [DecidableEq μ] [DecidableEq κ] in
theorem access {file : File} {e : Paging.Event} {m : Paging.State} (h : Owned s)
    (hlive : s.Live s.kernel.currentThread) (hpid : e.pid = s.pid s.kernel.currentThread)
    (hstep : Paging.Step file s.memory e m) :
    Owned { s with memory := m, filler := s.newFiller m e } := by
  refine ⟨(Paging.step_mapped h.mapped hstep).1, h.finished, h.slotted, ?_⟩
  intro j hj hvalid t ht hthread
  dsimp only at hvalid hthread ⊢
  rcases Paging.step_entries h.mapped hstep j with
    ⟨hvalid', hthread', hfault⟩ | ⟨pid, access, rfl, hserving, rfl⟩
  · rw [hvalid'] at hvalid
    rw [hthread'] at hthread
    rw [← h.owner j hj hvalid t ht hthread]
    cases e with
    | fault pid access =>
      obtain ⟨f, hserving, hfj⟩ := hfault pid access rfl
      rw [newFiller_fault hserving, Function.update_of_ne hfj.symm]
    | done _ _ _ => rfl
    | failed _ _ => rfl
  · -- the frame is the current thread's, and only it has this pid
    have hcurrent : t = s.kernel.currentThread := h.pid_inj ht hlive (hthread.symm.trans hpid)
    rw [newFiller_fault hserving, hcurrent, Function.update_self]

end Owned

variable [DecidableEq τ] [DecidableEq σ] [DecidableEq μ] [DecidableEq κ]

/-! ### Runs -/

/-- The processor left alone by the devices. -/
def State.next (body : ξ → δ → Option (δ × List (Op τ σ μ κ ξ))) (s : State τ σ μ κ ξ δ) :
    Option (State τ σ μ κ ξ δ) :=
  (s.kernel.next body).map fun k => { s with kernel := k, pid := s.newPid 0 }

/-- The current thread makes an access that faults, and is not interrupted. -/
def State.touch (file : File) (access : Paging.Access) (s : State τ σ μ κ ξ δ) :
    Option (State τ σ μ κ ξ δ) :=
  if s.kernel.code.isEmpty ∧ s.kernel.created s.kernel.currentThread = true ∧
      (s.memory.serving (s.pid s.kernel.currentThread)).isNone ∧
      Paging.outcome (Paging.translate s.memory.machine (s.pid s.kernel.currentThread) access) =
        some (.error .pageFaultException) then
    (Paging.serve file s.memory.machine (s.pid s.kernel.currentThread) access).map
      fun r => { s with
        memory := { s.memory with machine := r.2.2 }
        filler := Function.update s.filler r.1 (some s.kernel.currentThread) }
  else none

theorem next_step {body : ξ → δ → Option (δ × List (Op τ σ μ κ ξ))} {s s' : State τ σ μ κ ξ δ}
    (h : s.next body = some s') : Step (.ofBody body) s s' := by
  obtain ⟨k, hk, rfl⟩ := Option.map_eq_some_iff.1 h
  exact .kernel (Kernel.Step.of_next (fun _ _ _ _ _ h => h) hk)

/-- Reachable states, under a guard that only looks at the kernel. -/
theorem touch_reachable {P : Program τ σ μ κ ξ δ} {main : τ} {func : ξ} {initialValue : σ → ℤ} {d : δ}
    {garbage : ℕ → BitVec 32} {G : State τ σ μ κ ξ δ → Prop} {s s' : State τ σ μ κ ξ δ}
    (hs : ((system P main func initialValue d garbage).restrict fun s _ => G s).Reachable s)
    (hG : ∀ memory filler, G { s with memory, filler }) {file : File} {access : Paging.Access}
    (htouch : s.touch file access = some s') :
    ((system P main func initialValue d garbage).restrict fun s _ => G s).Reachable s' := by
  unfold State.touch at htouch
  split_ifs at htouch with hcan
  obtain ⟨hcode, hcreated, hidle, hfault⟩ := hcan
  rw [List.isEmpty_iff] at hcode
  rw [Option.isNone_iff_eq_none] at hidle
  obtain ⟨⟨f, result, m⟩, hserve, rfl⟩ := Option.map_eq_some_iff.1 htouch
  obtain ⟨m₁, hserving, hstep₁, hstep₂⟩ := Paging.step_serve hidle hfault hserve
  have hfirst : Step P s { s with memory := m₁, filler := _ } := .access hcode hcreated rfl hstep₁
  rw [newFiller_fault hserving] at hfirst
  have hreach₁ := hs.tail (a := ()) ⟨hG _ _, hfirst⟩
  exact hreach₁.tail (a := ()) ⟨hG _ _, .access (s := { s with memory := m₁, filler := _ }) hcode hcreated rfl
    hstep₂⟩

/-- `n` steps of the kernel that meet the guard. -/
def stepsWith (body : Bool → List (Op ℕ Empty Empty Empty Bool))
    (G : State ℕ Empty Empty Empty Bool Unit → Prop) [DecidablePred G] (n : ℕ)
    (s : State ℕ Empty Empty Empty Bool Unit) : Option (State ℕ Empty Empty Empty Bool Unit) :=
  (fun o => o.bind fun s => if G s then s.next (callsOnly body) else none)^[n] (some s)

theorem stepsWith_reachable {body : Bool → List (Op ℕ Empty Empty Empty Bool)}
    {G : State ℕ Empty Empty Empty Bool Unit → Prop} [DecidablePred G] {n : ℕ}
    {s s' : State ℕ Empty Empty Empty Bool Unit}
    (hs : ((system (.ofBody (callsOnly body)) 0 true (fun x => x.elim) ()
      fun _ => 0).restrict fun s _ => G s).Reachable s) (hsteps : stepsWith body G n s = some s') :
    ((system (.ofBody (callsOnly body)) 0 true (fun x => x.elim) ()
      fun _ => 0).restrict fun s _ => G s).Reachable s' := by
  apply hs.iterate _ n hsteps
  intro s s' hnext
  split_ifs at hnext with hG
  exact ⟨(), hG, next_step hnext⟩

omit [DecidableEq τ] [DecidableEq σ] [DecidableEq μ] [DecidableEq κ] in
/-- A thread that creates none meets the guard, whatever the memory. -/
theorem guard_of_not_creating {s : State τ σ μ κ ξ δ} (horderly : s.Orderly)
    (hcreating : s.creating = none) (memory : Paging.State) (filler : ℕ → Option τ) :
    State.Orderly { s with memory, filler } ∧ State.FreshPid { s with memory, filler } := by
  refine ⟨horderly, ?_⟩
  intro t ht
  rw [Option.mem_def, show State.creating { s with memory, filler } = none from hcreating] at ht
  cases ht

section

variable {P : Program τ σ μ κ ξ δ} {main : τ} {func : ξ} {initialValue : σ → ℤ} {d : δ}
  {garbage : ℕ → BitVec 32}

omit [DecidableEq σ] [DecidableEq μ] [DecidableEq κ] in
theorem Owned.start : Owned (start main func initialValue d garbage : State τ σ μ κ ξ δ) := by
  refine ⟨.new garbage, ?_, ?_, ?_⟩
  · rintro t (hrecord | hdeleted)
    · cases hrecord
    · cases hdeleted
  · rintro t ⟨hcreated, -⟩
    have hmain : t = main := by
      by_contra hne
      change Function.update (fun _ => false) main true t = true at hcreated
      rw [Function.update_of_ne hne] at hcreated
      cases hcreated
    subst hmain
    exact ⟨0, rfl, rfl⟩
  · intro j _ hvalid
    cases hvalid

/-- **A thread only gets frames that it filled itself, as long as new threads get pids that no valid
entry records**: the frame of every successful translation, of every live thread, was filled by a page
fault of that thread. -/
theorem frames_isolated {s : State τ σ μ κ ξ δ}
    (h : ((system P main func initialValue d garbage).restrict
      fun s _ => s.Orderly ∧ s.FreshPid).Reachable s) {t : τ} (ht : s.Live t) {a : CInt} {size p : ℕ}
    {writing : Bool} {m : Machine}
    (htranslate : s.memory.machine.translate (s.pid t) a size writing = some (.ok (p, m))) :
    s.filler (p / PageSize) = some t := by
  have hinv : Scheduled s.kernel ∧ Owned s := by
    apply @Transition.System.Reachable.invariant _ _ _ (fun s => Scheduled s.kernel ∧ Owned s) _ h
    · rintro _ rfl
      exact ⟨Scheduled.start, Owned.start⟩
    · rintro s _ s' ⟨hscheduled, howned⟩ ⟨⟨horderly, hfresh⟩, hstep⟩
      cases hstep with
      | kernel hkernel =>
        exact ⟨hscheduled.step horderly.1 hkernel, howned.kernel horderly hfresh hkernel⟩
      | access hcode hcreated hpid haccess =>
        have hlive := howned.current_live hscheduled hcode hcreated
        exact ⟨hscheduled, howned.access hlive hpid haccess⟩
  obtain ⟨j, hj, hfits, -, rfl, -⟩ := hinv.2.mapped.translate_ok_iff.1 htranslate
  obtain ⟨-, hvalid, hthread⟩ := fits_iff.1 hfits
  have hframe : (j * PageSize + a.toNat % PageSize) / PageSize = j := by
    have hlt := Nat.mod_lt a.toNat (show 0 < PageSize by decide)
    rw [Nat.mul_comm, Nat.mul_add_div (by decide), Nat.div_eq_of_lt hlt, Nat.add_zero]
  rw [hframe]
  exact hinv.2.owner j hj hvalid t ht hthread

end

/-- The main thread creates threads 1 and 2 and lets them run, one after the other; then it creates
thread 3.  Their own code is `false`. -/
def threeThreads : Bool → List (Op ℕ Empty Empty Empty Bool)
  | true => [.create 1, .create 2, .fork 1 false, .yield, .fork 2 false, .yield, .create 3,
      .fork 3 false, .yield]
  | false => []

/-- Threads 1 and 2 have been deleted, thread 2 after it touched the page at address 0.  Thread 3 has
the pid of thread 1, which no entry records, and finds the page in the frame that it filled itself. -/
theorem frames_isolated_threeThreads :
    ∃ (s : State ℕ Empty Empty Empty Bool Unit) (m : Machine),
      s.kernel.deleted 1 = true ∧ s.kernel.deleted 2 = true ∧ s.filler 0 = some 2 ∧
      s.pid 3 = s.pid 1 ∧
      s.memory.machine.translate (s.pid 3) 0 1 false = some (.ok (PageSize, m)) ∧
      s.filler (PageSize / PageSize) = some 3 := by
  have hrun : ((stepsWith threeThreads (fun s => s.Orderly ∧ s.FreshPid) 40
      (start 0 true (fun x => x.elim) () fun _ => 0)).bind fun s₁ =>
        (s₁.touch ⟨0, fun _ => 0⟩ (.read 0 1)).bind fun s₂ =>
          (stepsWith threeThreads (fun s => s.Orderly ∧ s.FreshPid) 23 s₂).bind fun s₃ =>
            (s₃.touch ⟨0, fun _ => 0⟩ (.read 0 1)).map fun s =>
              (decide (s₁.Orderly ∧ s₃.Orderly ∧ s₁.creating = none ∧ s₃.creating = none),
                decide (s.kernel.deleted 1 = true ∧ s.kernel.deleted 2 = true ∧ s.filler 0 = some 2 ∧
                  s.pid 3 = s.pid 1 ∧ s.Live 3),
                Paging.outcome (s.memory.machine.translate (s.pid 3) 0 1 false))) =
      some (true, true, some (.ok PageSize)) := by decide +kernel
  obtain ⟨s₁, hsteps₁, hrest⟩ := Option.bind_eq_some_iff.1 hrun
  obtain ⟨s₂, htouch₁, hrest⟩ := Option.bind_eq_some_iff.1 hrest
  obtain ⟨s₃, hsteps₂, hrest⟩ := Option.bind_eq_some_iff.1 hrest
  obtain ⟨s, htouch₂, hfacts⟩ := Option.map_eq_some_iff.1 hrest
  simp only [Prod.mk.injEq, decide_eq_true_eq] at hfacts
  obtain ⟨⟨horderly₁, horderly₃, hcreating₁, hcreating₃⟩, ⟨hone, htwo, hfiller, hpid, hlive⟩, hok⟩ :=
    hfacts
  obtain ⟨m, hm⟩ := Paging.outcome_eq_ok hok
  have hreach₁ := stepsWith_reachable (.of_init rfl) hsteps₁
  have hreach₂ := touch_reachable hreach₁ (guard_of_not_creating horderly₁ hcreating₁) htouch₁
  have hreach₃ := stepsWith_reachable hreach₂ hsteps₂
  have hreach := touch_reachable hreach₃ (guard_of_not_creating horderly₃ hcreating₃) htouch₂
  exact ⟨s, m, hone, htwo, hfiller, hpid, hm, frames_isolated hreach hlive hm⟩

/-- The main thread creates and forks thread 1, and when it is resumed, thread 2. -/
def twoGenerations : Bool → List (Op ℕ Empty Empty Empty Bool)
  | true => [.create 1, .fork 1 false, .yield, .create 2, .fork 2 false, .yield]
  | false => []

/-- Thread 1 touches the page at address 0, finishes and is deleted; thread 2 gets its pid, and with
it the frame that thread 1 filled. -/
theorem stale_frame :
    ∃ (s : State ℕ Empty Empty Empty Bool Unit) (m : Machine),
      ((system (.ofBody (callsOnly twoGenerations)) 0 true (fun x => x.elim) ()
        fun _ => 0).restrict fun s _ => s.Orderly).Reachable s ∧
      s.kernel.currentThread = 2 ∧ s.kernel.code = [] ∧ s.Live 2 ∧ s.kernel.deleted 1 = true ∧
      s.memory.machine.translate (s.pid 2) 0 1 false = some (.ok (0, m)) ∧ s.filler 0 = some 1 := by
  have hrun : ((stepsWith twoGenerations State.Orderly 17
      (start 0 true (fun x => x.elim) () fun _ => 0)).bind fun s₁ =>
        (s₁.touch ⟨0, fun _ => 0⟩ (.read 0 1)).bind fun s₂ =>
        (stepsWith twoGenerations State.Orderly 23 s₂).map fun s => (decide s₁.Orderly,
          decide (s.kernel.currentThread = 2 ∧ s.kernel.code.isEmpty ∧ s.Live 2 ∧
            s.kernel.deleted 1 = true ∧ s.filler 0 = some 1),
          Paging.outcome (s.memory.machine.translate (s.pid 2) 0 1 false))) =
      some (true, true, some (.ok 0)) := by decide +kernel
  obtain ⟨s₁, hsteps, hrest⟩ := Option.bind_eq_some_iff.1 hrun
  obtain ⟨s₂, htouch, hrest⟩ := Option.bind_eq_some_iff.1 hrest
  obtain ⟨s, hsteps', hfacts⟩ := Option.map_eq_some_iff.1 hrest
  simp only [Prod.mk.injEq, decide_eq_true_eq, List.isEmpty_iff] at hfacts
  obtain ⟨horderly, ⟨hcurrent, hcode, hlive, hdeleted, hfiller⟩, hok⟩ := hfacts
  obtain ⟨m, hm⟩ := Paging.outcome_eq_ok hok
  have hreach₁ := stepsWith_reachable (.of_init rfl) hsteps
  have hreach₂ := touch_reachable hreach₁ (fun _ _ => horderly) htouch
  exact ⟨s, m, stepsWith_reachable hreach₂ hsteps', hcurrent, hcode, hlive, hdeleted, hm, hfiller⟩

end Nachos.Lifetimes
