import Nachos.Threads.Equiv.Atomic

/-!
# Programs that use the kernel as expected

`State.Disciplined` is a property of a state.  Whether all states of a run have it can be read off the
threads' own code: `Program.Disciplined` bounds the number of times a thread can still be forked, and
that number and what the thread's status says never add up to more than one.
-/

namespace Nachos.Kernel

variable {τ σ μ κ ξ δ : Type} [DecidableEq τ] [DecidableEq σ] [DecidableEq μ] [DecidableEq κ]
  {lockOf : κ → μ} {last : ξ → Bool} {forks : τ → ξ → ℕ} {s s' : State τ σ μ κ ξ δ}
  {i : Instr τ σ μ κ ξ} {k : List (Instr τ σ μ κ ξ)} {due : List ξ} {timer : Bool}
  {ops : List (Op τ σ μ κ ξ)} {op : Op τ σ μ κ ξ} {func : ξ}

/-- Only `Fork` makes a thread ready that was JUST_CREATED. -/
theorem status_exec_of_justCreated (h : Scheduled s) (hexec : s.exec due timer k i = some s') {t : τ}
    (ht : s.status t = .justCreated) (hready : i ≠ .ready t) : s'.status t = .justCreated := by
  have hpart := h.partitioned
  have hcurrent : t ≠ s.currentThread := by
    rintro rfl
    exact hpart.current_known ht
  have hlist : t ∉ s.readyList := by
    intro hmem
    rw [show s.status t = .ready from (hpart.mem_readyList t).1 hmem] at ht
    cases ht
  have hqueue : ∀ q, t ∉ s.queue q := by
    intro q hmem
    rcases (hpart.of_mem_queue t q hmem).2 with hblocked | ⟨heq, -⟩
    · rw [show s.status t = .blocked from hblocked] at ht
      cases ht
    · exact hcurrent heq
  -- another thread changes its status
  have hother : ∀ {u : τ} {status : ThreadStatus}, t ≠ u →
      Function.update s.status u status t = .justCreated := by
    intro u status hu
    rwa [Function.update_of_ne hu]
  cases i with
  | v x =>
    cases hexec
    change (s.semV x).status t = _
    unfold State.semV
    cases hx : (s.semaphore x).queue with
    | nil =>
      rw [Semaphore.v_of_nil hx]
      exact ht
    | cons u rest =>
      rw [Semaphore.v_of_cons hx]
      refine hother ?_
      rintro rfl
      exact hqueue (.inl x) (show t ∈ (s.semaphore x).queue from hx ▸ List.mem_cons_self)
  | signal c =>
    cases hexec
    change (s.doSignal c).status t = _
    unfold State.doSignal
    split
    · exact ht
    · rename_i u rest hc
      refine hother ?_
      rintro rfl
      exact hqueue (.inr c) (show t ∈ s.waitinglist c from hc ▸ List.mem_cons_self)
  | block =>
    unfold State.exec at hexec
    split_ifs at hexec
    cases hexec
    exact hother hcurrent
  | sleep =>
    cases hexec
    unfold State.doSleep
    split
    · exact ht
    · rename_i u rest hlist'
      refine hother ?_
      rintro rfl
      exact hlist (hlist' ▸ List.mem_cons_self)
  | yield =>
    cases hexec
    unfold State.doYield
    split
    · exact ht
    · rename_i u rest hlist'
      have hu : t ≠ u := by
        rintro rfl
        exact hlist (hlist' ▸ List.mem_cons_self)
      exact (Function.update_of_ne hu _ _).trans (hother hcurrent)
  | ready u =>
    cases hexec
    refine hother ?_
    rintro rfl
    exact hready rfl
  | restore =>
    change s.setOldLevel due timer k = some s' at hexec
    unfold State.setOldLevel at hexec
    split at hexec <;> cases hexec
    exact ht
  | returnWait c =>
    change s.setOldLevel due timer k = some s' at hexec
    unfold State.setOldLevel at hexec
    split at hexec <;> cases hexec
    exact ht
  | handle x => cases hexec
  | release l =>
    cases hexec
    split_ifs <;> exact ht
  | reap =>
    cases hexec
    change s.doReap.status t = _
    unfold State.doReap
    split <;> exact ht
  | _ =>
    cases hexec
    exact ht

/-! ### How often a thread can still be forked -/

section

omit [DecidableEq σ] [DecidableEq μ] [DecidableEq κ]

variable [Fintype τ]

/-- How often the thread `t` is still to be forked. -/
def State.unforked (forks : τ → ξ → ℕ) (s : State τ σ μ κ ξ δ) (t : τ) : ℕ :=
  ∑ u, ((s.program u).map (Op.forks forks t)).sum

theorem unforked_update (forks : τ → ξ → ℕ) {u : τ}
    (hprogram : s'.program = Function.update s.program u ops) (t : τ) :
    s'.unforked forks t + ((s.program u).map (Op.forks forks t)).sum =
      s.unforked forks t + (ops.map (Op.forks forks t)).sum := by
  have hsum := Sync.sum_update (fun ops => (ops.map (Op.forks forks t)).sum) s.program u ops
  rwa [← hprogram] at hsum

/-- What the discipline of a program means for a state. -/
structure Used (lockOf : κ → μ) (last : ξ → Bool) (forks : τ → ξ → ℕ) (s : State τ σ μ κ ξ δ) : Prop where
  tidy : ∀ t, Tidy lockOf last (s.program t)
  /-- A thread about to be made ready by `Fork` has not been before. -/
  fresh : ∀ t, .ready t ∈ s.code → s.status t = .justCreated
  /-- A thread is forked at most once. -/
  once : ∀ t, s.unforked forks t ≤ 1
  /-- A thread that has been forked is not forked again. -/
  never : ∀ t, s.status t ≠ .justCreated ∨ .ready t ∈ s.code → s.unforked forks t = 0

theorem le_unforked (forks : τ → ξ → ℕ) {u : τ} (hprogram : s.program u = op :: ops) (t : τ) :
    op.forks forks t ≤ s.unforked forks t := by
  have hle : ((s.program u).map (Op.forks forks t)).sum ≤ s.unforked forks t :=
    Finset.single_le_sum (f := fun u => ((s.program u).map (Op.forks forks t)).sum)
      (fun _ _ => Nat.zero_le _) (Finset.mem_univ u)
  rw [hprogram, List.map_cons, List.sum_cons] at hle
  omega

namespace Used

/-- A thread that is about to be forked is JUST_CREATED. -/
theorem justCreated_of_fork (h : Used lockOf last forks s) {u t : τ}
    (hprogram : s.program u = .fork t func :: ops) : s.status t = .justCreated := by
  by_contra hne
  have hle := le_unforked forks hprogram t
  rw [h.never t (.inl hne), Op.forks, if_pos rfl] at hle
  omega

theorem disciplined (h : Used lockOf last forks s) : s.Disciplined lockOf where
  forkOnce := by
    unfold State.ForkOnce
    split
    · rename_i t k hcode
      exact h.fresh t (hcode ▸ List.mem_cons_self)
    · rename_i t func ops hcode hprogram
      exact h.justCreated_of_fork hprogram
    · trivial
  oneLock := by
    unfold State.OneLock
    split
    · rename_i c l ops hcode hprogram
      have htidy := h.tidy s.currentThread
      rw [hprogram] at htidy
      exact htidy.1
    · trivial
  finishLast := by
    unfold State.FinishLast
    split
    · rename_i ops hcode hprogram
      have htidy := h.tidy s.currentThread
      rw [hprogram] at htidy
      exact htidy
    · trivial

end Used

end

namespace Used

variable [Fintype τ]

theorem exec (h : Used lockOf last forks s) (hscheduled : Scheduled s) (hcode : s.code = i :: k)
    (hexec : s.exec due timer k i = some s') : Used lockOf last forks s' := by
  have hprogram := (exec_footprint hexec).program
  have hunforked : ∀ t, s'.unforked forks t = s.unforked forks t := by
    intro t
    unfold State.unforked
    rw [hprogram]
  -- a statement of `Fork` that is left was there before
  have hready : ∀ t, .ready t ∈ s'.code → .ready t ∈ k := by
    intro t ht
    have hmem := (mem_kernel_exec hexec rfl s'.currentThread).1 ht
    split_ifs at hmem with hcurrent
    · exact hmem
    · have hurgent := (hscheduled.wellFormed.other _ hcurrent).2.2 _ hmem
      cases hurgent
  refine ⟨fun t => hprogram ▸ h.tidy t, fun t ht => ?_, fun t => (hunforked t).trans_le (h.once t), ?_⟩
  · have hmem := hready t ht
    refine status_exec_of_justCreated hscheduled hexec (h.fresh t (hcode ▸ List.mem_cons_of_mem _ hmem)) ?_
    rintro rfl
    -- `Fork` makes one thread ready
    have hok := hscheduled.wellFormed.current
    rw [hcode] at hok
    have hurgent := hok.2.1.2 _ hmem
    cases hurgent
  · intro t ht
    rw [hunforked]
    refine h.never t ?_
    by_contra hnot
    rw [not_or, not_not, hcode, List.mem_cons, not_or] at hnot
    rcases ht with hstatus | hmem
    · exact hstatus (status_exec_of_justCreated hscheduled hexec hnot.1 (Ne.symm hnot.2.1))
    · exact hnot.2.2 (hready t hmem)

omit [DecidableEq σ] [DecidableEq μ] [DecidableEq κ] in
/-- The threads' own code goes on, with `Fork` out of the way. -/
theorem proceed (h : Used lockOf last forks s)
    (hprogram : s'.program = Function.update s.program s.currentThread ops)
    (htidy : Tidy lockOf last ops)
    (hforks : ∀ t, (ops.map (Op.forks forks t)).sum ≤
      ((s.program s.currentThread).map (Op.forks forks t)).sum) (hstatus : s'.status = s.status)
    (hready : ∀ t, .ready t ∈ s'.code → .ready t ∈ s.code) : Used lockOf last forks s' := by
  have hunforked : ∀ t, s'.unforked forks t ≤ s.unforked forks t := by
    intro t
    have hsum := unforked_update forks hprogram t
    have hle := hforks t
    omega
  refine ⟨fun t => ?_, fun t ht => ?_, fun t => (hunforked t).trans (h.once t), fun t ht => ?_⟩
  · rw [hprogram, Function.update_apply]
    split_ifs
    · exact htidy
    · exact h.tidy t
  · rw [hstatus]
    exact h.fresh t (hready t ht)
  · rw [hstatus] at ht
    have hle := hunforked t
    rw [h.never t (ht.imp_right (hready t))] at hle
    exact Nat.le_zero.1 hle

omit [DecidableEq τ] [DecidableEq σ] [DecidableEq μ] [DecidableEq κ] [Fintype τ] in
theorem tidy_tail (h : Tidy lockOf last (op :: ops)) : Tidy lockOf last ops := by
  cases op with
  | wait c l => exact h.2
  | finish =>
    obtain rfl : ops = [] := h
    trivial
  | own x => exact h.2
  | fork t func => exact h.2
  | _ => exact h

omit [DecidableEq σ] [DecidableEq μ] [DecidableEq κ] in
/-- `Fork` takes a fork off the list, and puts the forks of the new thread on it. -/
theorem fork {t : τ} (h : Used lockOf last forks s) (hcode : s.code = [])
    (hprogram : s.program s.currentThread = .fork t func :: ops) :
    Used lockOf last forks ((s.proceed ops).call due timer (.fork t func)) := by
  have hself := h.tidy s.currentThread
  rw [hprogram] at hself
  have hstatus := h.justCreated_of_fork hprogram
  have hunforked : ∀ u, ((s.proceed ops).call due timer (.fork t func)).unforked forks u +
      (if t = u then 1 else 0) ≤ s.unforked forks u := by
    intro u
    have hcaller : (s.proceed ops).unforked forks u + _ = s.unforked forks u + _ :=
      unforked_update forks rfl u
    have hnew : ((s.proceed ops).call due timer (.fork t func)).unforked forks u + _ =
        (s.proceed ops).unforked forks u + _ := unforked_update forks rfl u
    have hthread : (([.own func, .finish] : List (Op τ σ μ κ ξ)).map (Op.forks forks u)).sum =
        forks u func := rfl
    rw [hprogram, List.map_cons, List.sum_cons, Op.forks] at hcaller
    rw [hthread] at hnew
    omega
  have hready : ∀ u, .ready u ∈ ((s.proceed ops).call due timer (.fork t func)).code → u = t := by
    intro u hu
    have hcode' : ((s.proceed ops).call due timer (.fork t func)).code = Instr.threadFork t :=
      call_kernel_self (s := s.proceed ops) hcode
    rw [hcode'] at hu
    simpa [Instr.threadFork] using hu
  refine ⟨fun u => ?_, fun u hu => hready u hu ▸ hstatus, fun u => ?_, fun u hu => ?_⟩
  · change Tidy lockOf last (Function.update (Function.update s.program s.currentThread ops) t
      [.own func, .finish] u)
    rw [Function.update_apply, Function.update_apply]
    split_ifs
    · exact ⟨fun hlast => absurd (hself.1.symm.trans hlast) Bool.false_ne_true, rfl⟩
    · exact hself.2
    · exact h.tidy u
  · have hle := hunforked u
    have honce := h.once u
    omega
  · have hle := hunforked u
    rcases hu with hne | hmem
    · rw [h.never u (.inl hne)] at hle
      omega
    · have honce := h.once u
      rw [if_pos (hready u hmem).symm] at hle
      omega

omit [DecidableEq τ] [DecidableEq σ] [DecidableEq μ] [DecidableEq κ] [Fintype τ] in
theorem ready_notMem_routine (hfork : ∀ t func, op ≠ .fork t func) (t : τ) :
    .ready t ∉ op.routine due timer := by
  cases op with
  | fork u func => exact absurd rfl (hfork u func)
  | oneTick =>
    intro hmem
    cases called_front (oneTick_mem_front due timer) _ hmem
  | _ =>
    simp [Op.routine, Instr.semaphoreP, Instr.semaphoreV, Instr.lockAcquire, Instr.conditionSignal,
      Instr.conditionBroadcast, Instr.threadYield, Instr.threadFinish, Instr.conditionWait,
      Instr.threadSleep]

theorem step {P : Program τ σ μ κ ξ δ} {main : τ} (hP : P.Disciplined lockOf last forks main func)
    (h : Used lockOf last forks s) (hscheduled : Scheduled s) (hstep : Step P s s') :
    Used lockOf last forks s' := by
  cases hstep with
  | exec hcode hexec => exact h.exec hscheduled hcode hexec
  | @handle x k d vs hcode hhandle =>
    refine h.proceed (Function.update_eq_self _ _).symm (h.tidy _) (fun _ => le_rfl) rfl ?_
    intro t ht
    change _ ∈ Function.update s.kernel s.currentThread _ s.currentThread at ht
    rw [Function.update_self] at ht
    rw [hcode]
    refine List.mem_cons_of_mem _ ((List.mem_append.1 ht).resolve_left fun hmem => ?_)
    obtain ⟨y, -, hy⟩ := List.mem_flatMap.1 hmem
    simp [Instr.semaphoreV] at hy
  | @own x ops d more hcode hprogram hexec =>
    have htidy := h.tidy s.currentThread
    rw [hprogram] at htidy
    refine h.proceed rfl (hP.tidy _ x _ d more ops hexec htidy) ?_ rfl fun t ht => ht
    intro t
    have hle := hP.forks_le t _ x _ d more hexec
    rw [hprogram, List.map_append, List.sum_append, List.map_cons, List.sum_cons]
    exact Nat.add_le_add_right hle _
  | @call op ops due timer hcode hprogram hop =>
    by_cases hfork : ∃ t func, op = .fork t func
    · obtain ⟨t, func, rfl⟩ := hfork
      exact h.fork hcode hprogram
    · have htidy := h.tidy s.currentThread
      rw [hprogram] at htidy
      have hno : ∀ t func, op ≠ .fork t func := fun t func heq => hfork ⟨t, func, heq⟩
      have hprogram' : ((s.proceed ops).call due timer op).program =
          Function.update s.program s.currentThread ops := call_program hno
      refine h.proceed hprogram' (tidy_tail htidy) ?_ ?_ ?_
      · intro t
        rw [hprogram, List.map_cons, List.sum_cons]
        exact Nat.le_add_left _ _
      · cases op <;> rfl
      · intro t ht
        have hcurrent : ((s.proceed ops).call due timer op).currentThread = s.currentThread := by
          cases op <;> rfl
        rw [State.code, hcurrent] at ht
        have hroutine : ((s.proceed ops).call due timer op).kernel s.currentThread = op.routine due timer :=
          call_kernel_self (s := s.proceed ops) hcode
        rw [hroutine] at ht
        exact absurd ht (ready_notMem_routine hno t)

omit [DecidableEq σ] [DecidableEq μ] [DecidableEq κ] in
theorem start {P : Program τ σ μ κ ξ δ} {main : τ} {initialValue : σ → ℤ} {d : δ}
    (hP : P.Disciplined lockOf last forks main func) :
    Used lockOf last forks (start main func initialValue d : State τ σ μ κ ξ δ) := by
  have hunforked : ∀ t, (Kernel.start main func initialValue d : State τ σ μ κ ξ δ).unforked forks t =
      forks t func := by
    intro t
    have hsum := Sync.sum_update (fun ops : List (Op τ σ μ κ ξ) => (ops.map (Op.forks forks t)).sum)
      (fun _ => []) main [.own func]
    simp only [List.map_nil, List.sum_nil, Finset.sum_const_zero, add_zero, zero_add] at hsum
    exact hsum
  have hready : ∀ t, .ready t ∉ (Kernel.start main func initialValue d : State τ σ μ κ ξ δ).code := by
    intro t ht
    change .ready t ∈ Function.update (fun _ => ([] : List (Instr τ σ μ κ ξ))) main [.enable] main at ht
    rw [Function.update_self] at ht
    simp at ht
  refine ⟨fun t => ?_, fun t ht => absurd ht (hready t), fun t => ?_, fun t ht => ?_⟩
  · change Tidy lockOf last (Function.update (fun _ => []) main [.own func] t)
    rw [Function.update_apply]
    split_ifs
    · exact ⟨fun _ => rfl, trivial⟩
    · trivial
  · have hle := hP.once t
    rw [hunforked]
    split_ifs at hle <;> omega
  · have hne := ht.resolve_right (hready t)
    change Function.update (fun _ => ThreadStatus.justCreated) main .running t ≠ _ at hne
    have hle := hP.once t
    rw [Function.update_apply] at hne
    rw [hunforked]
    split_ifs at hne hle <;> simp_all

end Used

section

variable [Fintype τ] {P : Program τ σ μ κ ξ δ} {main : τ} {initialValue : σ → ℤ} {d : δ}

/-- A disciplined program is disciplined in every state. -/
theorem Program.Disciplined.reachable (hP : P.Disciplined lockOf last forks main func)
    (h : (system P main func initialValue d).Reachable s) :
    ((system P main func initialValue d).restrict fun s _ => s.Disciplined lockOf).Reachable s ∧
      Used lockOf last forks s := by
  refine @Transition.System.Reachable.invariant _ _ _ (fun s =>
    ((system P main func initialValue d).restrict fun s _ => s.Disciplined lockOf).Reachable s ∧
      Used lockOf last forks s) _ h ?_ ?_
  · rintro _ rfl
    exact ⟨.of_init rfl, Used.start hP⟩
  · rintro s _ s' ⟨hreach, hused⟩ hstep
    exact ⟨hreach.tail (a := ()) ⟨hused.disciplined, hstep⟩,
      hused.step hP (exists_refines hreach).1.waits.locked.scheduled hstep⟩

/-- **The kernel's synchronisation is atomic to its users.**  In every run of threads that use the kernel
as expected, with interrupts at any tick, the values of the semaphores, the waiting lists, the threads'
data and what every thread has left to do are those of a reachable state of the machine in which `P`,
`V`, `Acquire`, `Release`, `Wait` and `Signal` are single steps, and a recorded holder of a lock is its
owner there. -/
theorem threads_see_atomic (hP : P.Disciplined lockOf last forks main func)
    (h : (system P main func initialValue d).Reachable s) :
    ∃ a, (atomicSystem P lockOf main func initialValue d).Reachable a ∧
      (∀ x, a.value x = (s.semaphore (.inl x)).value) ∧
      (∀ l t, s.heldthread l = some t → a.owner l = some t) ∧
      a.waiting = s.waitinglist ∧ a.code = s.acts ∧ a.data = s.data := by
  obtain ⟨-, a, ha, hrefines⟩ := exists_refines (hP.reachable h).1
  exact ⟨a, ha, hrefines.value, fun l t hheld => hrefines.owner_of_has l t (.inl hheld), hrefines.waiting,
    hrefines.code, hrefines.data⟩

end

theorem disciplined_forkAndWait : (Program.ofBody (δ := Unit) (callsOnly forkAndWait)).Disciplined
    Empty.elim (fun _ => false) (fun t x => if t = true ∧ x = false then 1 else 0) false false where
  tidy := by
    rintro t x d d' ops more hexec ⟨-, htidy⟩
    obtain ⟨rfl, rfl⟩ : d = d' ∧ forkAndWait x = ops := by simpa using Option.some.inj hexec
    cases x with
    | false => exact ⟨rfl, htidy⟩
    | true => exact htidy
  forks_le := by
    intro t u x d d' ops hexec
    obtain ⟨rfl, rfl⟩ : d = d' ∧ forkAndWait x = ops := by simpa using Option.some.inj hexec
    cases x <;> cases t <;> decide
  once := by decide

theorem threads_see_atomic_forkAndWait :
    ∃ (s : State Bool Unit Empty Empty Bool Unit) (a : Sync.State Bool Unit Empty Empty Bool Unit),
      s.acts false = [.p ()] ∧
      (atomicSystem (.ofBody (callsOnly forkAndWait)) Empty.elim false false (fun _ => 0) ()).Reachable a ∧
      a.value () = (s.semaphore (.inl ())).value ∧ a.code false = [.p ()] := by
  have hrun : ((fun o => o.bind fun s : State Bool Unit Empty Empty Bool Unit =>
      if True then s.next (callsOnly forkAndWait) else none)^[18]
        (some (Kernel.start false false (fun _ => 0) ()))).map (fun s => s.acts false) =
      some [.p ()] := by decide +kernel
  obtain ⟨s, hs, hacts⟩ := Option.map_eq_some_iff.1 hrun
  obtain ⟨a, ha, hvalue, -, -, hcode, -⟩ := threads_see_atomic disciplined_forkAndWait
    (reachable_of_iterate (P := .ofBody (callsOnly forkAndWait)) (fun _ _ _ _ _ h => h) (fun _ => True) 18
      hs).of_restrict
  exact ⟨s, a, hacts, ha, hvalue (), hcode ▸ hacts⟩

section

variable [Fintype τ] {P : Program τ σ μ κ ξ δ} {main : τ} {initialValue : σ → ℤ} {d : δ}

/-- **No wakeup is lost.**  In every run of threads that use the kernel as expected, when no semaphore
starts below 0 and the processor finds nobody to run, every thread has not been forked, or has finished,
or is on the queue of a semaphore that is 0, or on the queue of a lock that some thread has, or on a
condition's waiting list.  A thread that acquires a lock twice waits for itself. -/
theorem no_lost_wakeup (hP : P.Disciplined lockOf last forks main func) (hvalue : ∀ x, 0 ≤ initialValue x)
    (h : (system P main func initialValue d).Reachable s) (hnobody : s.NobodyReady) (t : τ) :
    s.status t = .justCreated ∨ s.finished t = true ∨
      (∃ x, t ∈ (s.semaphore (.inl x)).queue ∧ (s.semaphore (.inl x)).value = 0) ∨
      (∃ l u, t ∈ (s.semaphore (.inr l)).queue ∧ s.Has l u) ∨ ∃ c, t ∈ s.waitinglist c := by
  obtain ⟨hknown, a, ha, hrefines⟩ := exists_refines (hP.reachable h).1
  rcases hknown.asleep_of_nobodyReady hnobody t with ⟨hstatus, -⟩ | hfinished | ⟨x | l, hqueue⟩ | hwaiting
  · exact .inl hstatus
  · exact .inr (.inl hfinished)
  · have hzero := hknown.value_le_zero hnobody (List.ne_nil_of_mem hqueue)
    have hnonneg := Sync.value_nonneg ha hvalue x
    rw [hrefines.value] at hnonneg
    exact .inr (.inr (.inl ⟨x, hqueue, le_antisymm hzero hnonneg⟩))
  · have hzero := hknown.value_le_zero hnobody (List.ne_nil_of_mem hqueue)
    obtain ⟨u, hu⟩ := hknown.waits.locked.exists_has hzero
    exact .inr (.inr (.inr (.inl ⟨l, u, hqueue, hu⟩)))
  · exact .inr (.inr (.inr (.inr hwaiting)))

end

theorem no_lost_wakeup_forkAndWait : ∃ s : State Bool Unit Empty Empty Bool Unit,
    s.NobodyReady ∧ false ∈ (s.semaphore (.inl ())).queue ∧ (s.semaphore (.inl ())).value = 0 := by
  have hrun : ((fun o => o.bind fun s : State Bool Unit Empty Empty Bool Unit =>
      if True then s.next (callsOnly forkAndWait) else none)^[24]
        (some (Kernel.start false false (fun _ => 0) ()))).map
      (fun s => decide (s.readyList = [] ∧ s.code = [.sleep] ∧ s.status false = .blocked ∧
        s.finished false = false)) = some true := by decide +kernel
  obtain ⟨s, hs, hfacts⟩ := Option.map_eq_some_iff.1 hrun
  obtain ⟨hready, hcode, hstatus, hfinished⟩ := of_decide_eq_true hfacts
  have hrest := no_lost_wakeup disciplined_forkAndWait (fun _ => le_rfl)
    (reachable_of_iterate (P := .ofBody (callsOnly forkAndWait)) (fun _ _ _ _ _ h => h) (fun _ => True) 24
      hs).of_restrict ⟨hready, _, hcode⟩ false
  rw [hstatus, hfinished] at hrest
  obtain ⟨x, hqueue⟩ : ∃ x, false ∈ (s.semaphore (.inl x)).queue ∧ (s.semaphore (.inl x)).value = 0 := by
    simpa using hrest
  exact ⟨s, ⟨hready, _, hcode⟩, hqueue⟩

end Nachos.Kernel
