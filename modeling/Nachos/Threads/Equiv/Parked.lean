import Nachos.Threads.Atomic

/-!
# What a sleeping thread waits for

A thread goes to sleep in `P`, in `Wait` or in `Finish`, and what it will do when it is out of `Sleep`
says which: test the semaphore again, take the lock back, or nothing.  `afterwards` is what it will do,
whatever handlers run on top of it in the meantime, and `Parked` says that it fits the list the thread is
on.
-/

namespace Nachos.Kernel

variable {τ σ μ κ ξ δ : Type}

/-- The statements behind the loop of `Sleep`. -/
def afterSleep : List (Instr τ σ μ κ ξ) → List (Instr τ σ μ κ ξ)
  | [] => []
  | .sleep :: k => k
  | _ :: k => afterSleep k

/-- The statements of a thread that is resumed. -/
def resumed : List (Instr τ σ μ κ ξ) → List (Instr τ σ μ κ ξ)
  | .reap :: k => k
  | k => k

/-- What a thread with `k` left to do will do when it is out of `Sleep`. -/
def afterwards (k : List (Instr τ σ μ κ ξ)) : List (Instr τ σ μ κ ξ) :=
  if phase k = .running then resumed k else afterSleep k

/-- The order of the statements of `Wait` and `Finish`. -/
def Shape (lockOf : κ → μ) : List (Instr τ σ μ κ ξ) → Prop
  | [] => True
  | .append c :: k => k = Instr.threadSleep ++ Instr.lockAcquire (lockOf c) ++ [.returnWait c]
  | .destroy :: k => k = Instr.threadSleep
  | .release l :: k => (∀ c, .append c ∈ k → lockOf c = l) ∧ Shape lockOf k
  | .v (.inr l) :: k => (∀ c, .append c ∈ k → lockOf c = l) ∧ Shape lockOf k
  | .assign _ :: k => (∀ c, .append c ∉ k) ∧ Shape lockOf k
  | _ :: k => Shape lockOf k

theorem afterwards_of_running {k : List (Instr τ σ μ κ ξ)} (h : phase k = .running) :
    afterwards k = resumed k := if_pos h

theorem afterwards_of_not_running {k : List (Instr τ σ μ κ ξ)} (h : phase k ≠ .running) :
    afterwards k = afterSleep k := if_neg h

theorem afterSleep_handle_append (due : List ξ) (k : List (Instr τ σ μ κ ξ)) :
    afterSleep (due.map .handle ++ k) = afterSleep k := by
  induction due with
  | nil => rfl
  | cons x due ih => exact ih

theorem afterSleep_flatMap_append (vs : List σ) (k : List (Instr τ σ μ κ ξ)) :
    afterSleep (vs.flatMap (fun x => Instr.semaphoreV (.inl x)) ++ k) = afterSleep k := by
  induction vs with
  | nil => rfl
  | cons x vs ih => exact ih

variable {lockOf : κ → μ} {i : Instr τ σ μ κ ξ} {k k₀ : List (Instr τ σ μ κ ξ)} {due : List ξ} {timer : Bool}

/-- `Shape` says nothing about the other statements. -/
def Instr.shapeless : Instr τ σ μ κ ξ → Bool
  | .append _ => false
  | .destroy => false
  | .release _ => false
  | .v (.inr _) => false
  | .assign _ => false
  | _ => true

theorem shape_cons (hi : i.shapeless = true) : Shape lockOf (i :: k) ↔ Shape lockOf k := by
  cases i with
  | v x => cases x <;> [exact Iff.rfl; cases hi]
  | append c => cases hi
  | destroy => cases hi
  | release l => cases hi
  | assign l => cases hi
  | _ => exact Iff.rfl

theorem shape_append (hk₀ : ∀ j ∈ k₀, j.shapeless = true) : Shape lockOf (k₀ ++ k) ↔ Shape lockOf k := by
  induction k₀ with
  | nil => exact Iff.rfl
  | cons i k₀ ih =>
    rw [List.forall_mem_cons] at hk₀
    rw [List.cons_append, shape_cons hk₀.1, ih hk₀.2]

theorem Shape.tail (h : Shape lockOf (i :: k)) : Shape lockOf k := by
  by_cases hi : i.shapeless = true
  · exact (shape_cons hi).1 h
  cases i with
  | v x => cases x <;> [exact absurd rfl hi; exact h.2]
  | append c =>
    obtain rfl : k = _ := h
    exact ⟨by simp, trivial⟩
  | destroy =>
    obtain rfl : k = _ := h
    trivial
  | release l => exact h.2
  | assign l => exact h.2
  | _ => exact absurd rfl hi

theorem Shape.exec (h : Shape lockOf (i :: k)) (hk₀ : k₀ ∈ i.front due timer) :
    Shape lockOf (k₀ ++ k) := by
  by_cases hrelease : ∃ l, i = .release l
  · obtain ⟨l, rfl⟩ := hrelease
    rcases List.mem_pair.1 hk₀ with rfl | rfl
    · exact h.2
    · refine ⟨fun c hc => h.1 c ?_, h.2⟩
      simpa using hc
  rw [shape_append]
  · exact h.tail
  · exact forall_mem_front hk₀ rfl rfl (fun _ => rfl) rfl rfl rfl rfl rfl (fun _ _ => rfl)
      (fun l hl => absurd ⟨l, hl⟩ hrelease) (fun _ _ => rfl) fun _ _ => rfl

variable [DecidableEq τ] [DecidableEq σ] [DecidableEq μ] [DecidableEq κ] {s s' : State τ σ μ κ ξ δ}
  {x : σ ⊕ μ} {t : τ}

/-- A statement of a thread in `Sleep` does not change what it will do afterwards. -/
theorem afterwards_exec (h : WellFormed s) (hcode : s.code = i :: k) (hphase : phase s.code ≠ .running)
    (hexec : s.exec due timer k i = some s') :
    afterwards (s'.kernel s.currentThread) = afterwards s.code := by
  have hok := h.current
  rw [hcode] at hok hphase ⊢
  -- the statement is executed, and its phase is that of the rest
  have hmove : phase k ≠ .running → afterSleep (i :: k) = afterSleep k →
      s'.kernel = Function.update s.kernel s.currentThread k →
      afterwards (s'.kernel s.currentThread) = afterwards (i :: k) := by
    intro hk hsame hkernel
    rw [hkernel, Function.update_self, afterwards_of_not_running hk, afterwards_of_not_running hphase, hsame]
  cases i with
  | disable =>
    cases hexec
    exact hmove hphase rfl rfl
  | restore =>
    obtain ⟨old, rest, hsaved, hon, -⟩ := hok
    have hold : old = .intOff := by
      cases old with
      | intOff => rfl
      | intOn => exact absurd (hon rfl).1 hphase
    subst hold
    unfold State.exec State.setOldLevel at hexec
    rw [hsaved] at hexec
    cases hexec
    exact hmove hphase rfl rfl
  | v x =>
    cases hexec
    refine hmove hphase rfl ?_
    unfold State.semV
    split <;> rfl
  | block =>
    obtain ⟨hlevel, ⟨hk, -⟩, -⟩ := hok
    rw [State.exec, if_pos hlevel] at hexec
    cases hexec
    refine hmove ?_ rfl rfl
    simp [hk]
  | sleep =>
    cases hexec
    unfold State.doSleep
    split
    · have hphase' : phase (due.map Instr.handle ++ Instr.sleep :: k) ≠ .running := by
        rw [phase_handle_append]
        exact hphase
      change afterwards (Function.update s.kernel _ (due.map Instr.handle ++ .sleep :: k) _) = _
      rw [Function.update_self, afterwards_of_not_running hphase, afterwards_of_not_running hphase',
        afterSleep_handle_append]
    · change afterwards (Function.update s.kernel _ (.reap :: k) _) = _
      rw [Function.update_self]
      rfl
  | handle x => cases hexec
  | _ => exact absurd rfl hphase

/-! ### The invariant -/

/-- Every thread on a list is in `Sleep` for the reason the list says. -/
structure Parked (lockOf : κ → μ) (s : State τ σ μ κ ξ δ) : Prop where
  shape : ∀ t, Shape lockOf (s.kernel t)
  /-- A thread on the queue of a semaphore will test it again. -/
  queued : ∀ t x, t ∈ (s.semaphore x).queue → ∃ k, afterwards (s.kernel t) = .p x :: k
  /-- A thread on a waiting list will take the lock back. -/
  listed : ∀ t c, t ∈ s.waitinglist c → ∃ l k, afterwards (s.kernel t) = .disable :: .p (.inr l) :: k
  finished : ∀ t, s.finished t = true → afterwards (s.kernel t) = []
  /-- A thread that finishes has nothing else to do. -/
  done : ∀ t, s.finished t = true ∨ .destroy ∈ s.kernel t → s.program t = []
  /-- A thread that has not been forked has nothing to do. -/
  fresh : ∀ t, s.status t = .justCreated → s.kernel t = [] ∧ s.program t = [] ∨ .ready t ∈ s.code

/-- How the queue of a semaphore changes. -/
theorem mem_queue_exec (hexec : s.exec due timer k i = some s') (ht : t ∈ (s'.semaphore x).queue) :
    t ∈ (s.semaphore x).queue ∨ t = s.currentThread ∧ i = .p x ∧ (s.semaphore x).value = 0 := by
  cases i with
  | p y =>
    cases hexec
    change t ∈ (Function.update s.semaphore y ((s.semaphore y).p s.currentThread).1 x).queue at ht
    by_cases hx : x = y
    · subst hx
      rw [Function.update_self] at ht
      by_cases hvalue : (s.semaphore x).value = 0
      · rw [Semaphore.p_of_eq_zero _ hvalue, List.mem_append, List.mem_singleton] at ht
        exact ht.imp_right fun heq => ⟨heq, rfl, hvalue⟩
      · rw [Semaphore.p_of_ne_zero _ hvalue] at ht
        exact .inl ht
    · rw [Function.update_of_ne hx] at ht
      exact .inl ht
  | v y =>
    cases hexec
    left
    change t ∈ ((s.semV y).semaphore x).queue at ht
    rw [(semV_frame s y).1] at ht
    by_cases hx : x = y
    · subst hx
      rw [Function.update_self] at ht
      exact List.mem_of_mem_tail ht
    · rwa [Function.update_of_ne hx] at ht
  | _ =>
    rw [(exec_footprint hexec).semaphore fun _ => ⟨by simp, by simp⟩] at ht
    exact .inl ht

/-- Only `P` and `V` on a semaphore change it. -/
theorem semaphore_exec (hexec : s.exec due timer k i = some s') (hp : i ≠ .p x) (hv : i ≠ .v x) :
    s'.semaphore x = s.semaphore x := by
  cases i with
  | p y =>
    cases hexec
    have hx : x ≠ y := fun heq => hp (heq ▸ rfl)
    exact Function.update_of_ne hx _ _
  | v y =>
    cases hexec
    have hx : x ≠ y := fun heq => hv (heq ▸ rfl)
    change (s.semV y).semaphore x = _
    rw [(semV_frame s y).1, Function.update_of_ne hx]
  | _ => exact congrFun ((exec_footprint hexec).semaphore fun _ => ⟨by simp, by simp⟩) x

theorem mem_waitinglist_exec (hexec : s.exec due timer k i = some s') {c : κ}
    (ht : t ∈ s'.waitinglist c) : t ∈ s.waitinglist c ∨ t = s.currentThread ∧ i = .append c := by
  by_cases happend : i = .append c
  · subst happend
    cases hexec
    change t ∈ Function.update s.waitinglist c _ c at ht
    rw [Function.update_self, List.mem_append, List.mem_singleton] at ht
    exact ht.imp_right fun heq => ⟨heq, rfl⟩
  by_cases hsignal : i = .signal c
  · subst hsignal
    cases hexec
    left
    change t ∈ (s.doSignal c).waitinglist c at ht
    unfold State.doSignal at ht
    split at ht
    · exact ht
    · rename_i next rest hlist
      change t ∈ Function.update s.waitinglist c rest c at ht
      rw [Function.update_self] at ht
      rw [hlist]
      exact List.mem_cons_of_mem _ ht
  · rw [waitinglist_exec hexec happend hsignal] at ht
    exact .inl ht

theorem finished_exec (hexec : s.exec due timer k i = some s') (ht : s'.finished t = true) :
    s.finished t = true ∨ t = s.currentThread ∧ i = .destroy := by
  by_cases hdestroy : i = .destroy
  · subst hdestroy
    cases hexec
    change Function.update s.finished s.currentThread true t = true at ht
    rw [Function.update_apply] at ht
    split_ifs at ht with heq
    · exact .inr ⟨heq, rfl⟩
    · exact .inl ht
  by_cases hreap : i = .reap
  · subst hreap
    cases hexec
    left
    change s.doReap.finished t = true at ht
    unfold State.doReap at ht
    split at ht <;> exact ht
  · rw [((exec_footprint hexec).ledger hreap hdestroy).2.2.2.1] at ht
    exact .inl ht

theorem status_before_exec (h : Scheduled s) (hfork : s.ForkOnce) (hcode : s.code = i :: k)
    (hexec : s.exec due timer k i = some s') (ht : s'.status t = .justCreated) :
    s.status t = .justCreated ∧ t ≠ s.currentThread := by
  have hbefore : s.status t = .justCreated := by
    have hready : ∀ u, i = .ready u → s.status u = .justCreated := by
      rintro u rfl
      rwa [State.ForkOnce, hcode] at hfork
    rcases placement_exec h.wellFormed hcode hready hexec with heq | hmove
    · rwa [← show s'.status = s.status from congrArg Placement.status heq]
    · exact status_of_step hmove ht
  refine ⟨hbefore, ?_⟩
  rintro rfl
  exact h.partitioned.current_known hbefore

namespace Parked

theorem exec (h : Parked lockOf s) (hscheduled : Scheduled s) (hfork : s.ForkOnce)
    (hcode : s.code = i :: k) (hexec : s.exec due timer k i = some s') : Parked lockOf s' := by
  have hwell := hscheduled.wellFormed
  have hpart := hscheduled.partitioned
  have hok := hwell.current
  obtain ⟨k₀, hk₀, hkernel⟩ := exec_front hexec
  have hother : ∀ {t}, t ≠ s.currentThread → s'.kernel t = s.kernel t := by
    intro t ht
    rw [hkernel, Function.update_of_ne ht]
  -- a thread in `Sleep` stays there, for the same reason
  have hstays : ∀ t, (t = s.currentThread → phase s.code ≠ .running) →
      afterwards (s'.kernel t) = afterwards (s.kernel t) := by
    intro t ht
    by_cases hcurrent : t = s.currentThread
    · subst hcurrent
      exact afterwards_exec hwell hcode (ht rfl) hexec
    · rw [hother hcurrent]
  have hshape := h.shape s.currentThread
  rw [show s.kernel s.currentThread = _ from hcode] at hshape
  constructor
  · intro t
    rw [hkernel, Function.update_apply]
    split_ifs
    · exact hshape.exec hk₀
    · exact h.shape t
  · intro t x ht
    rcases mem_queue_exec hexec ht with hold | ⟨rfl, rfl, hvalue⟩
    · rw [hstays]
      · exact h.queued t x hold
      · rintro rfl hphase
        exact hpart.current_notMem_queue hphase (.inl x) hold
    · cases hexec
      rw [semP_kernel, if_pos hvalue]
      exact ⟨k, rfl⟩
  · intro t c ht
    rcases mem_waitinglist_exec hexec ht with hold | ⟨rfl, rfl⟩
    · rw [hstays]
      · exact h.listed t c hold
      · rintro rfl hphase
        exact hpart.current_notMem_queue hphase (.inr c) hold
    · cases hexec
      rw [show (State.goto (s.doAppend c) k).kernel s.currentThread = k from Function.update_self _ _ _,
        show k = _ from hshape]
      exact ⟨lockOf c, _, rfl⟩
  · intro t ht
    rcases finished_exec hexec ht with hold | ⟨rfl, rfl⟩
    · rw [hstays]
      · exact h.finished t hold
      · rintro rfl hphase
        exact Bool.false_ne_true ((hpart.current_not_finished hphase).symm.trans hold)
    · cases hexec
      rw [show (State.goto _ k).kernel s.currentThread = k from Function.update_self _ _ _,
        show k = _ from hshape]
      rfl
  · intro t ht
    rw [(exec_footprint hexec).program]
    refine h.done t ?_
    rcases ht with hfinished | hdestroy
    · rcases finished_exec hexec hfinished with hold | ⟨rfl, rfl⟩
      · exact .inl hold
      · right
        rw [show s.kernel s.currentThread = _ from hcode]
        exact List.mem_cons_self
    · right
      rw [mem_kernel_exec hexec rfl] at hdestroy
      split_ifs at hdestroy with ht
      · rw [ht, show s.kernel s.currentThread = _ from hcode]
        exact List.mem_cons_of_mem _ hdestroy
      · exact hdestroy
  · intro t ht
    obtain ⟨hbefore, hne⟩ := status_before_exec hscheduled hfork hcode hexec ht
    rw [hother hne, (exec_footprint hexec).program]
    refine (h.fresh t hbefore).imp_right fun hready => ?_
    rw [hcode, List.mem_cons] at hready
    rcases hready with rfl | hready
    · cases hexec
      rw [show (State.goto (s.readyToRun t) k).status t = .ready from Function.update_self _ _ _] at ht
      cases ht
    · have hurgent : ¬ Settled k := fun hsettled => Bool.noConfusion (hsettled _ hready)
      have hcurrent : s'.currentThread = s.currentThread := by
        rw [hcode] at hok
        refine (exec_footprint hexec).currentThread ?_ ?_
        · rintro rfl
          exact hurgent hok.2.1.2
        · rintro rfl
          exact hurgent hok.2.1.2
      rw [State.code, hcurrent, mem_kernel_exec hexec rfl, if_pos rfl]
      exact hready

omit [DecidableEq τ] [DecidableEq σ] [DecidableEq μ] [DecidableEq κ] in
/-- A step that moves no thread. -/
theorem frame (h : Parked lockOf s) (hshape : ∀ t, Shape lockOf (s'.kernel t))
    (hstays : ∀ t, s.finished t = true ∨ (∃ q, t ∈ s.queue q) →
      afterwards (s'.kernel t) = afterwards (s.kernel t))
    (hsemaphore : s'.semaphore = s.semaphore) (hwaiting : s'.waitinglist = s.waitinglist)
    (hfinished : s'.finished = s.finished)
    (hdone : ∀ t, s.finished t = true ∨ .destroy ∈ s'.kernel t → s'.program t = [])
    (hfresh : ∀ t, s'.status t = .justCreated →
      s'.kernel t = [] ∧ s'.program t = [] ∨ .ready t ∈ s'.code) : Parked lockOf s' := by
  refine ⟨hshape, ?_, ?_, ?_, ?_, hfresh⟩
  · intro t x ht
    rw [hsemaphore] at ht
    rw [hstays t (.inr ⟨.inl x, ht⟩)]
    exact h.queued t x ht
  · intro t c ht
    rw [hwaiting] at ht
    rw [hstays t (.inr ⟨.inr c, ht⟩)]
    exact h.listed t c ht
  · intro t ht
    rw [hfinished] at ht
    rw [hstays t (.inl ht)]
    exact h.finished t ht
  · intro t ht
    rw [hfinished] at ht
    exact hdone t ht

omit [DecidableEq τ] [DecidableEq σ] [DecidableEq μ] [DecidableEq κ] in
/-- A thread in its own code is on no list. -/
theorem not_parked (hpart : s.placement.Partitioned) (hphase : phase s.code = .running)
    (ht : s.finished t = true ∨ ∃ q, t ∈ s.queue q) : t ≠ s.currentThread := by
  rintro rfl
  rcases ht with hfinished | ⟨q, hq⟩
  · exact Bool.false_ne_true ((hpart.current_not_finished hphase).symm.trans hfinished)
  · exact hpart.current_notMem_queue hphase q hq

omit [DecidableEq τ] [DecidableEq σ] [DecidableEq μ] [DecidableEq κ] in
theorem not_justCreated (hpart : s.placement.Partitioned)
    (ht : s.finished t = true ∨ ∃ q, t ∈ s.queue q) : s.status t ≠ .justCreated := by
  intro hstatus
  have hmoved : s.status t = .blocked ∨ t = s.currentThread ∧ phase s.code = .parking := by
    rcases ht with hfinished | ⟨q, hq⟩
    · exact hpart.of_finished t hfinished
    · exact (hpart.of_mem_queue t q hq).2
  rcases hmoved with hblocked | ⟨rfl, -⟩
  · rw [hstatus] at hblocked
    cases hblocked
  · exact hpart.current_known hstatus

omit [DecidableEq σ] [DecidableEq μ] [DecidableEq κ] in
theorem handle {x : ξ} {vs : List σ} {d : δ} (h : Parked lockOf s) (hscheduled : Scheduled s)
    (hcode : s.code = .handle x :: k) :
    Parked lockOf { s.goto (vs.flatMap (fun x => Instr.semaphoreV (.inl x)) ++ k) with data := d } := by
  have hpart := hscheduled.partitioned
  have hself : s.kernel s.currentThread = .handle x :: k := hcode
  have hshapeless : ∀ i ∈ vs.flatMap (fun x => (Instr.semaphoreV (.inl x) : List (Instr τ σ μ κ ξ))),
      i.shapeless = true ∧ i.called = false :=
    forall_mem_flatMap ⟨rfl, rfl⟩ (fun _ => ⟨rfl, rfl⟩) ⟨rfl, rfl⟩
  have hmem : ∀ {j : Instr τ σ μ κ ξ} {t}, j.called = true →
      j ∈ Function.update s.kernel s.currentThread
        (vs.flatMap (fun x => Instr.semaphoreV (.inl x)) ++ k) t → j ∈ s.kernel t := by
    intro j t hj hmem
    rw [Function.update_apply] at hmem
    split_ifs at hmem with ht
    · rw [mem_append_of_called hj fun i hi => (hshapeless i hi).2] at hmem
      rw [ht, hself]
      exact List.mem_cons_of_mem _ hmem
    · exact hmem
  refine h.frame ?_ ?_ rfl rfl rfl ?_ ?_
  · intro t
    change Shape lockOf (Function.update s.kernel s.currentThread _ t)
    rw [Function.update_apply]
    split_ifs
    · rw [shape_append fun i hi => (hshapeless i hi).1]
      exact (hself ▸ h.shape s.currentThread).tail
    · exact h.shape t
  · intro t ht
    change afterwards (Function.update s.kernel s.currentThread _ t) = _
    rw [Function.update_apply]
    split_ifs with heq
    · subst heq
      have hphase : phase (Instr.handle x :: k) ≠ .running := fun hrunning =>
        not_parked hpart (hcode ▸ hrunning) ht rfl
      have hphase' : phase (vs.flatMap (fun x => Instr.semaphoreV (.inl x)) ++ k) ≠ .running := by
        rw [phase_flatMap_append]
        exact hphase
      rw [hself, afterwards_of_not_running hphase, afterwards_of_not_running hphase',
        afterSleep_flatMap_append]
      rfl
    · rfl
  · intro t ht
    exact h.done t (ht.imp_right (hmem rfl))
  · intro t ht
    have hne : t ≠ s.currentThread := by
      rintro rfl
      exact hpart.current_known ht
    refine (h.fresh t ht).imp ?_ fun hready => ?_
    · exact fun hempty => ⟨(Function.update_of_ne hne _ _).trans hempty.1, hempty.2⟩
    · rw [hcode, List.mem_cons, or_iff_right (by simp)] at hready
      change _ ∈ Function.update s.kernel s.currentThread _ s.currentThread
      rw [Function.update_self]
      exact List.mem_append_right _ hready

variable {ops : List (Op τ σ μ κ ξ)}

omit [DecidableEq σ] [DecidableEq μ] [DecidableEq κ] in
/-- The current thread's own code goes on with `ops`. -/
theorem own {d : δ} (h : Parked lockOf s) (hscheduled : Scheduled s) (hcode : s.code = []) :
    Parked lockOf { s.proceed ops with data := d } := by
  have hpart := hscheduled.partitioned
  have hphase : phase s.code = .running := by
    rw [hcode]
    rfl
  refine h.frame h.shape (fun _ _ => rfl) rfl rfl rfl ?_ ?_
  · intro t ht
    have hne : t ≠ s.currentThread := by
      rintro rfl
      rcases ht with hfinished | hdestroy
      · exact not_parked hpart hphase (.inl hfinished) rfl
      · have hmem : .destroy ∈ s.code := hdestroy
        rw [hcode] at hmem
        cases hmem
    exact (Function.update_of_ne hne _ _).trans (h.done t ht)
  · intro t ht
    have hne : t ≠ s.currentThread := by
      rintro rfl
      exact hpart.current_known ht
    rcases h.fresh t ht with hempty | hready
    · exact .inl ⟨hempty.1, (Function.update_of_ne hne _ _).trans hempty.2⟩
    · rw [hcode] at hready
      cases hready

omit [DecidableEq σ] [DecidableEq μ] [DecidableEq κ] in
/-- The current thread calls a routine. -/
theorem call {k' : List (Instr τ σ μ κ ξ)} (h : Parked lockOf s) (hscheduled : Scheduled s)
    (hcode : s.code = []) (hshape : Shape lockOf k') (hdestroy : .destroy ∈ k' → ops = []) :
    Parked lockOf ((s.proceed ops).goto k') := by
  have hpart := hscheduled.partitioned
  have hphase : phase s.code = .running := by
    rw [hcode]
    rfl
  refine h.frame ?_ ?_ rfl rfl rfl ?_ ?_
  · intro t
    change Shape lockOf (Function.update s.kernel s.currentThread k' t)
    rw [Function.update_apply]
    split_ifs
    · exact hshape
    · exact h.shape t
  · intro t ht
    change afterwards (Function.update s.kernel s.currentThread k' t) = _
    rw [Function.update_of_ne (not_parked hpart hphase ht)]
  · intro t ht
    change Function.update s.program s.currentThread ops t = []
    change _ ∨ _ ∈ Function.update s.kernel s.currentThread k' t at ht
    rw [Function.update_apply] at ht ⊢
    split_ifs at ht ⊢ with heq
    · rcases ht with hfinished | hmem
      · exact absurd heq (not_parked hpart hphase (.inl hfinished))
      · exact hdestroy hmem
    · exact h.done t ht
  · intro t ht
    have hne : t ≠ s.currentThread := by
      rintro rfl
      exact hpart.current_known ht
    rcases h.fresh t ht with hempty | hready
    · exact .inl ⟨(Function.update_of_ne hne _ _).trans hempty.1,
        (Function.update_of_ne hne _ _).trans hempty.2⟩
    · rw [hcode] at hready
      cases hready

omit [DecidableEq σ] [DecidableEq μ] [DecidableEq κ] in
/-- `Fork` gives a thread something to do, and is about to make it ready. -/
theorem fork {func : ξ} (h : Parked lockOf s) (hscheduled : Scheduled s) (hcode : s.code = [])
    (ht : s.status t = .justCreated) :
    Parked lockOf (((s.proceed ops).stackAllocate t func).goto (Instr.threadFork t)) := by
  have hpart := hscheduled.partitioned
  have hcalled : Parked lockOf ((s.proceed ops).goto (Instr.threadFork t)) :=
    h.call hscheduled hcode trivial (by simp [Instr.threadFork])
  have hne : t ≠ s.currentThread := by
    rintro rfl
    exact hpart.current_known ht
  have hkernel : ∀ u, u ≠ t → (((s.proceed ops).stackAllocate t func).goto (Instr.threadFork t)).kernel u =
      ((s.proceed ops).goto (Instr.threadFork t)).kernel u := by
    intro u hu
    change Function.update (Function.update s.kernel t [.enable]) s.currentThread (Instr.threadFork t) u =
      Function.update s.kernel s.currentThread (Instr.threadFork t) u
    simp only [Function.update_apply, if_neg hu]
  have hnew : (((s.proceed ops).stackAllocate t func).goto (Instr.threadFork t)).kernel t = [.enable] :=
    (Function.update_of_ne hne _ _).trans (Function.update_self _ _ _)
  refine hcalled.frame ?_ ?_ rfl rfl rfl ?_ ?_
  · intro u
    by_cases hu : u = t
    · rw [hu, hnew]
      trivial
    · rw [hkernel u hu]
      exact hcalled.shape u
  · intro u hu
    rw [hkernel]
    rintro rfl
    exact not_justCreated hpart hu ht
  · intro u hu
    have hut : u ≠ t := by
      rintro rfl
      rcases hu with hfinished | hdestroy
      · exact not_justCreated hpart (.inl hfinished) ht
      · rw [hnew] at hdestroy
        simp at hdestroy
    rw [hkernel u hut] at hu
    exact (Function.update_of_ne hut _ _).trans (hcalled.done u hu)
  · intro u hu
    by_cases hut : u = t
    · right
      have hself : (((s.proceed ops).stackAllocate t func).goto (Instr.threadFork t)).code =
          Instr.threadFork t := Function.update_self _ _ _
      rw [hut, hself]
      simp [Instr.threadFork]
    · rw [hkernel u hut]
      rcases hcalled.fresh u hu with hempty | hready
      · exact .inl ⟨hempty.1, (Function.update_of_ne hut _ _).trans hempty.2⟩
      · have hself : ((s.proceed ops).goto (Instr.threadFork t)).code = Instr.threadFork t :=
          Function.update_self _ _ _
        rw [hself] at hready
        exact absurd (by simpa [Instr.threadFork] using hready) hut

theorem step {P : Program τ σ μ κ ξ δ} (h : Parked lockOf s) (hscheduled : Scheduled s)
    (hguard : s.Disciplined lockOf) (hstep : Step P s s') : Parked lockOf s' := by
  cases hstep with
  | exec hcode hexec => exact h.exec hscheduled hguard.forkOnce hcode hexec
  | handle hcode => exact h.handle hscheduled hcode
  | own hcode => exact h.own hscheduled hcode
  | @call op ops due timer hcode hprogram hop =>
    cases op with
    | p x => exact h.call hscheduled hcode trivial (by simp [Instr.semaphoreP])
    | v x => exact h.call hscheduled hcode trivial (by simp [Instr.semaphoreV])
    | acquire l =>
      refine h.call hscheduled hcode ?_ (by simp [Instr.lockAcquire, Instr.semaphoreP])
      simp [Instr.lockAcquire, Instr.semaphoreP, Shape]
    | release l =>
      refine h.call hscheduled hcode ?_ (by simp)
      simp [Shape]
    | wait c l =>
      have hl : l = lockOf c := by
        have hone := hguard.oneLock
        rwa [State.OneLock, hcode, hprogram] at hone
      refine h.call hscheduled hcode ?_ ?_
      · subst hl
        simp [Instr.conditionWait, Instr.threadSleep, Instr.lockAcquire, Instr.semaphoreP, Shape]
      · simp [Instr.conditionWait, Instr.threadSleep, Instr.lockAcquire, Instr.semaphoreP]
    | signal c => exact h.call hscheduled hcode trivial (by simp [Instr.conditionSignal])
    | broadcast c => exact h.call hscheduled hcode trivial (by simp [Instr.conditionBroadcast])
    | yield => exact h.call hscheduled hcode trivial (by simp [Instr.threadYield])
    | create t =>
      have hproceed : Parked lockOf (s.proceed ops) := h.own hscheduled hcode
      exact hproceed.frame hproceed.shape (fun _ _ => rfl) rfl rfl rfl hproceed.done hproceed.fresh
    | fork t func =>
      have ht : s.status t = .justCreated := by
        have hfork := hguard.forkOnce
        rwa [State.ForkOnce, hcode, hprogram] at hfork
      exact h.fork hscheduled hcode ht
    | finish =>
      have hlast : ops = [] := by
        have hfinish := hguard.finishLast
        rwa [State.FinishLast, hcode, hprogram] at hfinish
      refine h.call hscheduled hcode ?_ fun _ => hlast
      simp [Instr.threadFinish, Shape]
    | oneTick =>
      refine h.call hscheduled hcode ?_ ?_
      · have hempty : Shape lockOf [(.enable : Instr τ σ μ κ ξ)] := trivial
        have hshape := hempty.exec (oneTick_mem_front due timer)
        rwa [List.append_nil] at hshape
      · intro hdestroy
        cases called_front (oneTick_mem_front due timer) _ hdestroy
    | own x => exact absurd rfl (hop x)

omit [DecidableEq σ] [DecidableEq μ] [DecidableEq κ] in
theorem start {main : τ} {func : ξ} {initialValue : σ → ℤ} {d : δ} :
    Parked lockOf (start main func initialValue d : State τ σ μ κ ξ δ) := by
  have hkernel : ∀ t, (Kernel.start main func initialValue d : State τ σ μ κ ξ δ).kernel t = [] ∨
      (Kernel.start main func initialValue d : State τ σ μ κ ξ δ).kernel t = [.enable] := by
    intro t
    simp only [Kernel.start, Function.update_apply]
    split_ifs
    · exact .inr rfl
    · exact .inl rfl
  constructor
  · intro t
    rcases hkernel t with hk | hk <;> rw [hk] <;> trivial
  · rintro t (x | l) ht <;> cases ht
  · intro t c ht
    cases ht
  · intro t ht
    cases ht
  · rintro t (ht | ht)
    · cases ht
    · rcases hkernel t with hk | hk <;> rw [hk] at ht <;> simp at ht
  · intro t ht
    have hne : t ≠ main := by
      rintro rfl
      simp [Kernel.start] at ht
    left
    constructor <;> simp [Kernel.start, hne]

end Parked

/-! ### No unit of a semaphore is overlooked

A `V` that finds somebody on the queue makes one thread ready, and that thread has not been given the
unit: another may take it first.  But while threads are on the queue, there are as many threads on their
way to test the semaphore as it has units.
-/

/-- The semaphore that a thread with `k` left to do tests next. -/
def wants (k : List (Instr τ σ μ κ ξ)) : Option (σ ⊕ μ) :=
  match afterwards k with
  | .p x :: _ => some x
  | _ => none

omit [DecidableEq τ] [DecidableEq σ] [DecidableEq μ] [DecidableEq κ] in
theorem wants_eq_some : wants k = some x ↔ ∃ k', afterwards k = .p x :: k' := by
  unfold wants
  split
  · rename_i y k' heq
    rw [heq]
    simp
  · rename_i hne
    simp only [reduceCtorEq, false_iff, not_exists]
    exact fun k' heq => hne x k' heq

/-- A thread goes on to test a semaphore, once it is on its way. -/
theorem wants_exec (h : WellFormed s) (hcode : s.code = i :: k)
    (hexec : s.exec due timer k i = some s') (hwants : wants s.code = some x) (hp : i ≠ .p x) :
    wants (s'.kernel s.currentThread) = some x := by
  by_cases hphase : phase s.code = .running
  · rw [wants_eq_some, afterwards_of_running hphase, hcode] at hwants
    obtain ⟨k', hk'⟩ := hwants
    cases i with
    | reap =>
      have hk : k = .p x :: k' := hk'
      obtain ⟨k₀, hk₀, hkernel⟩ := exec_front hexec
      obtain rfl := List.mem_singleton.1 hk₀
      rw [hkernel, Function.update_self, List.nil_append, hk]
      rfl
    | p y =>
      cases hk'
      exact absurd rfl hp
    | _ => cases hk'
  · rw [wants_eq_some] at hwants ⊢
    rw [afterwards_exec h hcode hphase hexec]
    exact hwants

variable [Fintype τ]

/-- The threads that are on their way to test the semaphore. -/
def State.awake (s : State τ σ μ κ ξ δ) (x : σ ⊕ μ) : Finset τ :=
  {t | wants (s.kernel t) = some x ∧ t ∉ (s.semaphore x).queue}

def NoneOverlooked (s : State τ σ μ κ ξ δ) : Prop :=
  ∀ x, (s.semaphore x).queue ≠ [] → (s.semaphore x).value ≤ (s.awake x).card

omit [DecidableEq κ] in
theorem awake_subset (hqueue : (s'.semaphore x).queue ⊆ (s.semaphore x).queue)
    (hwants : ∀ t, wants (s.kernel t) = some x → wants (s'.kernel t) = some x) :
    s.awake x ⊆ s'.awake x := by
  intro t ht
  simp only [State.awake, Finset.mem_filter, Finset.mem_univ, true_and] at ht ⊢
  exact ⟨hwants t ht.1, fun hmem => ht.2 (hqueue hmem)⟩

namespace NoneOverlooked

omit [DecidableEq κ] in
/-- A step that leaves the semaphore `x` alone, and no thread forgets to test it. -/
theorem keep (h : NoneOverlooked s) (hsemaphore : s'.semaphore x = s.semaphore x)
    (hwants : ∀ t, wants (s.kernel t) = some x → wants (s'.kernel t) = some x)
    (hx : (s'.semaphore x).queue ≠ []) : (s'.semaphore x).value ≤ (s'.awake x).card := by
  have hsubset := Finset.card_le_card (awake_subset (hsemaphore ▸ List.Subset.refl _) hwants)
  rw [hsemaphore] at hx ⊢
  have hbefore := h x hx
  omega

theorem exec (h : NoneOverlooked s) (hparked : Parked lockOf s) (hscheduled : Scheduled s)
    (hcode : s.code = i :: k) (hexec : s.exec due timer k i = some s') : NoneOverlooked s' := by
  have hwell := hscheduled.wellFormed
  obtain ⟨k₀, hk₀, hkernel⟩ := exec_front hexec
  have hwants : ∀ {x}, i ≠ .p x → ∀ t, wants (s.kernel t) = some x → wants (s'.kernel t) = some x := by
    intro x hp t ht
    by_cases hcurrent : t = s.currentThread
    · subst hcurrent
      exact wants_exec hwell hcode hexec ht hp
    · rwa [hkernel, Function.update_of_ne hcurrent]
  intro x hx
  by_cases hp : i = .p x
  · subst hp
    have hsemaphore : s'.semaphore x = ((s.semaphore x).p s.currentThread).1 := by
      cases hexec
      exact Function.update_self _ _ _
    by_cases hvalue : (s.semaphore x).value = 0
    · rw [hsemaphore, Semaphore.p_of_eq_zero _ hvalue, hvalue]
      exact Int.natCast_nonneg _
    · -- one unit and one thread less
      rw [hsemaphore, Semaphore.p_of_ne_zero _ hvalue] at hx ⊢
      have hsubset : (s.awake x).erase s.currentThread ⊆ s'.awake x := by
        intro t ht
        obtain ⟨hne, ht⟩ := Finset.mem_erase.1 ht
        simp only [State.awake, Finset.mem_filter, Finset.mem_univ, true_and] at ht ⊢
        rwa [hkernel, Function.update_of_ne hne, hsemaphore, Semaphore.p_of_ne_zero _ hvalue]
      have hcard := Finset.card_le_card hsubset
      have herase := Finset.pred_card_le_card_erase (s := s.awake x) (a := s.currentThread)
      have hbefore := h x hx
      change (s.semaphore x).value - 1 ≤ _
      omega
  by_cases hv : i = .v x
  · subst hv
    have hsemaphore : s'.semaphore x = (s.semaphore x).v.1 := by
      cases hexec
      change (s.semV x).semaphore x = _
      rw [(semV_frame s x).1, Function.update_self]
    cases hqueue : (s.semaphore x).queue with
    | nil =>
      rw [hsemaphore, Semaphore.v_of_nil hqueue] at hx
      exact absurd hqueue hx
    | cons u rest =>
      -- one unit and one thread more
      rw [hsemaphore, Semaphore.v_of_cons hqueue]
      have hnodup : (u :: rest).Nodup := hqueue ▸ hscheduled.partitioned.queue_nodup (.inl x)
      obtain ⟨hu, -⟩ := List.nodup_cons.1 hnodup
      have hmem : u ∈ (s.semaphore x).queue := by simp [hqueue]
      have hrest : (s'.semaphore x).queue = rest := by
        rw [hsemaphore, Semaphore.v_of_cons hqueue]
      have hnew : u ∈ s'.awake x := by
        simp only [State.awake, Finset.mem_filter, Finset.mem_univ, true_and, hrest]
        exact ⟨hwants hp u (wants_eq_some.2 (hparked.queued u x hmem)), hu⟩
      have hsubset : s.awake x ⊆ s'.awake x := by
        refine awake_subset ?_ (hwants hp)
        rw [hrest, hqueue]
        exact List.subset_cons_self u rest
      have hold : u ∉ s.awake x := by
        simp [State.awake, hmem]
      have hcard := Finset.card_le_card (Finset.insert_subset hnew hsubset)
      rw [Finset.card_insert_of_notMem hold] at hcard
      have hbefore := h x (by simp [hqueue])
      change (s.semaphore x).value + 1 ≤ _
      omega
  · exact h.keep (semaphore_exec hexec hp hv) (hwants hp) hx

omit [DecidableEq κ] in
/-- A step that changes no semaphore. -/
theorem frame (h : NoneOverlooked s) (hsemaphore : s'.semaphore = s.semaphore)
    (hwants : ∀ t x, wants (s.kernel t) = some x → wants (s'.kernel t) = some x) : NoneOverlooked s' :=
  fun x => h.keep (congrFun hsemaphore x) fun t => hwants t x

theorem step {P : Program τ σ μ κ ξ δ} (h : NoneOverlooked s) (hparked : Parked lockOf s)
    (hscheduled : Scheduled s) (hguard : s.Disciplined lockOf) (hstep : Step P s s') :
    NoneOverlooked s' := by
  -- a thread that calls a routine was on its way nowhere
  have hcall : ∀ {k' : List (Instr τ σ μ κ ξ)}, s.code = [] →
      s'.kernel = Function.update s.kernel s.currentThread k' → s'.semaphore = s.semaphore →
      NoneOverlooked s' := by
    intro k' hcode hkernel hsemaphore
    refine h.frame hsemaphore fun t x ht => ?_
    rw [hkernel, Function.update_apply]
    split_ifs with heq
    · rw [heq, show s.kernel s.currentThread = [] from hcode] at ht
      cases ht
    · exact ht
  cases hstep with
  | exec hcode hexec => exact h.exec hparked hscheduled hcode hexec
  | @handle x k d vs hcode =>
    refine h.frame rfl fun t y ht => ?_
    change wants (Function.update s.kernel s.currentThread _ t) = _
    rw [Function.update_apply]
    split_ifs with heq
    · rw [heq, show s.kernel s.currentThread = _ from hcode] at ht
      by_cases hphase : phase (Instr.handle x :: k) = .running
      · rw [wants_eq_some, afterwards_of_running hphase] at ht
        obtain ⟨k', hk'⟩ := ht
        cases hk'
      · have hphase' : phase (vs.flatMap (fun x => Instr.semaphoreV (.inl x)) ++ k) ≠ .running := by
          rw [phase_flatMap_append]
          exact hphase
        rw [wants_eq_some, afterwards_of_not_running hphase] at ht
        rw [wants_eq_some, afterwards_of_not_running hphase', afterSleep_flatMap_append]
        exact ht
    · exact ht
  | own hcode => exact h.frame rfl fun _ _ ht => ht
  | @call op ops due timer hcode hprogram hop =>
    cases op with
    | create t => exact h.frame rfl fun _ _ ht => ht
    | own x => exact absurd rfl (hop x)
    | fork t func =>
      have ht : s.status t = .justCreated := by
        have hfork := hguard.forkOnce
        rwa [State.ForkOnce, hcode, hprogram] at hfork
      have hempty : s.kernel t = [] := by
        rcases hparked.fresh t ht with hempty | hready
        · exact hempty.1
        · rw [hcode] at hready
          cases hready
      refine h.frame rfl fun u x hu => ?_
      change wants (Function.update (Function.update s.kernel t [.enable]) s.currentThread _ u) = _
      rw [Function.update_apply]
      split_ifs with heq
      · rw [heq, show s.kernel s.currentThread = [] from hcode] at hu
        cases hu
      · rw [Function.update_apply]
        split_ifs with hut
        · rw [hut, hempty] at hu
          cases hu
        · exact hu
    | _ => exact hcall hcode rfl rfl

end NoneOverlooked

end Nachos.Kernel
