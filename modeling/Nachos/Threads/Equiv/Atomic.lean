import Nachos.Threads.Equiv.Parked

/-!
# The kernel refines the atomic machine

`Refines` relates a state of the kernel to a state of the atomic machine, and `Refines.step` says that
a step of the kernel is a step of the atomic machine or none at all.  The lock that a thread gives up in
`Wait` is free in the kernel a few statements earlier than in the atomic machine; no other thread runs in
between.

When the kernel finds nobody to run, nobody can go on in the atomic machine either (`Refines.resting`).
-/

namespace Nachos.Kernel

variable {τ σ μ κ ξ δ : Type} {op : Op τ σ μ κ ξ} {c : κ} {k' : List (Instr τ σ μ κ ξ)} {x : σ ⊕ μ}

/-! ### What is left to happen -/

section

variable {i : Instr τ σ μ κ ξ} {k k₀ : List (Instr τ σ μ κ ξ)} {due : List ξ} {timer : Bool}

/-- Statements that the threads do not see. -/
def Instr.silent : Instr τ σ μ κ ξ → Bool
  | .p _ => false
  | .v _ => false
  | .release _ => false
  | .append _ => false
  | .signal _ => false
  | .broadcast _ => false
  | _ => true

theorem acts_cons (hi : i.silent = true) : acts (i :: k) = acts k := by
  cases i with
  | p x => cases hi
  | v x => cases hi
  | release l => cases hi
  | append c => cases hi
  | signal c => cases hi
  | broadcast c => cases hi
  | _ => rfl

theorem acts_append (hk₀ : ∀ j ∈ k₀, j.silent = true) : acts (k₀ ++ k) = acts k := by
  induction k₀ with
  | nil => rfl
  | cons i k₀ ih =>
    rw [List.forall_mem_cons] at hk₀
    rw [List.cons_append, acts_cons hk₀.1, ih hk₀.2]

theorem silent_front (hi : i.silent = true) (hk₀ : k₀ ∈ i.front due timer) :
    ∀ j ∈ k₀, j.silent = true := by
  refine forall_mem_front hk₀ rfl rfl (fun _ => rfl) rfl rfl rfl rfl rfl ?_ ?_ ?_ ?_ <;>
    · rintro x rfl
      cases hi

theorem acts_flatMap (vs : List σ) (k : List (Instr τ σ μ κ ξ)) :
    acts (vs.flatMap (fun x => Instr.semaphoreV (.inl x)) ++ k) = vs.map .v ++ acts k := by
  induction vs with
  | nil => rfl
  | cons x vs ih => exact congrArg (List.cons _) ih

/-- A routine does what the call is for. -/
theorem acts_routine (hfork : ∀ t func, op ≠ .fork t func) (hown : ∀ x, op ≠ .own x) :
    acts (op.routine due timer) = op.acts := by
  cases op with
  | fork t func => exact absurd rfl (hfork t func)
  | own x => exact absurd rfl (hown x)
  | oneTick =>
    have hfront := oneTick_mem_front (τ := τ) (σ := σ) (μ := μ) (κ := κ) due timer
    have hacts := acts_append (k := []) (silent_front rfl hfront)
    rwa [List.append_nil] at hacts
  | _ => rfl

theorem any_isAppend : k.any Instr.isAppend = true ↔ ∃ c, .append c ∈ k := by
  rw [List.any_eq_true]
  constructor
  · rintro ⟨j, hj, happend⟩
    cases j with
    | append c => exact ⟨c, hj⟩
    | _ => cases happend
  · rintro ⟨c, hc⟩
    exact ⟨_, hc, rfl⟩

/-- The statement has to do with the lock `l`. -/
def Instr.touches [DecidableEq μ] (l : μ) : Instr τ σ μ κ ξ → Bool
  | .assign l' => l' = l
  | .release l' => l' = l
  | .p (.inr l') => l' = l
  | .v (.inr l') => l' = l
  | _ => false

variable [DecidableEq μ] {l : μ}

theorem inside_cons_of_touches (hi : i.touches l = false) : inside l (i :: k) = inside l k := by
  cases i with
  | p x => cases x <;> [rfl; exact if_neg (by simpa [Instr.touches] using hi)]
  | v x => cases x <;> [rfl; exact if_neg (by simpa [Instr.touches] using hi)]
  | assign l' => exact if_neg (by simpa [Instr.touches] using hi)
  | release l' => exact if_neg (by simpa [Instr.touches] using hi)
  | _ => rfl

theorem inside_append_of_touches (hk₀ : ∀ j ∈ k₀, j.touches l = false) :
    inside l (k₀ ++ k) = inside l k := by
  induction k₀ with
  | nil => rfl
  | cons i k₀ ih =>
    rw [List.forall_mem_cons] at hk₀
    rw [List.cons_append, inside_cons_of_touches hk₀.1, ih hk₀.2]

theorem touches_front (hi : i.touches l = false) (hk₀ : k₀ ∈ i.front due timer) :
    ∀ j ∈ k₀, j.touches l = false := by
  refine forall_mem_front hk₀ rfl rfl (fun _ => rfl) rfl rfl rfl rfl rfl ?_ ?_ (fun _ _ => rfl)
    fun _ _ => rfl
  · rintro x rfl
    exact hi
  · rintro l rfl
    exact hi

end

variable [DecidableEq τ] [DecidableEq σ] [DecidableEq μ] [DecidableEq κ] {lockOf : κ → μ}
  {s s' : State τ σ μ κ ξ δ} {i : Instr τ σ μ κ ξ} {k : List (Instr τ σ μ κ ξ)} {due : List ξ}
  {timer : Bool}

/-! ### Who has a lock -/

/-- A statement that has nothing to do with a lock. -/
theorem has_exec_iff {l : μ} (hcode : s.code = i :: k) (hexec : s.exec due timer k i = some s')
    (hi : i.touches l = false) (t : τ) : s'.Has l t ↔ s.Has l t := by
  obtain ⟨k₀, hk₀, hkernel⟩ := exec_front hexec
  have hheld : s'.heldthread l = s.heldthread l := by
    refine heldthread_exec hexec ?_ ?_ <;>
      · rintro rfl
        simp [Instr.touches] at hi
  unfold State.Has
  rw [hheld, hkernel, Function.update_apply]
  split_ifs with ht
  · rw [inside_append_of_touches (touches_front hi hk₀), ht, show s.kernel s.currentThread = _ from hcode,
      inside_cons_of_touches hi]
  · exact Iff.rfl

omit [DecidableEq σ] [DecidableEq κ] in
/-- A statement by which the current thread gets nearer to, or farther from, a lock that it has. -/
theorem has_exec_self {l : μ} (h : Locked s) (h' : Locked s') (hbefore : s.Has l s.currentThread)
    (hafter : s'.Has l s.currentThread) (t : τ) : s'.Has l t ↔ s.Has l t := by
  constructor
  · intro ht
    rwa [h'.has_unique ht hafter]
  · intro ht
    rwa [h.has_unique ht hbefore]

/-! ### The relation -/

/-- The state `a` is what the threads see of `s`. -/
structure Refines (lockOf : κ → μ) (s : State τ σ μ κ ξ δ) (a : Sync.State τ σ μ κ ξ δ) : Prop where
  value : ∀ x, a.value x = (s.semaphore (.inl x)).value
  owner_of_has : ∀ l t, s.Has l t → a.owner l = some t
  /-- The owner has the lock, or has given it up in a `Wait` that has not happened yet. -/
  has_of_owner : ∀ l t, a.owner l = some t →
    s.Has l t ∨ t = s.currentThread ∧ ∃ c, .append c ∈ s.code ∧ lockOf c = l
  waiting : a.waiting = s.waitinglist
  code : a.code = s.acts
  data : a.data = s.data

/-- What is known about the reachable states. -/
structure Known [Fintype τ] (lockOf : κ → μ) (s : State τ σ μ κ ξ δ) : Prop where
  waits : Waits lockOf s
  parked : Parked lockOf s
  noneOverlooked : NoneOverlooked s
  /-- A thread that goes onto a waiting list does not hold the lock any more. -/
  released : ∀ c, .append c ∈ s.code →
    .release (lockOf c) ∈ s.code ∨ s.heldthread (lockOf c) ≠ some s.currentThread

section

omit [DecidableEq τ] [DecidableEq σ] [DecidableEq μ] [DecidableEq κ] in
/-- A thread that does not run is not in `Wait` before it goes onto the list. -/
theorem WellFormed.append_notMem (h : WellFormed s) {t : τ} (ht : t ≠ s.currentThread) (c : κ) :
    .append c ∉ s.kernel t := fun hc => not_settled_of_append hc (h.other t ht).2.2

/-- A `Wait` goes on until the thread is on the list. -/
theorem append_mem_exec (h : WellFormed s) (hexec : s.exec due timer k i = some s') :
    .append c ∈ s'.code ↔ .append c ∈ k ∧ s'.currentThread = s.currentThread := by
  by_cases hcurrent : s'.currentThread = s.currentThread
  · rw [State.code, hcurrent, mem_kernel_exec hexec rfl, if_pos rfl]
    simp
  · rw [State.code, mem_kernel_exec hexec rfl, if_neg hcurrent]
    simp [h.append_notMem hcurrent c, hcurrent]

/-- A thread keeps the processor while it is in `Wait`. -/
theorem currentThread_exec_of_append (h : WellFormed s) (hcode : s.code = i :: k)
    (hexec : s.exec due timer k i = some s') (hc : .append c ∈ k) :
    s'.currentThread = s.currentThread := by
  have hok := h.current
  rw [hcode] at hok
  refine (exec_footprint hexec).currentThread ?_ ?_
  · rintro rfl
    exact not_settled_of_append hc hok.2.1.2
  · rintro rfl
    exact not_settled_of_append hc hok.2.1.2

end

namespace Known

variable [Fintype τ]

theorem released_exec (h : Known lockOf s) (hcode : s.code = i :: k)
    (hexec : s.exec due timer k i = some s') (hc : .append c ∈ s'.code) :
    .release (lockOf c) ∈ s'.code ∨ s'.heldthread (lockOf c) ≠ some s'.currentThread := by
  have hwell := h.waits.locked.scheduled.wellFormed
  obtain ⟨hk, hcurrent⟩ := (append_mem_exec hwell hexec).1 hc
  have hshape := h.parked.shape s.currentThread
  rw [show s.kernel s.currentThread = _ from hcode] at hshape
  by_cases hrelease : i = .release (lockOf c)
  · subst hrelease
    right
    cases hexec
    split_ifs with hheld
    · change Function.update s.heldthread (lockOf c) none (lockOf c) ≠ _
      rw [Function.update_self]
      simp
    · exact hheld
  rw [State.code, hcurrent, mem_kernel_of_ne hcode hexec rfl hrelease]
  have hbefore := h.released c (by rw [hcode]; exact List.mem_cons_of_mem _ hk)
  refine hbefore.imp_right fun hheld => ?_
  rwa [heldthread_exec hexec ?_ hrelease]
  rintro rfl
  exact hshape.1 c hk

theorem step {P : Program τ σ μ κ ξ δ} (h : Known lockOf s) (hguard : s.Disciplined lockOf)
    (hstep : Step P s s') : Known lockOf s' := by
  have hscheduled := h.waits.locked.scheduled
  refine ⟨h.waits.step hguard.forkOnce hguard.oneLock hstep, h.parked.step hscheduled hguard hstep,
    h.noneOverlooked.step h.parked hscheduled hguard hstep, ?_⟩
  cases hstep with
  | exec hcode hexec => exact fun c hc => h.released_exec hcode hexec hc
  | @handle x k d vs hcode =>
    have hcode' : State.code
        { s.goto (vs.flatMap (fun x => Instr.semaphoreV (.inl x)) ++ k) with data := d } =
        vs.flatMap (fun x => Instr.semaphoreV (.inl x)) ++ k := Function.update_self _ _ _
    have hcalled : ∀ i ∈ vs.flatMap (fun x => (Instr.semaphoreV (.inl x) : List (Instr τ σ μ κ ξ))),
        i.called = false := forall_mem_flatMap rfl (fun _ => rfl) rfl
    have hmem : ∀ {j : Instr τ σ μ κ ξ}, j.called = true →
        (j ∈ vs.flatMap (fun x => Instr.semaphoreV (.inl x)) ++ k ↔ j ∈ s.code) := by
      intro j hj
      rw [mem_append_of_called hj hcalled, hcode, List.mem_cons, or_iff_right]
      rintro rfl
      cases hj
    intro c hc
    rw [hcode', hmem rfl] at hc ⊢
    exact h.released c hc
  | own hcode => exact h.released
  | @call op ops due timer hcode hprogram hop =>
    have hself : ((s.proceed ops).call due timer op).code = op.routine due timer := by
      have hkernel : ((s.proceed ops).call due timer op).kernel (s.proceed ops).currentThread =
        op.routine due timer := call_kernel_self hcode
      cases op <;> exact hkernel
    intro c hc
    rw [hself] at hc ⊢
    cases op with
    | wait c' l =>
      have hl : l = lockOf c' := by
        have hone := hguard.oneLock
        rwa [State.OneLock, hcode, hprogram] at hone
      have hcc : c = c' := by
        simpa [Op.routine, Instr.conditionWait, Instr.threadSleep, Instr.lockAcquire,
          Instr.semaphoreP] using hc
      rw [hcc, ← hl]
      exact .inl (by simp [Op.routine, Instr.conditionWait])
    | oneTick =>
      cases called_front (oneTick_mem_front due timer) _ hc
    | _ =>
      simp [Op.routine, Instr.semaphoreP, Instr.semaphoreV, Instr.lockAcquire, Instr.conditionSignal,
        Instr.conditionBroadcast, Instr.threadYield, Instr.threadFork, Instr.threadFinish,
        Instr.threadSleep] at hc

omit [DecidableEq κ] in
theorem start {main : τ} {func : ξ} {initialValue : σ → ℤ} {d : δ} :
    Known lockOf (start main func initialValue d : State τ σ μ κ ξ δ) := by
  refine ⟨Waits.start, Parked.start, ?_, ?_⟩
  · rintro (x | l) hx <;> exact absurd rfl hx
  · intro c hc
    simp [State.code, Kernel.start] at hc

end Known

/-! ### Simulation -/

omit [DecidableEq σ] [DecidableEq μ] [DecidableEq κ] in
theorem acts_update (hprogram : s'.program = s.program)
    (hkernel : s'.kernel = Function.update s.kernel s.currentThread k') :
    s'.acts = Function.update s.acts s.currentThread
      (acts k' ++ (s.program s.currentThread).flatMap Op.acts) := by
  funext t
  rw [Function.update_apply]
  unfold State.acts
  rw [hprogram, hkernel, Function.update_apply]
  split_ifs with ht
  · rw [ht]
  · rfl

omit [DecidableEq τ] [DecidableEq σ] [DecidableEq μ] [DecidableEq κ] in
theorem acts_current (hcode : s.code = k) :
    s.acts s.currentThread = acts k ++ (s.program s.currentThread).flatMap Op.acts := by
  rw [State.acts, show s.kernel s.currentThread = k from hcode]

omit [DecidableEq κ] in
theorem kernel_semP (s : State τ σ μ κ ξ δ) (x : σ ⊕ μ) (k : List (Instr τ σ μ κ ξ)) :
    (s.semP x k).kernel = Function.update s.kernel s.currentThread
      (if (s.semaphore x).value = 0 then Instr.threadSleep ++ .p x :: k else k) := by
  unfold State.semP
  by_cases hvalue : (s.semaphore x).value = 0
  · rw [Semaphore.p_of_eq_zero _ hvalue, if_pos hvalue]
    rfl
  · rw [Semaphore.p_of_ne_zero _ hvalue, if_neg hvalue]
    rfl

omit [DecidableEq κ] in
/-- A `P` that puts the thread to sleep changes no value. -/
theorem value_semP_of_eq_zero (hvalue : (s.semaphore x).value = 0) (y : σ ⊕ μ) :
    ((s.semP x k).semaphore y).value = (s.semaphore y).value := by
  change (Function.update s.semaphore x _ y).value = _
  rw [Semaphore.p_of_eq_zero _ hvalue, Function.update_apply]
  split_ifs with hy
  · rw [hy]
  · rfl

namespace Refines

variable {a : Sync.State τ σ μ κ ξ δ}

omit [DecidableEq τ] [DecidableEq σ] [DecidableEq κ] in
/-- A step that leaves the locks to those who have them. -/
theorem frame {a' : Sync.State τ σ μ κ ξ δ} (h : Refines lockOf s a) (howner : a'.owner = a.owner)
    (hhas : ∀ l t, s'.Has l t ↔ s.Has l t)
    (hpending : ∀ c, .append c ∈ s.code → .append c ∈ s'.code ∧ s'.currentThread = s.currentThread)
    (hvalue : ∀ x, a'.value x = (s'.semaphore (.inl x)).value) (hwaiting : a'.waiting = s'.waitinglist)
    (hcode : a'.code = s'.acts) (hdata : a'.data = s'.data) : Refines lockOf s' a' := by
  refine ⟨hvalue, ?_, ?_, hwaiting, hcode, hdata⟩
  · intro l t ht
    rw [howner]
    exact h.owner_of_has l t ((hhas l t).1 ht)
  · intro l t ht
    rw [howner] at ht
    refine (h.has_of_owner l t ht).imp (hhas l t).2 ?_
    rintro ⟨rfl, c, hc, hl⟩
    obtain ⟨hc', hcurrent⟩ := hpending c hc
    exact ⟨hcurrent.symm, c, hc', hl⟩

theorem pending_exec (hwell : WellFormed s) (hcode : s.code = i :: k)
    (hexec : s.exec due timer k i = some s') (hi : ∀ c, i ≠ .append c) (c : κ) (hc : .append c ∈ s.code) :
    .append c ∈ s'.code ∧ s'.currentThread = s.currentThread := by
  rw [hcode, List.mem_cons, or_iff_right (hi c).symm] at hc
  have hcurrent := currentThread_exec_of_append hwell hcode hexec hc
  exact ⟨(append_mem_exec hwell hexec).2 ⟨hc, hcurrent⟩, hcurrent⟩

/-- A silent statement. -/
theorem silent (h : Refines lockOf s a) (hlocked : Locked s) (hlocked' : Locked s')
    (hcode : s.code = i :: k) (hexec : s.exec due timer k i = some s') (hi : i.silent = true) :
    Refines lockOf s' a := by
  obtain ⟨k₀, hk₀, hkernel⟩ := exec_front hexec
  have hfoot := exec_footprint hexec
  refine h.frame rfl ?_ ?_ ?_ ?_ ?_ (h.data.trans hfoot.data.symm)
  · intro l t
    by_cases htouches : i.touches l = false
    · exact has_exec_iff hcode hexec htouches t
    · -- the only silent statement that touches a lock says who holds it
      obtain rfl : i = .assign l := by
        cases i with
        | assign l' => simpa [Instr.touches] using htouches
        | p x => cases hi
        | v x => cases hi
        | release l' => cases hi
        | _ => exact absurd rfl htouches
      refine has_exec_self hlocked hlocked' (.inr ?_) (.inl ?_) t
      · rw [show s.kernel s.currentThread = _ from hcode, inside, if_pos rfl]
      · cases hexec
        exact Function.update_self _ _ _
  · refine pending_exec hlocked.scheduled.wellFormed hcode hexec ?_
    rintro c rfl
    cases hi
  · intro x
    rw [h.value, semaphore_exec hexec] <;>
      · rintro rfl
        cases hi
  · refine h.waiting.trans (hfoot.waiting ?_).1.symm
    intro c
    constructor <;> rintro rfl <;> cases hi
  · rw [h.code, acts_update hfoot.program hkernel, acts_append (silent_front hi hk₀), ← acts_cons hi,
      ← acts_current hcode, Function.update_eq_self]

/-- The atomic machine makes one step, or none, and is then what the threads see of `s'`. -/
def Follows (P : Program τ σ μ κ ξ δ) (lockOf : κ → μ) (a : Sync.State τ σ μ κ ξ δ)
    (s' : State τ σ μ κ ξ δ) : Prop :=
  ∃ a', (a' = a ∨ Sync.Step (P.atomic lockOf) a a') ∧ Refines lockOf s' a'

variable {P : Program τ σ μ κ ξ δ} {ops : List (Op τ σ μ κ ξ)}

omit [DecidableEq τ] [DecidableEq σ] [DecidableEq κ] in
theorem code_current (h : Refines lockOf s a) (hcode : s.code = k) :
    a.code s.currentThread = acts k ++ (s.program s.currentThread).flatMap Op.acts := by
  rw [h.code, acts_current hcode]

omit [DecidableEq σ] [DecidableEq κ] in
theorem goto_acts (h : Refines lockOf s a) (hprogram : s'.program = s.program)
    (hkernel : s'.kernel = Function.update s.kernel s.currentThread k') :
    (a.goto s.currentThread (acts k' ++ (s.program s.currentThread).flatMap Op.acts)).code = s'.acts := by
  rw [acts_update hprogram hkernel, ← h.code]
  rfl

/-- A statement that is no `P` and no `V` of a semaphore of the program. -/
theorem value_exec (h : Refines lockOf s a) (hexec : s.exec due timer k i = some s')
    (hp : ∀ y, i ≠ .p (.inl y)) (hv : ∀ y, i ≠ .v (.inl y)) (y : σ) :
    a.value y = (s'.semaphore (.inl y)).value := by
  rw [semaphore_exec hexec (hp y) (hv y)]
  exact h.value y

/-- A `P` that puts the thread to sleep; it will try again. -/
theorem exec_p_sleep (h : Refines lockOf s a) (hwell : WellFormed s) (hcode : s.code = .p x :: k)
    (hexec : s.exec due timer k (.p x) = some s') (hvalue : (s.semaphore x).value = 0) :
    Refines lockOf s' a := by
  have hfoot := exec_footprint hexec
  have hkernel : s'.kernel = Function.update s.kernel s.currentThread (Instr.threadSleep ++ .p x :: k) := by
    cases hexec
    rw [kernel_semP, if_pos hvalue]
  have hinside : ∀ l, inside l (Instr.threadSleep ++ .p x :: k) = inside l s.code := by
    intro l
    rw [hcode]
    rfl
  refine h.frame rfl ?_ (pending_exec hwell hcode hexec (by simp)) ?_
    (h.waiting.trans (hfoot.waiting (by simp)).1.symm) ?_ (h.data.trans hfoot.data.symm)
  · intro l t
    unfold State.Has
    rw [hfoot.heldthread (by simp), hkernel, Function.update_apply]
    split_ifs with ht
    · rw [hinside, ht]
      rfl
    · exact Iff.rfl
  · intro y
    cases hexec
    rw [h.value, value_semP_of_eq_zero hvalue]
  · have hacts : acts (Instr.threadSleep ++ .p x :: k) = acts s.code := by
      rw [hcode]
      rfl
    rw [h.code, acts_update hfoot.program hkernel, hacts, ← acts_current rfl, Function.update_eq_self]

/-- `P` on a semaphore. -/
theorem exec_p {x : σ} (h : Refines lockOf s a) (hwell : WellFormed s) (hcode : s.code = .p (.inl x) :: k)
    (hexec : s.exec due timer k (.p (.inl x)) = some s') : Follows P lockOf a s' := by
  by_cases hvalue : (s.semaphore (.inl x)).value = 0
  · exact ⟨a, .inl rfl, h.exec_p_sleep hwell hcode hexec hvalue⟩
  have hfoot := exec_footprint hexec
  have hkernel : s'.kernel = Function.update s.kernel s.currentThread k := by
    cases hexec
    rw [kernel_semP, if_neg hvalue]
  have hbefore := h.code_current hcode
  refine ⟨_, .inr (.p hbefore (h.value x ▸ hvalue)), h.frame rfl (fun l => has_exec_iff hcode hexec rfl)
    (pending_exec hwell hcode hexec (by simp)) ?_ (h.waiting.trans (hfoot.waiting (by simp)).1.symm)
    (h.goto_acts hfoot.program hkernel) (h.data.trans hfoot.data.symm)⟩
  intro y
  cases hexec
  change Function.update a.value x (a.value x - 1) y = (Function.update s.semaphore (.inl x) _ (.inl y)).value
  rw [Semaphore.p_of_ne_zero _ hvalue]
  by_cases hy : y = x
  · rw [hy, Function.update_self, Function.update_self, h.value]
  · rw [Function.update_of_ne hy, Function.update_of_ne (by simpa using hy), h.value]

/-- `V` on a semaphore. -/
theorem exec_v {x : σ} (h : Refines lockOf s a) (hwell : WellFormed s) (hcode : s.code = .v (.inl x) :: k)
    (hexec : s.exec due timer k (.v (.inl x)) = some s') : Follows P lockOf a s' := by
  have hfoot := exec_footprint hexec
  obtain ⟨k₀, hk₀, hkernel⟩ := exec_front hexec
  obtain rfl := List.mem_singleton.1 hk₀
  have hbefore := h.code_current hcode
  refine ⟨_, .inr (.v hbefore), h.frame rfl (fun l => has_exec_iff hcode hexec rfl)
    (pending_exec hwell hcode hexec (by simp)) ?_ (h.waiting.trans (hfoot.waiting (by simp)).1.symm)
    (h.goto_acts hfoot.program hkernel) (h.data.trans hfoot.data.symm)⟩
  intro y
  cases hexec
  change Function.update a.value x (a.value x + 1) y = ((s.semV (.inl x)).semaphore (.inl y)).value
  rw [(semV_frame s (.inl x)).1]
  by_cases hy : y = x
  · rw [hy, Function.update_self, Function.update_self, h.value]
    rfl
  · rw [Function.update_of_ne hy, Function.update_of_ne (by simpa using hy), h.value]

/-- `Signal`, also as a round of `Broadcast`. -/
theorem exec_signal (h : Refines lockOf s a) (hwell : WellFormed s) (hcode : s.code = .signal c :: k)
    (hexec : s.exec due timer k (.signal c) = some s') : Follows P lockOf a s' := by
  have hfoot := exec_footprint hexec
  obtain ⟨k₀, hk₀, hkernel⟩ := exec_front hexec
  obtain rfl := List.mem_singleton.1 hk₀
  have hbefore := h.code_current hcode
  refine ⟨_, .inr (.signal hbefore), h.frame rfl (fun l => has_exec_iff hcode hexec rfl)
    (pending_exec hwell hcode hexec (by simp)) ?_ ?_ (h.goto_acts hfoot.program hkernel)
    (h.data.trans hfoot.data.symm)⟩
  · exact h.value_exec hexec (by simp) (by simp)
  · cases hexec
    change Function.update a.waiting c (a.waiting c).tail = (s.doSignal c).waitinglist
    rw [h.waiting]
    unfold State.doSignal
    cases hlist : s.waitinglist c with
    | nil =>
      have hsame := Function.update_eq_self c s.waitinglist
      rwa [hlist] at hsame
    | cons next rest => rfl

/-- The test of the loop of `Broadcast`. -/
theorem exec_broadcast (h : Refines lockOf s a) (hwell : WellFormed s)
    (hcode : s.code = .broadcast c :: k) (hexec : s.exec due timer k (.broadcast c) = some s') :
    Follows P lockOf a s' := by
  have hfoot := exec_footprint hexec
  have hkernel : s'.kernel = Function.update s.kernel s.currentThread
      (if s.waitinglist c = [] then k else Instr.conditionSignal c ++ .broadcast c :: k) := by
    cases hexec
    rfl
  have hbefore := h.code_current hcode
  refine ⟨_, .inr (.broadcast hbefore), h.frame rfl (fun l => has_exec_iff hcode hexec rfl)
    (pending_exec hwell hcode hexec (by simp)) ?_ (h.waiting.trans (hfoot.waiting (by simp)).1.symm) ?_
    (h.data.trans hfoot.data.symm)⟩
  · exact h.value_exec hexec (by simp) (by simp)
  · rw [← h.goto_acts hfoot.program hkernel, h.waiting]
    split_ifs <;> rfl

/-- The `P` of `Acquire`. -/
theorem exec_acquire {l : μ} (h : Refines lockOf s a) (hlocked : Locked s) (hlocked' : Locked s')
    (hcode : s.code = .p (.inr l) :: k) (hexec : s.exec due timer k (.p (.inr l)) = some s') :
    Follows P lockOf a s' := by
  have hwell := hlocked.scheduled.wellFormed
  by_cases hvalue : (s.semaphore (.inr l)).value = 0
  · exact ⟨a, .inl rfl, h.exec_p_sleep hwell hcode hexec hvalue⟩
  have hfoot := exec_footprint hexec
  have hkernel : s'.kernel = Function.update s.kernel s.currentThread k := by
    cases hexec
    rw [kernel_semP, if_neg hvalue]
  have hphase : phase s.code = .running := by
    rw [hcode]
    rfl
  have hnotWaiting : ∀ c, .append c ∉ s.code := by
    intro c hc
    have hok := hwell.current
    rw [hcode] at hok hc
    rw [List.mem_cons, or_iff_right (by simp)] at hc
    exact not_settled_of_append hc hok.2.1.2
  have hfree : a.owner l = none := by
    by_contra hne
    obtain ⟨u, hu⟩ := Option.ne_none_iff_exists'.1 hne
    rcases h.has_of_owner l u hu with hhas | ⟨-, c, hc, -⟩
    · exact hvalue (hlocked.value_eq_zero hhas)
    · exact hnotWaiting c hc
  have hhas : s'.Has l s.currentThread := by
    right
    have hok := hlocked.ok s.currentThread
    rw [show s.kernel s.currentThread = _ from hcode] at hok
    rw [hkernel, Function.update_self]
    exact hok.1
  have hother : ∀ l', l' ≠ l → ∀ t, s'.Has l' t ↔ s.Has l' t := fun l' hl' =>
    has_exec_iff hcode hexec (by simpa [Instr.touches] using hl'.symm)
  have hbefore := h.code_current hcode
  refine ⟨_, .inr (.acquire hbefore hfree ?_), ?_, ?_, ?_,
    h.waiting.trans (hfoot.waiting (by simp)).1.symm, h.goto_acts hfoot.program hkernel,
    h.data.trans hfoot.data.symm⟩
  · intro c
    rw [h.waiting]
    exact notMem_waitinglist hlocked hphase c
  · exact h.value_exec hexec (by simp) (by simp)
  · intro l' t ht
    change Function.update a.owner l (some s.currentThread) l' = some t
    by_cases hl' : l' = l
    · subst hl'
      rw [Function.update_self, hlocked'.has_unique ht hhas]
    · rw [Function.update_of_ne hl']
      exact h.owner_of_has l' t ((hother l' hl' t).1 ht)
  · intro l' t ht
    change Function.update a.owner l (some s.currentThread) l' = some t at ht
    left
    by_cases hl' : l' = l
    · subst hl'
      rw [Function.update_self] at ht
      cases ht
      exact hhas
    · rw [Function.update_of_ne hl'] at ht
      rcases h.has_of_owner l' t ht with hold | ⟨-, c, hc, -⟩
      · exact (hother l' hl' t).2 hold
      · exact absurd hc (hnotWaiting c)

/-- The `V` of `Release`, which may be the one in `Wait`. -/
theorem exec_unlock {l : μ} (h : Refines lockOf s a) (hlocked : Locked s) (hlocked' : Locked s')
    (hshape : Shape lockOf s.code) (hcode : s.code = .v (.inr l) :: k)
    (hexec : s.exec due timer k (.v (.inr l)) = some s') : Follows P lockOf a s' := by
  have hwell := hlocked.scheduled.wellFormed
  have hfoot := exec_footprint hexec
  obtain ⟨k₀, hk₀, hkernel⟩ := exec_front hexec
  obtain rfl := List.mem_singleton.1 hk₀
  rw [List.nil_append] at hkernel
  have hhas : s.Has l s.currentThread := by
    right
    rw [show s.kernel s.currentThread = _ from hcode, inside, if_pos rfl]
  have hnobody : ∀ t, ¬ s'.Has l t := by
    intro t ht
    have hzero := hlocked'.value_eq_zero ht
    have hbefore := hlocked.value_eq_zero hhas
    cases hexec
    change ((s.semV (.inr l)).semaphore (.inr l)).value = 0 at hzero
    rw [(semV_frame s (.inr l)).1, Function.update_self] at hzero
    change (s.semaphore (.inr l)).value + 1 = 0 at hzero
    omega
  have hother : ∀ l', l' ≠ l → ∀ t, s'.Has l' t ↔ s.Has l' t := fun l' hl' =>
    has_exec_iff hcode hexec (by simpa [Instr.touches] using hl'.symm)
  have hvalue := h.value_exec hexec (by simp) (by simp)
  have hwaiting := h.waiting.trans (hfoot.waiting (by simp)).1.symm
  have hdata := h.data.trans hfoot.data.symm
  have hpending := pending_exec hwell hcode hexec (by simp)
  have hbefore := h.code_current hcode
  have hgoto := h.goto_acts hfoot.program hkernel
  rw [hcode] at hshape
  by_cases happend : k.any Instr.isAppend = true
  · -- the lock is free, but `Wait` has not happened yet
    rw [acts, if_pos happend] at hbefore
    refine ⟨a, .inl rfl, hvalue, ?_, ?_, hwaiting, ?_, hdata⟩
    · intro l' t ht
      by_cases hl' : l' = l
      · exact absurd (hl' ▸ ht) (hnobody t)
      · exact h.owner_of_has l' t ((hother l' hl' t).1 ht)
    · intro l' t ht
      obtain ⟨c, hc⟩ := any_isAppend.1 happend
      obtain ⟨hc', hcurrent⟩ := hpending c (by rw [hcode]; exact List.mem_cons_of_mem _ hc)
      rw [hcurrent]
      by_cases hl' : l' = l
      · subst hl'
        rw [h.owner_of_has l' _ hhas] at ht
        cases ht
        exact .inr ⟨rfl, c, hc', hshape.1 c hc⟩
      · refine (h.has_of_owner l' t ht).imp (hother l' hl' t).2 ?_
        rintro ⟨rfl, c', hc', hlock⟩
        exact ⟨rfl, c', (hpending c' hc').1, hlock⟩
    · rw [← hgoto]
      change a.code = Function.update a.code s.currentThread _
      rw [← hbefore, Function.update_eq_self]
  · rw [acts, if_neg happend] at hbefore
    refine ⟨_, .inr (.release hbefore), hvalue, ?_, ?_, hwaiting, hgoto, hdata⟩
    · intro l' t ht
      have hl' : l' ≠ l := by
        rintro rfl
        exact hnobody t ht
      change a.freed s.currentThread l l' = some t
      rw [Sync.State.freed, if_pos (h.owner_of_has l _ hhas), Function.update_of_ne hl']
      exact h.owner_of_has l' t ((hother l' hl' t).1 ht)
    · intro l' t ht
      change a.freed s.currentThread l l' = some t at ht
      rw [Sync.State.freed, if_pos (h.owner_of_has l _ hhas)] at ht
      by_cases hl' : l' = l
      · subst hl'
        rw [Function.update_self] at ht
        cases ht
      · rw [Function.update_of_ne hl'] at ht
        left
        rcases h.has_of_owner l' t ht with hold | ⟨-, c, hc, -⟩
        · exact (hother l' hl' t).2 hold
        · rw [hcode, List.mem_cons, or_iff_right (by simp)] at hc
          exact absurd (any_isAppend.2 ⟨c, hc⟩) happend

/-- The test of `Release`. -/
theorem exec_release {l : μ} (h : Refines lockOf s a) (hlocked : Locked s) (hlocked' : Locked s')
    (hcode : s.code = .release l :: k) (hexec : s.exec due timer k (.release l) = some s') :
    Follows P lockOf a s' := by
  have hwell := hlocked.scheduled.wellFormed
  have hfoot := exec_footprint hexec
  have hother : ∀ l', l' ≠ l → ∀ t, s'.Has l' t ↔ s.Has l' t := fun l' hl' =>
    has_exec_iff hcode hexec (by simpa [Instr.touches] using hl'.symm)
  have hvalue := h.value_exec hexec (by simp) (by simp)
  have hwaiting := h.waiting.trans (hfoot.waiting (by simp)).1.symm
  have hdata := h.data.trans hfoot.data.symm
  have hpending := pending_exec hwell hcode hexec (by simp)
  have hbefore := h.code_current hcode
  by_cases hheld : s.heldthread l = some s.currentThread
  · -- the lock is given up at the `V`
    have hkernel : s'.kernel = Function.update s.kernel s.currentThread (Instr.semaphoreV (.inr l) ++ k) := by
      cases hexec
      rw [if_pos hheld]
      rfl
    refine ⟨a, .inl rfl, h.frame rfl ?_ hpending hvalue hwaiting ?_ hdata⟩
    · intro l' t
      by_cases hl' : l' = l
      · subst hl'
        refine has_exec_self hlocked hlocked' (.inl hheld) (.inr ?_) t
        rw [hkernel, Function.update_self]
        simp [Instr.semaphoreV, inside]
      · exact hother l' hl' t
    · rw [h.code, acts_update hfoot.program hkernel]
      have hacts : acts (Instr.semaphoreV (.inr l) ++ k) = acts s.code := by
        rw [hcode]
        rfl
      rw [hacts, ← acts_current rfl, Function.update_eq_self]
  · have hkernel : s'.kernel = Function.update s.kernel s.currentThread k := by
      cases hexec
      rw [if_neg hheld]
      rfl
    have hinside : inside l (s.kernel s.currentThread) = false := by
      rw [show s.kernel s.currentThread = _ from hcode, inside, if_pos rfl]
    have hhas : ∀ l' t, s'.Has l' t ↔ s.Has l' t := by
      intro l' t
      by_cases hl' : l' = l
      · subst hl'
        have hok := hlocked.ok s.currentThread
        rw [show s.kernel s.currentThread = _ from hcode] at hok
        have hsame : s'.heldthread = s.heldthread := by
          cases hexec
          rw [if_neg hheld]
          rfl
        unfold State.Has
        rw [hsame, hkernel, Function.update_apply]
        split_ifs with ht
        · rw [ht, hinside, hok.1]
        · exact Iff.rfl
      · exact hother l' hl' t
    have hgoto := h.goto_acts hfoot.program hkernel
    by_cases happend : k.any Instr.isAppend = true
    · rw [acts, if_pos happend] at hbefore
      refine ⟨a, .inl rfl, h.frame rfl hhas hpending hvalue hwaiting ?_ hdata⟩
      rw [← hgoto]
      change a.code = Function.update a.code s.currentThread _
      rw [← hbefore, Function.update_eq_self]
    · rw [acts, if_neg happend] at hbefore
      have hnot : a.owner l ≠ some s.currentThread := by
        intro howner
        rcases h.has_of_owner l _ howner with (hrecord | hin) | ⟨-, c, hc, -⟩
        · exact hheld hrecord
        · exact Bool.false_ne_true (hinside.symm.trans hin)
        · rw [hcode, List.mem_cons, or_iff_right (by simp)] at hc
          exact happend (any_isAppend.2 ⟨c, hc⟩)
      refine ⟨_, .inr (.release hbefore), h.frame ?_ hhas hpending hvalue hwaiting hgoto hdata⟩
      exact if_neg hnot

/-- `Wait` happens. -/
theorem exec_append [Fintype τ] (h : Refines lockOf s a) (hknown : Known lockOf s)
    (hcode : s.code = .append c :: k) (hexec : s.exec due timer k (.append c) = some s') :
    Follows P lockOf a s' := by
  have hlocked := hknown.waits.locked
  have hwell := hlocked.scheduled.wellFormed
  have hfoot := exec_footprint hexec
  obtain ⟨k₀, hk₀, hkernel⟩ := exec_front hexec
  obtain rfl := List.mem_singleton.1 hk₀
  have hhas : ∀ l t, s'.Has l t ↔ s.Has l t := fun l => has_exec_iff hcode hexec rfl
  have hok := hknown.waits.code s.currentThread
  rw [show s.kernel s.currentThread = _ from hcode] at hok
  obtain ⟨⟨-, honly⟩, -⟩ := hok.ok
  -- the thread does not have the lock any more
  have hshape := hknown.parked.shape s.currentThread
  rw [show s.kernel s.currentThread = _ from hcode] at hshape
  have hgone : ¬ s.Has (lockOf c) s.currentThread := by
    have hreleased := hknown.released c (by rw [hcode]; exact List.mem_cons_self)
    rw [hcode, show k = _ from hshape] at hreleased
    rintro (hheld | hinside)
    · rcases hreleased with hrelease | hnot
      · simp [Instr.threadSleep, Instr.lockAcquire, Instr.semaphoreP] at hrelease
      · exact hnot hheld
    · rw [show s.kernel s.currentThread = _ from hcode, show k = _ from hshape] at hinside
      simp [Instr.threadSleep, Instr.lockAcquire, Instr.semaphoreP, inside] at hinside
  have hbefore := h.code_current hcode
  refine ⟨_, .inr (.wait hbefore), ?_, ?_, ?_, ?_, h.goto_acts hfoot.program hkernel,
    h.data.trans hfoot.data.symm⟩
  · exact h.value_exec hexec (by simp) (by simp)
  · intro l t ht
    have howner := h.owner_of_has l t ((hhas l t).1 ht)
    change a.freed s.currentThread (lockOf c) l = some t
    unfold Sync.State.freed
    split_ifs with hfreed
    · rw [Function.update_of_ne, howner]
      rintro rfl
      rw [howner] at hfreed
      cases hfreed
      exact hgone ((hhas _ _).1 ht)
    · exact howner
  · intro l t ht
    left
    change a.freed s.currentThread (lockOf c) l = some t at ht
    have hold : a.owner l = some t ∧ ¬ (l = lockOf c ∧ t = s.currentThread) := by
      unfold Sync.State.freed at ht
      split_ifs at ht with hfreed
      · by_cases hl : l = lockOf c
        · subst hl
          rw [Function.update_self] at ht
          cases ht
        · rw [Function.update_of_ne hl] at ht
          exact ⟨ht, fun hboth => hl hboth.1⟩
      · refine ⟨ht, ?_⟩
        rintro ⟨rfl, rfl⟩
        exact hfreed ht
    refine (hhas l t).2 ?_
    rcases h.has_of_owner l t hold.1 with hhas | ⟨rfl, c', hc', hl⟩
    · exact hhas
    · rw [hcode, List.mem_cons] at hc'
      rcases hc' with heq | hc'
      · cases heq
        exact absurd ⟨hl.symm, rfl⟩ hold.2
      · exact absurd hc' (honly c')
  · cases hexec
    change Function.update a.waiting c (a.waiting c ++ [s.currentThread]) = _
    rw [h.waiting]
    rfl

theorem exec [Fintype τ] (h : Refines lockOf s a) (hknown : Known lockOf s) (hlocked' : Locked s')
    (hcode : s.code = i :: k) (hexec : s.exec due timer k i = some s') : Follows P lockOf a s' := by
  have hlocked := hknown.waits.locked
  have hwell := hlocked.scheduled.wellFormed
  cases i with
  | p x =>
    cases x with
    | inl x => exact h.exec_p hwell hcode hexec
    | inr l => exact h.exec_acquire hlocked hlocked' hcode hexec
  | v x =>
    cases x with
    | inl x => exact h.exec_v hwell hcode hexec
    | inr l => exact h.exec_unlock hlocked hlocked' (hknown.parked.shape _) hcode hexec
  | release l => exact h.exec_release hlocked hlocked' hcode hexec
  | append c => exact h.exec_append hknown hcode hexec
  | signal c => exact h.exec_signal hwell hcode hexec
  | broadcast c => exact h.exec_broadcast hwell hcode hexec
  | _ => exact ⟨a, .inl rfl, h.silent hlocked hlocked' hcode hexec rfl⟩

/-- The calls of `V` that a handler makes. -/
theorem handle {x : ξ} {vs : List σ} {d : δ} (h : Refines lockOf s a) (hcode : s.code = .handle x :: k)
    (hhandle : P.handle x s.data d vs) :
    Follows P lockOf a { s.goto (vs.flatMap (fun x => Instr.semaphoreV (.inl x)) ++ k) with data := d } := by
  have hself : s.kernel s.currentThread = .handle x :: k := hcode
  have hbefore := h.code_current hcode
  have hhandle' : (P.atomic lockOf).handle x a.data d vs := by
    rw [h.data]
    exact hhandle
  have hcalled : ∀ i ∈ vs.flatMap (fun x => (Instr.semaphoreV (.inl x) : List (Instr τ σ μ κ ξ))),
      i.neutral = true ∧ i.called = false :=
    forall_mem_flatMap ⟨rfl, rfl⟩ (fun _ => ⟨rfl, rfl⟩) ⟨rfl, rfl⟩
  refine ⟨_, .inr (.interrupt (t := s.currentThread) hhandle'), h.frame rfl ?_ ?_ h.value h.waiting ?_ rfl⟩
  · intro l t
    change s.heldthread l = some t ∨ inside l (Function.update s.kernel s.currentThread _ t) = true ↔ _
    rw [Function.update_apply]
    split_ifs with ht
    · unfold State.Has
      rw [ht, hself, inside_append fun i hi => (hcalled i hi).1]
      rfl
    · exact Iff.rfl
  · intro c hc
    refine ⟨?_, rfl⟩
    rw [hcode, List.mem_cons, or_iff_right (by simp)] at hc
    change _ ∈ Function.update s.kernel s.currentThread _ s.currentThread
    rw [Function.update_self]
    exact List.mem_append_right _ hc
  · have hacts : State.acts
          { s.goto (vs.flatMap (fun x => Instr.semaphoreV (.inl x)) ++ k) with data := d } =
        Function.update s.acts s.currentThread
          (acts (vs.flatMap (fun x => Instr.semaphoreV (.inl x)) ++ k) ++
            (s.program s.currentThread).flatMap Op.acts) := acts_update rfl rfl
    rw [hacts, acts_flatMap, ← h.code, List.append_assoc]
    change Function.update a.code s.currentThread _ = _
    rw [hbefore]
    rfl

omit [DecidableEq σ] [DecidableEq μ] [DecidableEq κ] in
theorem acts_proceed (hprogram : s'.program = Function.update s.program s.currentThread ops)
    (hkernel : s'.kernel = Function.update s.kernel s.currentThread k') :
    s'.acts = Function.update s.acts s.currentThread (acts k' ++ ops.flatMap Op.acts) := by
  funext t
  rw [Function.update_apply]
  unfold State.acts
  rw [hprogram, hkernel, Function.update_apply, Function.update_apply]
  split_ifs <;> rfl

/-- A piece of the current thread's own code. -/
theorem own {x : ξ} {ops more : List (Op τ σ μ κ ξ)} {d : δ} (h : Refines lockOf s a) (hcode : s.code = [])
    (hprogram : s.program s.currentThread = .own x :: ops)
    (hexec : P.exec s.currentThread x s.data d more) :
    Follows P lockOf a { s.proceed (more ++ ops) with data := d } := by
  have hbefore := h.code_current hcode
  rw [hprogram] at hbefore
  have hexec' : (P.atomic lockOf).exec s.currentThread x a.data d (more.flatMap Op.acts) :=
    ⟨more, h.data.symm ▸ hexec, rfl⟩
  refine ⟨_, .inr (.own hbefore hexec'), h.frame rfl (fun _ _ => Iff.rfl)
    (fun c hc => ⟨hc, rfl⟩) h.value h.waiting ?_ rfl⟩
  have hkernel : s.kernel = Function.update s.kernel s.currentThread [] := by
    rw [← show s.kernel s.currentThread = [] from hcode, Function.update_eq_self]
  have hacts : State.acts { s.proceed (more ++ ops) with data := d } =
      Function.update s.acts s.currentThread (acts [] ++ (more ++ ops).flatMap Op.acts) :=
    acts_proceed rfl hkernel
  rw [hacts, List.flatMap_append, ← h.code]
  rfl

omit [DecidableEq τ] [DecidableEq σ] [DecidableEq κ] in
/-- A routine is entered without a lock. -/
theorem inside_routine (l : μ) : inside l (op.routine due timer) = false := by
  cases op with
  | oneTick =>
    have hneutral : ∀ j ∈ (Instr.oneTick due timer : List (Instr τ σ μ κ ξ)), j.neutral = true :=
      neutral_front (i := .enable) rfl (List.mem_cons_of_mem _ (List.mem_singleton_self _))
    have hinside := inside_append hneutral l []
    rwa [List.append_nil] at hinside
  | _ =>
    simp [Op.routine, Instr.semaphoreP, Instr.semaphoreV, Instr.lockAcquire, Instr.conditionSignal,
      Instr.conditionBroadcast, Instr.threadYield, Instr.threadFork, Instr.threadFinish,
      Instr.conditionWait, Instr.threadSleep, inside]

omit [DecidableEq σ] [DecidableEq κ] in
theorem has_call_iff (hcode : s.code = []) (hfork : ∀ t func, op = .fork t func → s.kernel t = [])
    (l : μ) (t : τ) : ((s.proceed ops).call due timer op).Has l t ↔ s.Has l t := by
  unfold State.Has
  rw [(call_frame (s.proceed ops) due timer op).1]
  by_cases ht : t = s.currentThread
  · have hself : ((s.proceed ops).call due timer op).kernel s.currentThread = op.routine due timer :=
      call_kernel_self (s := s.proceed ops) hcode
    rw [ht, hself, inside_routine, show s.kernel s.currentThread = [] from hcode]
    rfl
  by_cases hnew : ∃ func, op = .fork t func
  · obtain ⟨func, rfl⟩ := hnew
    have hkernel : ((s.proceed ops).call due timer (.fork t func)).kernel t = [.enable] :=
      (Function.update_of_ne ht _ _).trans (Function.update_self _ _ _)
    rw [hkernel, hfork t func rfl]
    rfl
  · have hother : ((s.proceed ops).call due timer op).kernel t = s.kernel t :=
      call_kernel_of_ne (s := s.proceed ops) ht fun func heq => hnew ⟨func, heq⟩
    rw [hother]
    rfl

omit [DecidableEq σ] [DecidableEq κ] in
/-- A call of a routine. -/
theorem call (h : Refines lockOf s a) (hcode : s.code = [])
    (hprogram : s.program s.currentThread = op :: ops) (hop : ∀ x, op ≠ .own x)
    (hfork : ∀ t func, op ≠ .fork t func) : Refines lockOf ((s.proceed ops).call due timer op) a := by
  obtain ⟨-, hwaiting, hdata⟩ := call_frame (s.proceed ops) due timer op
  refine h.frame rfl (has_call_iff hcode fun t func heq => absurd heq (hfork t func)) ?_ ?_
    (h.waiting.trans hwaiting.symm) ?_ (h.data.trans hdata.symm)
  · intro c hc
    rw [hcode] at hc
    cases hc
  · intro x
    rw [h.value]
    cases op <;> rfl
  · have hkernel : ((s.proceed ops).call due timer op).kernel =
        Function.update s.kernel s.currentThread (op.routine due timer) := by
      cases op with
      | fork t func => exact absurd rfl (hfork t func)
      | own x => exact absurd rfl (hop x)
      | create t =>
        change s.kernel = Function.update s.kernel s.currentThread []
        rw [← show s.kernel s.currentThread = [] from hcode, Function.update_eq_self]
      | _ => rfl
    have hbefore := acts_current hcode
    rw [hprogram, List.flatMap_cons, ← acts_routine hfork hop] at hbefore
    rw [h.code, acts_proceed (s := s) (call_program hfork) hkernel]
    refine (Function.update_eq_self _ _).symm.trans (congrArg _ ?_)
    exact hbefore

/-- `Fork`. -/
theorem fork {t : τ} {func : ξ} (h : Refines lockOf s a) (hcode : s.code = [])
    (hprogram : s.program s.currentThread = .fork t func :: ops) (hne : t ≠ s.currentThread)
    (hnew : s.kernel t = [] ∧ s.program t = []) :
    Follows P lockOf a ((s.proceed ops).call due timer (.fork t func)) := by
  have hbefore := h.code_current hcode
  rw [hprogram] at hbefore
  have hempty : a.code t = [] := by
    rw [h.code, State.acts, hnew.1, hnew.2]
    rfl
  refine ⟨_, .inr (.fork hbefore hne hempty),
    h.frame rfl (has_call_iff hcode ?_) ?_ h.value h.waiting ?_ h.data⟩
  · rintro u func' heq
    cases heq
    exact hnew.1
  · intro c hc
    rw [hcode] at hc
    cases hc
  · change Function.update (Function.update a.code s.currentThread _) t _ = _
    rw [h.code]
    funext u
    unfold State.acts
    change _ = Kernel.acts (Function.update (Function.update s.kernel t [.enable]) s.currentThread
      (Instr.threadFork t) u) ++ (Function.update (Function.update s.program s.currentThread ops) t
        [.own func, .finish] u).flatMap Op.acts
    simp only [Function.update_apply]
    split_ifs with hut hcurrent hcurrent
    · exact absurd (hut.symm.trans hcurrent) hne
    · rfl
    · rfl
    · rfl

/-- **Simulation**: a step of the kernel is one of the atomic machine, or none. -/
theorem step [Fintype τ] (h : Refines lockOf s a) (hknown : Known lockOf s)
    (hguard : s.Disciplined lockOf) (hstep : Step P s s') : Follows P lockOf a s' := by
  have hlocked' := hknown.waits.locked.step hguard.forkOnce hstep
  cases hstep with
  | exec hcode hexec => exact h.exec hknown hlocked' hcode hexec
  | handle hcode hhandle => exact h.handle hcode hhandle
  | own hcode hprogram hexec => exact h.own hcode hprogram hexec
  | @call op ops due timer hcode hprogram hop =>
    by_cases hfork : ∃ t func, op = .fork t func
    · obtain ⟨t, func, rfl⟩ := hfork
      have ht : s.status t = .justCreated := by
        have hforkOnce := hguard.forkOnce
        rwa [State.ForkOnce, hcode, hprogram] at hforkOnce
      refine h.fork hcode hprogram ?_ ?_
      · rintro rfl
        exact hknown.waits.locked.scheduled.partitioned.current_known ht
      · rcases hknown.parked.fresh t ht with hnew | hready
        · exact hnew
        · rw [hcode] at hready
          cases hready
    · exact ⟨a, .inl rfl, h.call hcode hprogram hop fun t func heq => hfork ⟨t, func, heq⟩⟩

end Refines

section

variable [Fintype τ] {P : Program τ σ μ κ ξ δ} {main : τ} {func : ξ} {initialValue : σ → ℤ} {d : δ}

/-- The runs of the atomic machine that correspond to those of the kernel. -/
def atomicSystem (P : Program τ σ μ κ ξ δ) (lockOf : κ → μ) (main : τ) (func : ξ) (initialValue : σ → ℤ)
    (d : δ) : Transition.System (Sync.State τ σ μ κ ξ δ) Unit :=
  Sync.system (P.atomic lockOf) initialValue (Function.update (fun _ => []) main [.own func]) d

omit [DecidableEq σ] [DecidableEq κ] [Fintype τ] in
theorem Refines.start : Refines lockOf (start main func initialValue d : State τ σ μ κ ξ δ)
    ⟨initialValue, fun _ => none, fun _ => [], Function.update (fun _ => []) main [.own func], d⟩ where
  value _ := rfl
  owner_of_has := by
    rintro l t (hheld | hinside)
    · cases hheld
    · change inside l (Function.update (fun _ => []) main [.enable] t) = true at hinside
      rw [Function.update_apply] at hinside
      split_ifs at hinside
      · cases hinside
      · cases hinside
  has_of_owner := by
    intro l t hnone
    cases hnone
  waiting := rfl
  code := by
    funext t
    change _ = Kernel.acts (Function.update (fun _ => []) main [.enable] t) ++
      (Function.update (fun _ => []) main [.own func] t).flatMap Op.acts
    simp only [Function.update_apply]
    split_ifs <;> rfl
  data := rfl

/-- **The kernel refines the atomic machine.** -/
theorem exists_refines
    (h : ((system P main func initialValue d).restrict fun s _ => s.Disciplined lockOf).Reachable s) :
    Known lockOf s ∧ ∃ a, (atomicSystem P lockOf main func initialValue d).Reachable a ∧
      Refines lockOf s a := by
  refine @Transition.System.Reachable.invariant _ _ _ (fun s => Known lockOf s ∧
    ∃ a, (atomicSystem P lockOf main func initialValue d).Reachable a ∧ Refines lockOf s a) _ h ?_ ?_
  · rintro _ rfl
    exact ⟨Known.start, _, .of_init rfl, .start⟩
  · rintro s _ s' ⟨hknown, a, hreach, hrefines⟩ ⟨hguard, hstep⟩
    refine ⟨hknown.step hguard hstep, ?_⟩
    obtain ⟨a', hmove, hrefines'⟩ := hrefines.step hknown hguard hstep
    rcases hmove with rfl | hmove
    · exact ⟨a', hreach, hrefines'⟩
    · exact ⟨a', hreach.tail (a := ()) hmove, hrefines'⟩

/-! ### When nobody is ready -/

/-- Where a thread is when nobody is ready, and what it is about to do. -/
inductive Resting (s : State τ σ μ κ ξ δ) (a : Sync.State τ σ μ κ ξ δ) (t : τ) : Prop where
  | unforked (hstatus : s.status t = .justCreated) (hcode : a.code t = [])
  | finished (hfinished : s.finished t = true) (hcode : a.code t = [])
  | semaphore {x : σ} {k : List (Sync.Act τ σ μ κ ξ)} (hqueue : t ∈ (s.semaphore (.inl x)).queue)
      (hcode : a.code t = .p x :: k) (hvalue : a.value x = 0)
  | lock {l : μ} {k : List (Sync.Act τ σ μ κ ξ)} {u : τ} (hqueue : t ∈ (s.semaphore (.inr l)).queue)
      (hcode : a.code t = .acquire l :: k) (howner : a.owner l = some u)
  | condition {c : κ} {l : μ} {k : List (Sync.Act τ σ μ κ ξ)} (hwaiting : t ∈ s.waitinglist c)
      (hcode : a.code t = .acquire l :: k)

omit [DecidableEq σ] [DecidableEq μ] [DecidableEq κ] [Fintype τ] in
/-- What a thread does before it is out of `Sleep` is not seen. -/
theorem acts_afterwards (h : WellFormed s) (hsleep : s.code = .sleep :: k) (t : τ) :
    acts (afterwards (s.kernel t)) = acts (s.kernel t) := by
  by_cases ht : t = s.currentThread
  · rw [ht, show s.kernel s.currentThread = _ from hsleep]
    rfl
  · rw [afterwards_of_running (h.other t ht).2.1]
    generalize s.kernel t = k'
    unfold resumed
    split <;> rfl

namespace Known

variable (h : Known lockOf s) (hnobody : s.NobodyReady)

include h hnobody

omit [DecidableEq κ] in
/-- Without a thread that is ready, all are new or asleep. -/
theorem asleep_of_nobodyReady (t : τ) :
    (s.status t = .justCreated ∧ s.kernel t = [] ∧ s.program t = []) ∨ s.finished t = true ∨
      (∃ x, t ∈ (s.semaphore x).queue) ∨ ∃ c, t ∈ s.waitinglist c := by
  obtain ⟨hready, k, hsleep⟩ := hnobody
  have hpart := h.waits.locked.scheduled.partitioned
  have hok := h.waits.locked.scheduled.wellFormed.current
  cases hstatus : s.status t with
  | justCreated =>
    refine .inl ⟨rfl, (h.parked.fresh t hstatus).resolve_right fun hmem => ?_⟩
    rw [hsleep] at hok hmem
    have hurgent := hok.2.1.2 (.ready t) ((List.mem_cons.1 hmem).resolve_left (by simp))
    cases hurgent
  | running =>
    have hphase := ((hpart.running_iff t).1 hstatus).2
    change phase s.code ≠ .sleeping at hphase
    rw [hsleep] at hphase
    exact absurd rfl hphase
  | ready =>
    have hmem : t ∈ s.readyList := (hpart.mem_readyList t).2 hstatus
    rw [hready] at hmem
    cases hmem
  | blocked =>
    right
    rcases hpart.of_blocked t hstatus with hfinished | ⟨x | c, hqueue⟩
    · exact .inl hfinished
    · exact .inr (.inl ⟨x, hqueue⟩)
    · exact .inr (.inr ⟨c, hqueue⟩)

omit [DecidableEq κ] in
/-- **No wakeup is lost**: a semaphore with threads on its queue has no units. -/
theorem value_le_zero (hqueue : (s.semaphore x).queue ≠ []) : (s.semaphore x).value ≤ 0 := by
  have hempty : s.awake x = ∅ := by
    refine Finset.eq_empty_of_forall_notMem fun u hu => ?_
    simp only [State.awake, Finset.mem_filter, Finset.mem_univ, true_and, wants_eq_some] at hu
    obtain ⟨⟨k', hafter⟩, hnot⟩ := hu
    rcases h.asleep_of_nobodyReady hnobody u with ⟨-, hnew, -⟩ | hdone | ⟨y, hy⟩ | ⟨c, hc⟩
    · rw [hnew] at hafter
      cases hafter
    · rw [h.parked.finished u hdone] at hafter
      cases hafter
    · obtain ⟨k'', hafter'⟩ := h.parked.queued u y hy
      rw [hafter'] at hafter
      cases hafter
      exact hnot hy
    · obtain ⟨l, k'', hafter'⟩ := h.parked.listed u c hc
      rw [hafter'] at hafter
      cases hafter
  have hvalue := h.noneOverlooked x hqueue
  rwa [hempty, Finset.card_empty] at hvalue

end Known

omit [DecidableEq τ] [DecidableEq σ] [DecidableEq κ] [Fintype τ] in
/-- A lock whose semaphore has no units has an owner. -/
theorem Locked.exists_has (h : Locked s) {l : μ} (hvalue : (s.semaphore (.inr l)).value ≤ 0) :
    ∃ u, s.Has l u := by
  rcases h.sound l with ⟨hfree, -⟩ | ⟨u, -, hheld, -⟩
  · rw [show (s.semaphore (.inr l)).value = 1 from hfree] at hvalue
    exact absurd hvalue (by decide)
  · refine ⟨u, ?_⟩
    by_cases hin : inside l (s.kernel u) = true
    · exact .inr hin
    · exact .inl (hheld.trans (if_neg hin))

omit [DecidableEq κ] in
/-- **When the processor finds nobody to run, no thread can go on.** -/
theorem Refines.resting {a : Sync.State τ σ μ κ ξ δ} (hrefines : Refines lockOf s a) (h : Known lockOf s)
    (hvalue : ∀ x, 0 ≤ a.value x) (hnobody : s.NobodyReady) (t : τ) : Resting s a t := by
  obtain ⟨-, k, hsleep⟩ := id hnobody
  have hcode : a.code t = acts (afterwards (s.kernel t)) ++ (s.program t).flatMap Op.acts := by
    rw [acts_afterwards h.waits.locked.scheduled.wellFormed hsleep, hrefines.code]
    rfl
  rcases h.asleep_of_nobodyReady hnobody t with ⟨hstatus, hnew, hprogram⟩ | hdone | ⟨x, hx⟩ | ⟨c, hc⟩
  · refine .unforked hstatus (hcode.trans ?_)
    rw [hnew, hprogram]
    rfl
  · refine .finished hdone (hcode.trans ?_)
    rw [h.parked.finished t hdone, h.parked.done t (.inl hdone)]
    rfl
  · obtain ⟨k', hafter⟩ := h.parked.queued t x hx
    have hzero := h.value_le_zero hnobody (List.ne_nil_of_mem hx)
    rw [hafter] at hcode
    cases x with
    | inl x =>
      refine .semaphore hx hcode ?_
      have hnonneg := hvalue x
      rw [hrefines.value] at hnonneg ⊢
      exact le_antisymm hzero hnonneg
    | inr l =>
      obtain ⟨u, hu⟩ := h.waits.locked.exists_has hzero
      exact .lock hx hcode (hrefines.owner_of_has l u hu)
  · obtain ⟨l, k', hafter⟩ := h.parked.listed t c hc
    rw [hafter] at hcode
    exact .condition hc hcode

end

end Nachos.Kernel
