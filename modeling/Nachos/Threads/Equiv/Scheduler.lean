import Nachos.Threads.Equiv.Kernel

/-!
# No thread is lost or duplicated

`Placement.Partitioned` is kept by each of the seven steps of `Placement.Step`.  A step of the kernel
is one of them, or moves no thread (`placement_step`), as long as every thread is forked once; so in
every reachable state each thread is in the one place its status says.
-/

namespace Nachos

namespace Placement

variable {τ κ : Type}

namespace Partitioned

variable {p p' : Placement τ κ}

theorem current_running (h : p.Partitioned) (hphase : p.phase = .running) :
    p.status p.currentThread = .running := (h.running_iff _).2 ⟨rfl, by simp [hphase]⟩

theorem current_notMem_queue (h : p.Partitioned) (hphase : p.phase = .running) (q : κ) :
    p.currentThread ∉ p.queue q := by
  intro hq
  have hrunning := h.current_running hphase
  rcases (h.of_mem_queue _ _ hq).2 with hblocked | ⟨-, hparking⟩
  · rw [hrunning] at hblocked
    cases hblocked
  · rw [hphase] at hparking
    cases hparking

theorem current_notMem_readyList (h : p.Partitioned) (hphase : p.phase = .running) :
    p.currentThread ∉ p.readyList := by
  intro hready
  rw [h.mem_readyList, h.current_running hphase] at hready
  cases hready

/-- A thread on a wait queue is not ready, and not new. -/
theorem status_of_mem_queue (h : p.Partitioned) {t : τ} {q : κ} (ht : t ∈ p.queue q) :
    p.status t = .blocked ∨ p.status t = .running := by
  rcases (h.of_mem_queue t q ht).2 with hblocked | ⟨rfl, hphase⟩
  · exact Or.inl hblocked
  · exact Or.inr ((h.running_iff _).2 ⟨rfl, by simp [hphase]⟩)

theorem current_not_finished (h : p.Partitioned) (hphase : p.phase = .running) :
    p.finished p.currentThread = false := by
  by_contra hfinished
  have hrunning := h.current_running hphase
  rcases h.of_finished _ (by simpa using hfinished) with hblocked | ⟨-, hparking⟩
  · rw [hrunning] at hblocked
    cases hblocked
  · rw [hphase] at hparking
    cases hparking

/-- A step that leaves the queues alone, and those who are blocked or about to be. -/
theorem of_status (h : p.Partitioned) (hqueue : p'.queue = p.queue) (hfinished : p'.finished = p.finished)
    (hnodup : p'.readyList.Nodup) (hready : ∀ t, t ∈ p'.readyList ↔ p'.status t = .ready)
    (hknown : p'.status p'.currentThread ≠ .justCreated)
    (hrunning : ∀ t, p'.status t = .running ↔ t = p'.currentThread ∧ p'.phase ≠ .sleeping)
    (hdown : ∀ t, (p'.status t = .blocked ∨ t = p'.currentThread ∧ p'.phase = .parking) ↔
      (p.status t = .blocked ∨ t = p.currentThread ∧ p.phase = .parking)) : p'.Partitioned := by
  have hplace : ∀ t, p'.status t = .blocked ∨ t = p'.currentThread ∧ p'.phase = .parking →
      p.finished t = true ∨ ∃ q, t ∈ p.queue q := by
    intro t ht
    rcases (hdown t).1 ht with hblocked | ⟨rfl, hparking⟩
    · exact h.of_blocked t hblocked
    · exact h.of_parking hparking
  refine ⟨hnodup, hqueue ▸ h.queue_nodup, hqueue ▸ h.queue_unique, hready, hknown, hrunning, ?_, ?_, ?_, ?_⟩
  · intro t q ht
    rw [hqueue] at ht
    rw [hfinished, hdown]
    exact h.of_mem_queue t q ht
  · rw [hqueue, hfinished]
    exact fun t ht => hplace t (.inl ht)
  · rw [hqueue, hfinished]
    exact fun hparking => hplace _ (.inr ⟨rfl, hparking⟩)
  · rw [hfinished]
    exact fun t ht => (hdown t).2 (h.of_finished t ht)

variable [DecidableEq τ]

/-- One thread runs, and no other has been forked. -/
theorem initial (main : τ) :
    Partitioned (⟨main, .running, Function.update (fun _ => .justCreated) main .running, [],
      fun _ => [], fun _ => false⟩ : Placement τ κ) := by
  constructor
  all_goals simp only [Function.update_apply]
  all_goals grind

theorem fork (h : p.Partitioned) {t : τ} (hphase : p.phase = .running)
    (hstatus : p.status t = .justCreated) :
    Partitioned { p with
      readyList := p.readyList ++ [t]
      status := Function.update p.status t .ready } := by
  refine h.of_status rfl rfl (by grind [h.ready_nodup, h.mem_readyList]) ?_ ?_ ?_ ?_
  all_goals simp only [Function.update_apply]
  · grind [h.mem_readyList]
  · grind [h.current_known]
  · grind [h.running_iff]
  · grind

theorem finish (h : p.Partitioned) (hphase : p.phase = .running) :
    Partitioned { p with
      finished := Function.update p.finished p.currentThread true
      phase := .parking } := by
  have hrunning := h.current_running hphase
  have hnot := h.current_notMem_queue hphase
  refine ⟨h.ready_nodup, h.queue_nodup, h.queue_unique, h.mem_readyList, h.current_known, ?_, ?_, ?_,
    ?_, ?_⟩
  · grind [h.running_iff]
  · simp only [Function.update_apply]
    grind [h.of_mem_queue]
  · simp only [Function.update_apply]
    grind [h.of_blocked]
  · intro _
    exact Or.inl (Function.update_self _ _ _)
  · simp only [Function.update_apply]
    grind [h.of_finished]

theorem block (h : p.Partitioned) (hphase : p.phase = .parking) :
    Partitioned { p with
      status := Function.update p.status p.currentThread .blocked
      phase := .sleeping } := by
  have hrunning : p.status p.currentThread = .running :=
    (h.running_iff _).2 ⟨rfl, by simp [hphase]⟩
  refine h.of_status rfl rfl h.ready_nodup ?_ ?_ ?_ ?_
  all_goals simp only [Function.update_apply]
  · grind [h.mem_readyList]
  · grind
  · grind [h.running_iff]
  · grind

theorem dispatch (h : p.Partitioned) {next : τ} {rest : List τ} (hphase : p.phase = .sleeping)
    (hready : p.readyList = next :: rest) :
    Partitioned { p with
      currentThread := next
      phase := .running
      readyList := rest
      status := Function.update p.status next .running } := by
  have hnext : p.status next = .ready := (h.mem_readyList next).1 (by simp [hready])
  have hnodup := h.ready_nodup
  rw [hready, List.nodup_cons] at hnodup
  refine h.of_status rfl rfl hnodup.2 ?_ ?_ ?_ ?_
  all_goals simp only [Function.update_apply]
  · grind [h.mem_readyList]
  · grind
  · grind [h.running_iff]
  · grind

theorem yield (h : p.Partitioned) {next : τ} {rest : List τ} (hphase : p.phase = .running)
    (hready : p.readyList = next :: rest) :
    Partitioned { p with
      currentThread := next
      phase := .running
      readyList := rest ++ [p.currentThread]
      status := Function.update (Function.update p.status p.currentThread .ready) next .running } := by
  have hrunning := h.current_running hphase
  have hcurrent := h.current_notMem_readyList hphase
  have hnext : p.status next = .ready := (h.mem_readyList next).1 (by simp [hready])
  have hnodup := h.ready_nodup
  rw [hready] at hnodup hcurrent
  rw [List.nodup_cons] at hnodup
  refine h.of_status rfl rfl (by grind) ?_ ?_ ?_ ?_
  all_goals simp only [Function.update_apply]
  · grind [h.mem_readyList]
  · grind
  · grind [h.running_iff]
  · grind

variable [DecidableEq κ]

theorem wait (h : p.Partitioned) (q : κ) (hphase : p.phase = .running) :
    Partitioned { p with
      queue := Function.update p.queue q (p.queue q ++ [p.currentThread])
      phase := .parking } := by
  have hrunning := h.current_running hphase
  have hnot := h.current_notMem_queue hphase
  have hmem : ∀ t q', t ∈ Function.update p.queue q (p.queue q ++ [p.currentThread]) q' ↔
      t ∈ p.queue q' ∨ q' = q ∧ t = p.currentThread := by
    intro t q'
    rw [Function.update_apply]
    grind
  refine ⟨h.ready_nodup, ?_, ?_, h.mem_readyList, h.current_known, ?_, ?_, ?_, ?_, ?_⟩
  · intro q'
    have hnodup := h.queue_nodup
    simp only [Function.update_apply]
    grind
  · simp only [hmem]
    grind [h.queue_unique]
  · grind [h.running_iff]
  · simp only [hmem]
    grind [h.of_mem_queue, h.current_not_finished]
  · simp only [hmem]
    grind [h.of_blocked]
  · intro _
    exact Or.inr ⟨q, (hmem _ q).2 (Or.inr ⟨rfl, rfl⟩)⟩
  · grind [h.of_finished]

theorem wake (h : p.Partitioned) {q : κ} {t : τ} {rest : List τ} (hphase : p.phase ≠ .parking)
    (hqueue : p.queue q = t :: rest) :
    Partitioned { p with
      queue := Function.update p.queue q rest
      readyList := p.readyList ++ [t]
      status := Function.update p.status t .ready } := by
  have ht : t ∈ p.queue q := by simp [hqueue]
  have hnodup := h.queue_nodup q
  rw [hqueue, List.nodup_cons] at hnodup
  have hblocked : p.status t = .blocked := by
    rcases (h.of_mem_queue t q ht).2 with hblocked | ⟨-, hparking⟩
    · exact hblocked
    · exact absurd hparking hphase
  -- the thread was on this queue only, once
  have hmem : ∀ u q', u ∈ Function.update p.queue q rest q' ↔ u ∈ p.queue q' ∧ u ≠ t := by
    intro u q'
    rw [Function.update_apply]
    grind [h.queue_unique]
  constructor
  · grind [h.ready_nodup, h.mem_readyList]
  · simp only [Function.update_apply]
    grind [h.queue_nodup]
  · simp only [hmem]
    grind [h.queue_unique]
  · simp only [Function.update_apply]
    grind [h.mem_readyList]
  · simp only [Function.update_apply]
    grind [h.current_known]
  · simp only [Function.update_apply]
    grind [h.running_iff]
  · simp only [Function.update_apply]
    grind [h.of_mem_queue]
  · simp only [Function.update_apply]
    grind [h.of_blocked]
  · intro hparking
    exact absurd hparking hphase
  · simp only [Function.update_apply]
    grind [h.of_finished, h.of_mem_queue]

theorem step (h : p.Partitioned) (hstep : p.Step p') : p'.Partitioned := by
  cases hstep with
  | wait q hphase => exact h.wait q hphase
  | wake q hphase hqueue => exact h.wake hphase hqueue
  | fork hphase hstatus => exact h.fork hphase hstatus
  | finish hphase => exact h.finish hphase
  | block hphase => exact h.block hphase
  | dispatch hphase hready => exact h.dispatch hphase hready
  | yield hphase hready => exact h.yield hphase hready

end Partitioned

end Placement

namespace Kernel

variable {τ σ μ κ ξ δ : Type}

/-- The wait queues: those of the semaphores and the waiting lists of the conditions. -/
def State.queue (s : State τ σ μ κ ξ δ) : (σ ⊕ μ) ⊕ κ → List τ :=
  Sum.elim (fun x => (s.semaphore x).queue) s.waitinglist

/-- Where the kernel has its threads. -/
def State.placement (s : State τ σ μ κ ξ δ) : Placement τ ((σ ⊕ μ) ⊕ κ) :=
  ⟨s.currentThread, phase s.code, s.status, s.readyList, s.queue, s.finished⟩

theorem queue_update_semaphore [DecidableEq σ] [DecidableEq μ] [DecidableEq κ]
    (s : State τ σ μ κ ξ δ) (x : σ ⊕ μ) (y : Semaphore τ) :
    Sum.elim (fun z => (Function.update s.semaphore x y z).queue) s.waitinglist =
      Function.update s.queue (.inl x) y.queue := by
  have hcomp : (fun z => (Function.update s.semaphore x y z).queue) =
      Function.update (fun z => (s.semaphore z).queue) x y.queue := by
    funext z
    rw [Function.update_apply, Function.update_apply]
    split_ifs <;> rfl
  rw [hcomp]
  exact Sum.elim_update_left _ _ _ _

variable {s s' : State τ σ μ κ ξ δ} {k : List (Instr τ σ μ κ ξ)} {due : List ξ} {timer : Bool}

theorem phase_setLevel {now : IntStatus} (hon : now = .intOn → phase k = .running) :
    phase (if now = .intOn ∧ s.level = .intOff then Instr.oneTick due timer ++ k else k) =
      phase k := by
  split_ifs with htick
  · rw [phase_oneTick_append, hon htick.1]
  · rfl

variable [DecidableEq τ]

/-- A step that moves no thread. -/
theorem placement_eq (hcurrent : s'.currentThread = s.currentThread)
    (hkernel : s'.kernel = Function.update s.kernel s.currentThread k)
    (hphase : phase k = phase s.code) (hstatus : s'.status = s.status)
    (hready : s'.readyList = s.readyList) (hqueue : s'.queue = s.queue)
    (hfinished : s'.finished = s.finished) : s'.placement = s.placement := by
  unfold State.placement
  rw [State.code, hcurrent, hkernel, Function.update_self, hphase, hstatus, hready, hqueue, hfinished]

theorem placement_setOldLevel {old : IntStatus} {rest : List IntStatus}
    (hsaved : s.saved s.currentThread = old :: rest) (hphase : phase k = phase s.code)
    (hon : old = .intOn → phase k = .running) (hs' : s.setOldLevel due timer k = some s') :
    s'.placement = s.placement := by
  rw [State.setOldLevel, hsaved, Option.some.injEq] at hs'
  subst hs'
  exact placement_eq rfl rfl ((phase_setLevel hon).trans hphase) rfl rfl rfl rfl

variable [DecidableEq σ] [DecidableEq μ] [DecidableEq κ]

/-- A step that moves threads, the current one keeping the processor. -/
theorem placement_step {p : Phase} {status : τ → ThreadStatus} {readyList : List τ}
    {queue : (σ ⊕ μ) ⊕ κ → List τ} {finished : τ → Bool}
    (hstep : s.placement.Step ⟨s.currentThread, p, status, readyList, queue, finished⟩)
    (hcurrent : s'.currentThread = s.currentThread)
    (hkernel : s'.kernel = Function.update s.kernel s.currentThread k) (hphase : phase k = p)
    (hstatus : s'.status = status) (hready : s'.readyList = readyList) (hqueue : s'.queue = queue)
    (hfinished : s'.finished = finished) : s.placement.Step s'.placement := by
  have heq : s'.placement = ⟨s.currentThread, p, status, readyList, queue, finished⟩ := by
    rw [State.placement, State.code, hcurrent, hkernel, Function.update_self, hphase, hstatus,
      hready, hqueue, hfinished]
  rwa [heq]

/-- A step that gives the processor to `next`, which is not in `Sleep` where it was left. -/
theorem placement_switch {next : τ} {status : τ → ThreadStatus} {readyList : List τ}
    (h : WellFormed s)
    (hstep : s.placement.Step ⟨next, .running, status, readyList, s.queue, s.finished⟩)
    (hcurrent : s'.currentThread = next)
    (hkernel : s'.kernel = Function.update s.kernel s.currentThread (.reap :: k))
    (hstatus : s'.status = status) (hready : s'.readyList = readyList) (hqueue : s'.queue = s.queue)
    (hfinished : s'.finished = s.finished) : s.placement.Step s'.placement := by
  have hphase : phase s'.code = .running := by
    rw [State.code, hkernel, hcurrent, Function.update_apply]
    split_ifs with hnext
    · rfl
    · exact (h.other next hnext).2.1
  have heq : s'.placement = ⟨next, .running, status, readyList, s.queue, s.finished⟩ := by
    rw [State.placement, hphase, hcurrent, hstatus, hready, hqueue, hfinished]
  rwa [heq]

theorem placement_exec {i : Instr τ σ μ κ ξ} (h : WellFormed s) (hcode : s.code = i :: k)
    (hfork : ∀ t, i = .ready t → s.status t = .justCreated)
    (hexec : s.exec due timer k i = some s') :
    s'.placement = s.placement ∨ s.placement.Step s'.placement := by
  have hok := h.current
  rw [hcode] at hok
  have hphase : phase s.code = phase (i :: k) := by rw [hcode]
  cases i with
  | disable =>
    cases hexec
    exact Or.inl (placement_eq rfl rfl hphase.symm rfl rfl rfl rfl)
  | restore =>
    obtain ⟨old, rest, hsaved, hon, -⟩ := hok
    have hk : phase k = phase s.code := hphase.symm
    exact Or.inl (placement_setOldLevel hsaved hk (fun ho => (hon ho).1) hexec)
  | returnWait c =>
    obtain ⟨old, rest, hsaved, ⟨hk, -⟩, -⟩ := hok
    exact Or.inl (placement_setOldLevel hsaved (hk.trans hphase.symm) (fun _ => hk) hexec)
  | enable =>
    obtain ⟨⟨hk, -⟩, -⟩ := hok
    cases hexec
    exact Or.inl (placement_eq rfl rfl ((phase_setLevel fun _ => hk).trans (hk.trans hphase.symm))
      rfl rfl rfl rfl)
  | off =>
    cases hexec
    exact Or.inl (placement_eq rfl rfl (hok.1.trans hphase.symm) rfl rfl rfl rfl)
  | handle x => cases hexec
  | endTick =>
    cases hexec
    exact Or.inl (placement_eq rfl rfl (hok.1.1.trans hphase.symm) rfl rfl rfl rfl)
  | p x =>
    -- a thread that finds no value goes to sleep at the end of the queue, and tests again later
    obtain ⟨-, ⟨hk, -⟩, -⟩ := hok
    cases hexec
    by_cases hvalue : (s.semaphore x).value = 0
    · right
      unfold State.semP
      rw [Semaphore.p_of_eq_zero _ hvalue]
      have hwait := Placement.Step.wait (p := s.placement) (.inl x) hphase
      exact placement_step hwait rfl rfl rfl rfl rfl
        (queue_update_semaphore s x _) rfl
    · left
      unfold State.semP
      rw [Semaphore.p_of_ne_zero _ hvalue]
      exact placement_eq rfl rfl (hk.trans hphase.symm) rfl rfl
        ((queue_update_semaphore s x _).trans (Function.update_eq_self _ _)) rfl
  | v x =>
    obtain ⟨-, hk, -⟩ := hok
    have hparking : phase s.code ≠ .parking := by
      rw [hphase]
      exact hk
    cases hexec
    unfold State.semV
    cases hqueue : (s.semaphore x).queue with
    | nil =>
      left
      rw [Semaphore.v_of_nil hqueue]
      exact placement_eq rfl rfl hphase.symm rfl rfl
        ((queue_update_semaphore s x _).trans (Function.update_eq_self _ _)) rfl
    | cons t rest =>
      right
      rw [Semaphore.v_of_cons hqueue]
      have hwake := Placement.Step.wake (p := s.placement) (.inl x) hparking hqueue
      exact placement_step hwake rfl rfl hphase.symm rfl rfl
        (queue_update_semaphore s x _) rfl
  | assign l =>
    cases hexec
    exact Or.inl (placement_eq rfl rfl (hok.1.trans hphase.symm) rfl rfl rfl rfl)
  | release l =>
    cases hexec
    split_ifs
    · exact Or.inl (placement_eq rfl rfl (hok.1.trans hphase.symm) rfl rfl rfl rfl)
    · exact Or.inl (placement_eq rfl rfl (hok.1.trans hphase.symm) rfl rfl rfl rfl)
  | append c =>
    obtain ⟨-, hk, -⟩ := hok
    right
    cases hexec
    have hwait := Placement.Step.wait (p := s.placement) (.inr c) hphase
    exact placement_step hwait rfl rfl hk rfl rfl (Sum.elim_update_right _ _ _ _) rfl
  | signal c =>
    obtain ⟨-, ⟨hk, -⟩, -⟩ := hok
    cases hexec
    unfold State.doSignal
    cases hqueue : s.waitinglist c with
    | nil =>
      left
      exact placement_eq rfl rfl (hk.trans hphase.symm) rfl rfl rfl rfl
    | cons t rest =>
      right
      have hparking : phase s.code ≠ .parking := by simp [hphase, phase]
      have hwake := Placement.Step.wake (p := s.placement) (.inr c) hparking hqueue
      exact placement_step hwake rfl rfl (hk.trans hphase.symm) rfl rfl
        (Sum.elim_update_right _ _ _ _) rfl
  | broadcast c =>
    obtain ⟨-, ⟨hk, -⟩, -⟩ := hok
    cases hexec
    refine Or.inl (placement_eq rfl rfl ?_ rfl rfl rfl rfl)
    split_ifs
    · exact hk.trans hphase.symm
    · exact hphase.symm
  | block =>
    obtain ⟨hlevel, ⟨hk, -⟩, -⟩ := hok
    right
    rw [State.exec, if_pos hlevel] at hexec
    cases hexec
    exact placement_step (.block hphase) rfl rfl hk rfl rfl rfl rfl
  | sleep =>
    cases hexec
    unfold State.doSleep
    split
    · -- nobody is ready: the processor idles until an interrupt
      left
      exact placement_eq rfl rfl ((phase_handle_append due _).trans hphase.symm) rfl rfl rfl rfl
    · rename_i next rest hlist
      right
      exact placement_switch h (.dispatch hphase hlist) rfl rfl rfl rfl rfl rfl
  | reap =>
    obtain ⟨-, ⟨hk, -⟩, -⟩ := hok
    cases hexec
    unfold State.doReap
    split <;> exact Or.inl (placement_eq rfl rfl (hk.trans hphase.symm) rfl rfl rfl rfl)
  | yield =>
    obtain ⟨-, ⟨hk, -⟩, -⟩ := hok
    cases hexec
    unfold State.doYield
    split
    · left
      exact placement_eq rfl rfl (hk.trans hphase.symm) rfl rfl rfl rfl
    · rename_i next rest hlist
      right
      have hyield := Placement.Step.yield (p := s.placement) hphase hlist
      exact placement_switch h hyield rfl rfl rfl rfl rfl rfl
  | ready t =>
    obtain ⟨-, ⟨hk, -⟩, -⟩ := hok
    right
    cases hexec
    exact placement_step (.fork hphase (hfork t rfl)) rfl rfl (hk.trans hphase.symm) rfl rfl rfl rfl
  | destroy =>
    obtain ⟨-, hk, -⟩ := hok
    right
    cases hexec
    exact placement_step (.finish hphase) rfl rfl hk rfl rfl rfl rfl

/-- `Fork` is called on a thread once: the thread it makes ready is JUST_CREATED, which only `Fork`
changes, and so is the thread it allocates a stack for. -/
def State.ForkOnce (s : State τ σ μ κ ξ δ) : Prop :=
  match s.code, s.program s.currentThread with
  | .ready t :: _, _ => s.status t = .justCreated
  | [], .fork t _ :: _ => s.status t = .justCreated
  | _, _ => True

instance (s : State τ σ μ κ ξ δ) : Decidable s.ForkOnce := by
  unfold State.ForkOnce
  generalize s.code = code, s.program s.currentThread = program
  rcases code with _ | ⟨i, k⟩
  · rcases program with _ | ⟨op, ops⟩
    · exact .isTrue trivial
    · rcases op with _ | _ <;> infer_instance
  · rcases i with _ | _ <;> infer_instance

/-- **Refinement**: a step of the kernel moves no thread, or moves the threads as a step of the
placement does. -/
theorem placement_next {P : Program τ σ μ κ ξ δ} (h : WellFormed s) (hfork : s.ForkOnce)
    (hstep : Step P s s') : s'.placement = s.placement ∨ s.placement.Step s'.placement := by
  cases hstep with
  | exec hcode hexec =>
    apply placement_exec h hcode _ hexec
    rintro t rfl
    rwa [State.ForkOnce, hcode] at hfork
  | @handle x k d vs hcode _ =>
    left
    refine placement_eq rfl rfl ?_ rfl rfl rfl rfl
    rw [phase_flatMap_append, hcode]
    rfl
  | own _ _ _ => exact Or.inl rfl
  | @call op ops due timer hcode _ _ =>
    left
    -- a thread enters a routine outside `Sleep`
    have hcall : ∀ k, phase k = .running → ((s.proceed ops).goto k).placement = s.placement := by
      intro k hk
      refine placement_eq rfl rfl (hk.trans ?_) rfl rfl rfl rfl
      rw [hcode]
      rfl
    cases op with
    | create t => rfl
    | fork t func =>
      have hk : ((s.proceed ops).call due timer (.fork t func)).code = Instr.threadFork t :=
        Function.update_self _ _ _
      unfold State.placement
      rw [hk, hcode]
      rfl
    | own x => rfl
    | oneTick =>
      have hk := phase_oneTick_append (τ := τ) (σ := σ) (μ := μ) (κ := κ) due timer []
      rw [List.append_nil] at hk
      exact hcall _ hk
    | p x => exact hcall _ rfl
    | v x => exact hcall _ rfl
    | acquire l => exact hcall _ rfl
    | release l => exact hcall _ rfl
    | wait c l => exact hcall _ rfl
    | signal c => exact hcall _ rfl
    | broadcast c => exact hcall _ rfl
    | yield => exact hcall _ rfl
    | finish => exact hcall _ rfl

/-- The invariant of the runs in which every thread is forked once. -/
structure Scheduled (s : State τ σ μ κ ξ δ) : Prop where
  wellFormed : WellFormed s
  partitioned : s.placement.Partitioned

theorem Scheduled.step {P : Program τ σ μ κ ξ δ} (h : Scheduled s) (hfork : s.ForkOnce)
    (hstep : Step P s s') : Scheduled s' := by
  refine ⟨h.wellFormed.step hstep, ?_⟩
  rcases placement_next h.wellFormed hfork hstep with heq | hmove
  · rw [heq]
    exact h.partitioned
  · exact h.partitioned.step hmove

section

variable {P : Program τ σ μ κ ξ δ} {main : τ} {func : ξ} {initialValue : σ → ℤ} {d : δ}

omit [DecidableEq σ] [DecidableEq μ] [DecidableEq κ] in
theorem Scheduled.start : Scheduled (start main func initialValue d : State τ σ μ κ ξ δ) := by
  refine ⟨WellFormed.start, ?_⟩
  have hplacement : (Kernel.start main func initialValue d : State τ σ μ κ ξ δ).placement =
      ⟨main, .running, Function.update (fun _ => .justCreated) main .running, [], fun _ => [],
        fun _ => false⟩ := by
    unfold State.placement
    congr 1
    · simp [Kernel.start, State.code, phase]
    · funext q
      rcases q with (x | l) | c <;> rfl
  rw [hplacement]
  exact Placement.Partitioned.initial main

theorem Scheduled.of_reachable
    (h : ((system P main func initialValue d).restrict fun s _ => s.ForkOnce).Reachable s) :
    Scheduled s := by
  refine h.invariant ?_ ?_
  · rintro _ rfl
    exact Scheduled.start
  · rintro s _ s' hs ⟨hfork, hstep⟩
    exact hs.step hfork hstep

/-- **No thread is lost or duplicated by the scheduler.**  In every reachable state in which the
current thread is not inside `Sleep`: it is the only RUNNING thread and on no queue, a READY thread
is on the ready list once and on no wait queue, and a BLOCKED thread that has not finished is on one
wait queue, once, and not on the ready list.  In every reachable state, the statements that call
`Scheduler::Run` are reached with interrupts off. -/
theorem threads_partitioned
    (h : ((system P main func initialValue d).restrict fun s _ => s.ForkOnce).Reachable s) :
    (phase s.code = .running →
      (∀ t, s.status t = .running ↔ t = s.currentThread) ∧
      s.currentThread ∉ s.readyList ∧ (∀ q, s.currentThread ∉ s.queue q) ∧
      (∀ t, s.status t = .ready → s.readyList.count t = 1 ∧ ∀ q, t ∉ s.queue q) ∧
      (∀ t, s.status t = .blocked → s.finished t = false →
        t ∉ s.readyList ∧ ∃ q, (s.queue q).count t = 1 ∧ ∀ q', q' ≠ q → t ∉ s.queue q')) ∧
    ∀ i k, s.code = i :: k → i = .sleep ∨ i = .yield → s.level = .intOff := by
  obtain ⟨hwell, hpart⟩ := Scheduled.of_reachable h
  refine ⟨?_, ?_⟩
  · intro hphase
    refine ⟨?_, hpart.current_notMem_readyList hphase, hpart.current_notMem_queue hphase, ?_, ?_⟩
    · intro t
      have hrunning := hpart.running_iff t
      simpa [State.placement, hphase] using hrunning
    · intro t ht
      refine ⟨List.count_eq_one_of_mem hpart.ready_nodup ((hpart.mem_readyList t).2 ht), ?_⟩
      intro q hq
      have hstatus := hpart.status_of_mem_queue hq
      rw [show s.placement.status t = .ready from ht] at hstatus
      simp at hstatus
    · intro t ht hfinished
      refine ⟨?_, ?_⟩
      · intro hready
        have hstatus := (hpart.mem_readyList t).1 hready
        rw [show s.placement.status t = .blocked from ht] at hstatus
        cases hstatus
      · rcases hpart.of_blocked t ht with hdone | ⟨q, hq⟩
        · rw [show s.placement.finished t = false from hfinished] at hdone
          cases hdone
        · refine ⟨q, List.count_eq_one_of_mem (hpart.queue_nodup q) hq, ?_⟩
          intro q' hne hq'
          exact hne (hpart.queue_unique t q' q hq' hq)
  · intro i k hcode hi
    have hok := hwell.current
    rw [hcode] at hok
    rcases hi with rfl | rfl
    · exact hok.1
    · exact hok.1

end

/-- The thread `false` forks `true`, whose code is empty, and waits on a semaphore that is 0. -/
def forkAndWait : Bool → List (Op Bool Unit Empty Empty Bool)
  | false => [.fork true true, .p ()]
  | true => []

theorem threads_partitioned_forkAndWait :
    ∃ s : State Bool Unit Empty Empty Bool Unit,
      s.currentThread = true ∧ s.status false = .blocked ∧ (∃ q, (s.queue q).count false = 1) := by
  have hrun : ((fun o => o.bind fun s : State Bool Unit Empty Empty Bool Unit =>
      if s.ForkOnce then s.next (callsOnly forkAndWait) else none)^[18]
        (some (Kernel.start false false (fun _ => 0) ()))).map
      (fun s => (s.code.length, s.currentThread, s.status false, s.finished false)) =
        some (0, true, .blocked, false) := by decide
  obtain ⟨s, hs, hfacts⟩ := Option.map_eq_some_iff.1 hrun
  rw [Prod.mk.injEq, Prod.mk.injEq, Prod.mk.injEq, List.length_eq_zero_iff] at hfacts
  obtain ⟨hcode, hcurrent, hstatus, hfinished⟩ := hfacts
  have hphase : phase s.code = .running := by
    rw [hcode]
    rfl
  obtain ⟨-, q, hq, -⟩ := ((threads_partitioned (reachable_of_iterate (P := .ofBody (callsOnly forkAndWait))
    (fun _ _ _ _ _ h => h) State.ForkOnce 18 hs)).1
    hphase).2.2.2.2 false hstatus hfinished
  exact ⟨s, hcurrent, hstatus, q, hq⟩

end Kernel

end Nachos
