import Nachos.Threads.Scheduler

/-!
# What a thread can be in the middle of

The lists of statements a thread can have left in the kernel are not arbitrary.  `Ok k level saved`
says that `k` can be executed from the interrupt level `level`, with the levels `saved` on the
stack: every statement that needs interrupts off finds them off, every `SetLevel(oldLevel)` finds
the level it restores, and what follows a statement fits it.  Two things about what follows matter
later:

* `phase` tells whether the thread is on its way into `Sleep`, inside it, or not in it at all;
* `Settled` code has none of the statements that interrupts are kept off for: going onto a waiting
  list, the `ReadyToRun` of `Fork`, the two statements before the loop of `Sleep`.

`WellFormed` says this of all threads; suspended ones are settled, not in `Sleep`, and will be
resumed with interrupts off.  It holds in every reachable state.
-/

namespace Nachos.Kernel

variable {τ σ μ κ ξ δ : Type} {k : List (Instr τ σ μ κ ξ)} {i : Instr τ σ μ κ ξ}
  {saved : List IntStatus} {due : List ξ} {timer : Bool} {P : Program τ σ μ κ ξ δ}

/-- The phase of a thread with `k` left to do.  A handler called by `Idle` runs on top of the loop
of `Sleep`. -/
def phase : List (Instr τ σ μ κ ξ) → Phase
  | .block :: _ => .parking
  | .sleep :: _ => .sleeping
  | .disable :: k => phase k
  | .restore :: k => phase k
  | .v _ :: k => phase k
  | .handle _ :: k => phase k
  | _ => .running

/-- Statements that are only reached, and passed, with interrupts off since the call. -/
def Instr.urgent : Instr τ σ μ κ ξ → Bool
  | .append _ => true
  | .ready _ => true
  | .destroy => true
  | .block => true
  | _ => false

/-- No urgent statement is left. -/
def Settled (k : List (Instr τ σ μ κ ξ)) : Prop := ∀ i ∈ k, i.urgent = false

/-- `k` can be executed from `level` with `saved` on the stack. -/
def Ok : List (Instr τ σ μ κ ξ) → IntStatus → List IntStatus → Prop
  | [], _, saved => saved = []
  | .disable :: k, level, saved => Ok k .intOff (level :: saved)
  | .restore :: k, _, saved => ∃ old rest, saved = old :: rest ∧
      (old = .intOn → phase k = .running ∧ Settled k) ∧ Ok k old rest
  | .returnWait _ :: k, _, saved => ∃ old rest, saved = old :: rest ∧
      (phase k = .running ∧ Settled k) ∧ Ok k old rest
  | .enable :: k, _, saved => (phase k = .running ∧ Settled k) ∧ Ok k .intOn saved
  | .off :: k, _, saved => phase k = .running ∧ Ok k .intOff saved
  | .handle _ :: k, level, saved => level = .intOff ∧ phase k ≠ .parking ∧ Ok k .intOff saved
  | .endTick :: k, _, saved => (phase k = .running ∧ Settled k) ∧ Ok k .intOn saved.tail
  | .v _ :: k, level, saved => level = .intOff ∧ phase k ≠ .parking ∧ Ok k .intOff saved
  | .assign _ :: k, level, saved => phase k = .running ∧ Ok k level saved
  | .release _ :: k, level, saved => phase k = .running ∧
      (level = .intOn → Settled k) ∧ Ok k level saved
  | .append _ :: k, level, saved => level = .intOff ∧ (phase k = .parking) ∧ Ok k .intOff saved
  | .destroy :: k, level, saved => level = .intOff ∧ (phase k = .parking) ∧ Ok k .intOff saved
  | .block :: k, level, saved => level = .intOff ∧ (phase k = .sleeping ∧ Settled k) ∧
      Ok k .intOff saved
  | .p _ :: k, level, saved | .sleep :: k, level, saved | .reap :: k, level, saved
  | .yield :: k, level, saved | .ready _ :: k, level, saved | .signal _ :: k, level, saved
  | .broadcast _ :: k, level, saved =>
      level = .intOff ∧ (phase k = .running ∧ Settled k) ∧ Ok k .intOff saved

/-! ### The bodies of the routines -/

@[simp] theorem settled_nil : Settled ([] : List (Instr τ σ μ κ ξ)) := by
  intro i hi
  cases hi

@[simp] theorem settled_cons : Settled (i :: k) ↔ i.urgent = false ∧ Settled k := List.forall_mem_cons

theorem phase_handle_append (due : List ξ) (k : List (Instr τ σ μ κ ξ)) :
    phase (due.map .handle ++ k) = phase k := by
  induction due with
  | nil => rfl
  | cons x due ih => exact ih

theorem phase_flatMap_append (vs : List σ) (k : List (Instr τ σ μ κ ξ)) :
    phase (vs.flatMap (fun x => Instr.semaphoreV (.inl x)) ++ k) = phase k := by
  induction vs with
  | nil => rfl
  | cons x vs ih => exact ih

theorem phase_oneTick_append (due : List ξ) (timer : Bool) (k : List (Instr τ σ μ κ ξ)) :
    phase (Instr.oneTick due timer ++ k) = .running := by
  unfold Instr.oneTick
  rw [List.cons_append, List.append_assoc]
  exact phase_handle_append due _

theorem ok_semaphoreV {x : σ ⊕ μ} {level : IntStatus} (hphase : phase k ≠ .parking)
    (hon : level = .intOn → phase k = .running ∧ Settled k) (h : Ok k level saved) :
    Ok (Instr.semaphoreV x ++ k) level saved :=
  ⟨rfl, hphase, level, saved, rfl, hon, h⟩

theorem ok_flatMap {vs : List σ} (hphase : phase k ≠ .parking) (h : Ok k .intOff saved) :
    Ok (vs.flatMap (fun x => Instr.semaphoreV (.inl x)) ++ k) .intOff saved := by
  induction vs with
  | nil => exact h
  | cons x vs ih =>
    rw [List.flatMap_cons, List.append_assoc]
    apply ok_semaphoreV _ _ ih
    · rwa [phase_flatMap_append]
    · intro hon
      cases hon

theorem ok_handle (hphase : phase k ≠ .parking) (h : Ok k .intOff saved) :
    Ok (due.map .handle ++ k) .intOff saved := by
  induction due with
  | nil => exact h
  | cons x due ih =>
    have hphase' : phase (due.map .handle ++ k) ≠ .parking := by rwa [phase_handle_append]
    exact ⟨rfl, hphase', ih⟩

theorem ok_oneTick {level : IntStatus} (hk : phase k = .running ∧ Settled k) (h : Ok k .intOn saved) :
    Ok (Instr.oneTick due timer ++ k) level saved := by
  unfold Instr.oneTick
  rw [List.cons_append, List.append_assoc]
  apply ok_handle
  · intro hphase
    cases hphase
  · cases timer with
    | false => exact ⟨hk, h⟩
    | true =>
      -- `Yield`, with the restoring of its level after it
      have hyield : Ok (Instr.restore :: k) .intOff (.intOn :: saved) :=
        ⟨.intOn, saved, rfl, fun _ => hk, h⟩
      refine ⟨⟨rfl, ?_⟩, rfl, ⟨hk.1, ?_⟩, hyield⟩ <;>
        simpa [Instr.threadYield, Instr.urgent] using hk.2

/-! ### The invariant -/

/-- The current thread is at a point that fits its level; the others can be resumed. -/
structure WellFormed (s : State τ σ μ κ ξ δ) : Prop where
  current : Ok s.code s.level (s.saved s.currentThread)
  other : ∀ t, t ≠ s.currentThread →
    Ok (s.kernel t) .intOff (s.saved t) ∧ phase (s.kernel t) = .running ∧ Settled (s.kernel t)

namespace WellFormed

variable [DecidableEq τ] {s s' : State τ σ μ κ ξ δ}

/-- A step in which the current thread moves on to `k`. -/
theorem move (h : WellFormed s) (hcurrent : s'.currentThread = s.currentThread)
    (hkernel : s'.kernel = Function.update s.kernel s.currentThread k)
    (hsaved : s'.saved = Function.update s.saved s.currentThread saved) (hok : Ok k s'.level saved) :
    WellFormed s' := by
  refine ⟨?_, ?_⟩
  · rw [State.code, hkernel, hsaved, hcurrent, Function.update_self, Function.update_self]
    exact hok
  · intro t ht
    rw [hcurrent] at ht
    rw [hkernel, hsaved, Function.update_of_ne ht, Function.update_of_ne ht]
    exact h.other t ht

/-- The same, with the stack of levels left alone. -/
theorem advance (h : WellFormed s) (hcurrent : s'.currentThread = s.currentThread)
    (hkernel : s'.kernel = Function.update s.kernel s.currentThread k) (hsaved : s'.saved = s.saved)
    (hok : Ok k s'.level (s.saved s.currentThread)) : WellFormed s' :=
  h.move hcurrent hkernel (hsaved.trans (Function.update_eq_self _ _).symm) hok

/-- `SWITCH`: the current thread leaves `reap :: k` for later, and `next` is resumed. -/
theorem switch (h : WellFormed s)
    (hkernel : s'.kernel = Function.update s.kernel s.currentThread (.reap :: k))
    (hsaved : s'.saved = s.saved) (hlevel : s'.level = .intOff)
    (hk : phase k = .running ∧ Settled k) (hok : Ok k .intOff (s.saved s.currentThread)) :
    WellFormed s' := by
  -- every thread, the old one included, can now be resumed
  have hall : ∀ t, Ok (s'.kernel t) .intOff (s'.saved t) ∧ phase (s'.kernel t) = .running ∧
      Settled (s'.kernel t) := by
    intro t
    rw [hkernel, hsaved]
    by_cases ht : t = s.currentThread
    · subst ht
      rw [Function.update_self]
      exact ⟨⟨rfl, hk, hok⟩, rfl, settled_cons.2 ⟨rfl, hk.2⟩⟩
    · rw [Function.update_of_ne ht]
      exact h.other t ht
  refine ⟨?_, fun t _ => hall t⟩
  rw [hlevel]
  exact (hall _).1

theorem setOldLevel {old : IntStatus} {rest : List IntStatus} (h : WellFormed s)
    (hsaved : s.saved s.currentThread = old :: rest)
    (hon : old = .intOn → phase k = .running ∧ Settled k) (hok : Ok k old rest)
    (hs' : s.setOldLevel due timer k = some s') : WellFormed s' := by
  rw [State.setOldLevel, hsaved, Option.some.injEq] at hs'
  subst hs'
  refine h.move rfl rfl rfl ?_
  show Ok _ old rest
  split_ifs with htick
  · obtain ⟨rfl, -⟩ := htick
    exact ok_oneTick (hon rfl) hok
  · exact hok

theorem handle {x : ξ} {vs : List σ} {d : δ} (h : WellFormed s) (hcode : s.code = .handle x :: k) :
    WellFormed { s.goto (vs.flatMap (fun x => Instr.semaphoreV (.inl x)) ++ k) with data := d } := by
  have hok := h.current
  rw [hcode] at hok
  obtain ⟨hlevel, hphase, hok⟩ := hok
  refine h.advance rfl rfl rfl ?_
  show Ok _ s.level _
  rw [hlevel]
  exact ok_flatMap hphase hok

theorem call {op : Op τ σ μ κ ξ} (h : WellFormed s) (hcode : s.code = []) :
    WellFormed (s.call due timer op) := by
  have hok := h.current
  rw [hcode] at hok
  have hsaved : s.saved s.currentThread = [] := hok
  -- a routine called from the thread's own code
  have hcall : ∀ k, Ok k s.level [] → WellFormed (s.goto k) := by
    intro k hk
    rw [← hsaved] at hk
    exact h.advance rfl rfl rfl hk
  cases op with
  | p x => exact hcall _ (by simp [Instr.semaphoreP, Ok, phase, Instr.urgent])
  | v x => exact hcall _ (by simp [Instr.semaphoreV, Ok, phase])
  | acquire l => exact hcall _ (by simp [Instr.lockAcquire, Instr.semaphoreP, Ok, phase, Instr.urgent])
  | release l => exact hcall _ (by simp [Ok, phase])
  | wait c l =>
    exact hcall _ (by simp [Instr.conditionWait, Instr.threadSleep, Instr.lockAcquire,
      Instr.semaphoreP, Ok, phase, Instr.urgent])
  | signal c => exact hcall _ (by simp [Instr.conditionSignal, Ok, phase, Instr.urgent])
  | broadcast c => exact hcall _ (by simp [Instr.conditionBroadcast, Ok, phase, Instr.urgent])
  | yield => exact hcall _ (by simp [Instr.threadYield, Ok, phase, Instr.urgent])
  | create t => exact ⟨h.current, h.other⟩
  | fork t func =>
    refine ⟨?_, ?_⟩
    · have hnone : Function.update s.saved t [] s.currentThread = [] := by
        rw [Function.update_apply, hsaved, ite_self]
      simp [State.call, State.stackAllocate, State.goto, State.code, hnone, Instr.threadFork, Ok,
        phase, Instr.urgent]
    · intro u hu
      have hu' : u ≠ s.currentThread := hu
      simp only [State.call, State.stackAllocate, State.goto, Function.update_of_ne hu']
      by_cases hut : u = t
      · subst hut
        simp [Ok, phase, Instr.urgent]
      · rw [Function.update_of_ne hut, Function.update_of_ne hut]
        exact h.other u hu'
  | finish => exact hcall _ (by simp [Instr.threadFinish, Instr.threadSleep, Ok, phase, Instr.urgent])
  | oneTick =>
    have htick : Ok (Instr.oneTick due timer ++ []) s.level [] :=
      ok_oneTick ⟨rfl, settled_nil⟩ (show Ok (τ := τ) (σ := σ) (μ := μ) (κ := κ) [] _ [] from rfl)
    rw [List.append_nil] at htick
    exact hcall _ htick
  | own x => exact h

theorem start {main : τ} {func : ξ} {initialValue : σ → ℤ} {d : δ} :
    WellFormed (start main func initialValue d : State τ σ μ κ ξ δ) := by
  refine ⟨?_, ?_⟩
  · simp [Kernel.start, State.code, Ok, phase]
  · intro t ht
    have ht' : t ≠ main := ht
    simp [Kernel.start, Function.update_of_ne ht', Ok, phase]

variable [DecidableEq σ] [DecidableEq μ] [DecidableEq κ]

theorem exec (h : WellFormed s) (hcode : s.code = i :: k) (hexec : s.exec due timer k i = some s') :
    WellFormed s' := by
  have hok := h.current
  rw [hcode] at hok
  cases i with
  | disable =>
    cases hexec
    exact h.move rfl rfl rfl hok
  | restore =>
    obtain ⟨old, rest, hsaved, hon, hk⟩ := hok
    exact h.setOldLevel hsaved hon hk hexec
  | returnWait c =>
    obtain ⟨old, rest, hsaved, hk, hok⟩ := hok
    exact h.setOldLevel hsaved (fun _ => hk) hok hexec
  | enable =>
    cases hexec
    refine h.advance rfl rfl rfl ?_
    show Ok _ .intOn _
    split_ifs with htick
    · exact ok_oneTick hok.1 hok.2
    · exact hok.2
  | off =>
    cases hexec
    exact h.advance rfl rfl rfl hok.2
  | handle x => cases hexec
  | endTick =>
    cases hexec
    exact h.move rfl rfl rfl hok.2
  | p x =>
    obtain ⟨hlevel, hk, hok⟩ := hok
    cases hexec
    refine h.advance rfl rfl rfl ?_
    show Ok _ s.level _
    rw [hlevel]
    split_ifs
    · exact hok
    -- asleep, then back to the test
    · have hp : Settled (.p x :: k) := settled_cons.2 ⟨rfl, hk.2⟩
      exact ⟨rfl, ⟨rfl, settled_cons.2 ⟨rfl, hp⟩⟩, rfl, ⟨rfl, hp⟩, rfl, hk, hok⟩
  | v x =>
    obtain ⟨hlevel, -, hok⟩ := hok
    cases hexec
    unfold State.semV
    split <;> exact h.advance rfl rfl rfl (by simpa [State.goto, State.readyToRun, hlevel] using hok)
  | assign l =>
    cases hexec
    exact h.advance rfl rfl rfl hok.2
  | release l =>
    obtain ⟨hphase, hon, hok⟩ := hok
    cases hexec
    split_ifs
    · refine h.advance rfl rfl rfl (ok_semaphoreV ?_ (fun hlevel => ⟨hphase, hon hlevel⟩) hok)
      rw [hphase]
      decide
    · exact h.advance rfl rfl rfl hok
  | append c =>
    obtain ⟨hlevel, hk, hok⟩ := hok
    cases hexec
    exact h.advance rfl rfl rfl (by simpa [State.goto, State.doAppend, hlevel] using hok)
  | signal c =>
    obtain ⟨hlevel, hk, hok⟩ := hok
    cases hexec
    unfold State.doSignal
    split <;> exact h.advance rfl rfl rfl (by simpa [State.goto, State.readyToRun, hlevel] using hok)
  | broadcast c =>
    obtain ⟨hlevel, hk, hok⟩ := hok
    cases hexec
    refine h.advance rfl rfl rfl ?_
    show Ok _ s.level _
    rw [hlevel]
    split_ifs
    · exact hok
    -- a `Signal`, then back to the test
    · have hbroadcast : Settled (.broadcast c :: k) := settled_cons.2 ⟨rfl, hk.2⟩
      exact ⟨rfl, ⟨rfl, settled_cons.2 ⟨rfl, hbroadcast⟩⟩, .intOff, _, rfl,
        fun _ => ⟨rfl, hbroadcast⟩, rfl, hk, hok⟩
  | block =>
    obtain ⟨hlevel, hk, hok⟩ := hok
    rw [State.exec, if_pos hlevel] at hexec
    cases hexec
    exact h.advance rfl rfl rfl (by simpa [State.goto, hlevel] using hok)
  | sleep =>
    obtain ⟨hlevel, hk, hok⟩ := hok
    cases hexec
    unfold State.doSleep
    split
    · refine h.advance rfl rfl rfl ?_
      show Ok _ s.level _
      rw [hlevel]
      exact ok_handle (by simp [phase]) ⟨rfl, hk, hok⟩
    · exact h.switch rfl rfl hlevel hk hok
  | reap =>
    obtain ⟨hlevel, hk, hok⟩ := hok
    cases hexec
    unfold State.doReap
    split <;> exact h.advance rfl rfl rfl (by simpa [State.goto, hlevel] using hok)
  | yield =>
    obtain ⟨hlevel, hk, hok⟩ := hok
    cases hexec
    unfold State.doYield
    split
    · exact h.advance rfl rfl rfl (by simpa [State.goto, hlevel] using hok)
    · exact h.switch rfl rfl hlevel hk hok
  | ready t =>
    obtain ⟨hlevel, hk, hok⟩ := hok
    cases hexec
    exact h.advance rfl rfl rfl (by simpa [State.goto, State.readyToRun, hlevel] using hok)
  | destroy =>
    obtain ⟨hlevel, hk, hok⟩ := hok
    cases hexec
    exact h.advance rfl rfl rfl (by simpa [State.goto, hlevel] using hok)

theorem step (h : WellFormed s) (hstep : Step P s s') : WellFormed s' := by
  cases hstep with
  | exec hcode hexec => exact h.exec hcode hexec
  | handle hcode _ => exact h.handle hcode
  | own _ _ _ => exact ⟨h.current, h.other⟩
  | @call _ ops _ _ hcode _ _ =>
    have h' : WellFormed (s.proceed ops) := ⟨h.current, h.other⟩
    exact h'.call hcode

end WellFormed

variable [DecidableEq τ] [DecidableEq σ] [DecidableEq μ] [DecidableEq κ]

/-! ### What a statement changes -/

/-- Statements that change the interrupt level. -/
def Instr.setsLevel : Instr τ σ μ κ ξ → Bool
  | .disable => true
  | .restore => true
  | .returnWait _ => true
  | .enable => true
  | .off => true
  | .endTick => true
  | _ => false

/-- What the statement `i` leaves alone. -/
structure Footprint (i : Instr τ σ μ κ ξ) (s s' : State τ σ μ κ ξ δ) : Prop where
  program : s'.program = s.program
  data : s'.data = s.data
  level : i.setsLevel = false → s'.level = s.level
  currentThread : i ≠ .sleep → i ≠ .yield → s'.currentThread = s.currentThread
  semaphore : (∀ x, i ≠ .p x ∧ i ≠ .v x) → s'.semaphore = s.semaphore
  heldthread : (∀ l, i ≠ .assign l ∧ i ≠ .release l) → s'.heldthread = s.heldthread
  waiting : (∀ c, i ≠ .append c ∧ i ≠ .signal c) → s'.waitinglist = s.waitinglist ∧
    s'.arrived = s.arrived ∧ s'.woken = s.woken ∧ s'.chosen = s.chosen
  ledger : i ≠ .reap → i ≠ .destroy → s'.threadToBeDestroyed = s.threadToBeDestroyed ∧
    s'.globalThreadManager = s.globalThreadManager ∧ s'.created = s.created ∧
    s'.finished = s.finished ∧ s'.deleted = s.deleted

omit [DecidableEq τ] [DecidableEq σ] [DecidableEq μ] [DecidableEq κ] in
/-- A statement that only changes what is left to do, the level and the list of ready threads. -/
theorem Footprint.of_eq {s s' : State τ σ μ κ ξ δ}
    (hrest : s' = { s with
      level := s'.level, currentThread := s'.currentThread, status := s'.status,
      readyList := s'.readyList, kernel := s'.kernel, saved := s'.saved })
    (hlevel : i.setsLevel = false → s'.level = s.level)
    (hcurrent : i ≠ .sleep → i ≠ .yield → s'.currentThread = s.currentThread) : Footprint i s s' := by
  refine ⟨?_, ?_, hlevel, hcurrent, fun _ => ?_, fun _ => ?_, fun _ => ?_, fun _ _ => ?_⟩ <;>
    rw [hrest]
  · exact ⟨rfl, rfl, rfl, rfl⟩
  · exact ⟨rfl, rfl, rfl, rfl, rfl⟩

theorem exec_footprint {s s' : State τ σ μ κ ξ δ} (hexec : s.exec due timer k i = some s') :
    Footprint i s s' := by
  have hold : i.setsLevel = true → s.setOldLevel due timer k = some s' → Footprint i s s' := by
    intro hi hs'
    unfold State.setOldLevel at hs'
    split at hs' <;> cases hs'
    exact .of_eq rfl (fun h => by simp [hi] at h) fun _ _ => rfl
  cases i with
  | disable =>
    cases hexec
    exact .of_eq rfl nofun fun _ _ => rfl
  | restore => exact hold rfl hexec
  | returnWait c => exact hold rfl hexec
  | enable =>
    cases hexec
    exact .of_eq rfl nofun fun _ _ => rfl
  | off =>
    cases hexec
    exact .of_eq rfl nofun fun _ _ => rfl
  | endTick =>
    cases hexec
    exact .of_eq rfl nofun fun _ _ => rfl
  | handle x => cases hexec
  | broadcast c =>
    cases hexec
    exact .of_eq rfl (fun _ => rfl) fun _ _ => rfl
  | ready t =>
    cases hexec
    exact .of_eq rfl (fun _ => rfl) fun _ _ => rfl
  | block =>
    unfold State.exec at hexec
    split_ifs at hexec
    cases hexec
    exact .of_eq rfl (fun _ => rfl) fun _ _ => rfl
  | sleep =>
    cases hexec
    unfold State.doSleep
    split <;> exact .of_eq rfl (fun _ => rfl) fun h => absurd rfl h
  | yield =>
    cases hexec
    unfold State.doYield
    split <;> exact .of_eq rfl (fun _ => rfl) fun _ h => absurd rfl h
  | p x =>
    cases hexec
    exact ⟨rfl, rfl, fun _ => rfl, fun _ _ => rfl, fun h => absurd rfl (h x).1, fun _ => rfl,
      fun _ => ⟨rfl, rfl, rfl, rfl⟩, fun _ _ => ⟨rfl, rfl, rfl, rfl, rfl⟩⟩
  | v x =>
    cases hexec
    unfold State.semV
    split <;> exact ⟨rfl, rfl, fun _ => rfl, fun _ _ => rfl, fun h => absurd rfl (h x).2,
      fun _ => rfl, fun _ => ⟨rfl, rfl, rfl, rfl⟩, fun _ _ => ⟨rfl, rfl, rfl, rfl, rfl⟩⟩
  | assign l =>
    cases hexec
    exact ⟨rfl, rfl, fun _ => rfl, fun _ _ => rfl, fun _ => rfl, fun h => absurd rfl (h l).1,
      fun _ => ⟨rfl, rfl, rfl, rfl⟩, fun _ _ => ⟨rfl, rfl, rfl, rfl, rfl⟩⟩
  | release l =>
    cases hexec
    split_ifs <;> exact ⟨rfl, rfl, fun _ => rfl, fun _ _ => rfl, fun _ => rfl,
      fun h => absurd rfl (h l).2, fun _ => ⟨rfl, rfl, rfl, rfl⟩,
      fun _ _ => ⟨rfl, rfl, rfl, rfl, rfl⟩⟩
  | append c =>
    cases hexec
    exact ⟨rfl, rfl, fun _ => rfl, fun _ _ => rfl, fun _ => rfl, fun _ => rfl,
      fun h => absurd rfl (h c).1, fun _ _ => ⟨rfl, rfl, rfl, rfl, rfl⟩⟩
  | signal c =>
    cases hexec
    unfold State.doSignal
    split <;> exact ⟨rfl, rfl, fun _ => rfl, fun _ _ => rfl, fun _ => rfl, fun _ => rfl,
      fun h => absurd rfl (h c).2, fun _ _ => ⟨rfl, rfl, rfl, rfl, rfl⟩⟩
  | reap =>
    cases hexec
    unfold State.doReap
    split <;> exact ⟨rfl, rfl, fun _ => rfl, fun _ _ => rfl, fun _ => rfl, fun _ => rfl,
      fun _ => ⟨rfl, rfl, rfl, rfl⟩, fun h => absurd rfl h⟩
  | destroy =>
    cases hexec
    exact ⟨rfl, rfl, fun _ => rfl, fun _ _ => rfl, fun _ => rfl, fun _ => rfl,
      fun _ => ⟨rfl, rfl, rfl, rfl⟩, fun _ h => absurd rfl h⟩

omit [DecidableEq κ] in
/-- What `V` changes but for the thread it makes ready. -/
theorem semV_frame (s : State τ σ μ κ ξ δ) (x : σ ⊕ μ) :
    (s.semV x).semaphore = Function.update s.semaphore x (s.semaphore x).v.1 ∧
      (s.semV x).kernel = s.kernel ∧ (s.semV x).currentThread = s.currentThread ∧
      (s.semV x).heldthread = s.heldthread := by
  unfold State.semV
  split
  · rename_i y t hv
    rw [hv]
    exact ⟨rfl, rfl, rfl, rfl⟩
  · rename_i y hv
    rw [hv]
    exact ⟨rfl, rfl, rfl, rfl⟩

omit [DecidableEq κ] in
/-- One round of the loop of `P`. -/
theorem semP_kernel (s : State τ σ μ κ ξ δ) (x : σ ⊕ μ) (k : List (Instr τ σ μ κ ξ)) :
    (s.semP x k).kernel s.currentThread =
      if (s.semaphore x).value = 0 then Instr.threadSleep ++ .p x :: k else k := by
  unfold State.semP
  by_cases hvalue : (s.semaphore x).value = 0
  · rw [Semaphore.p_of_eq_zero _ hvalue, if_pos hvalue]
    exact Function.update_self _ _ _
  · rw [Semaphore.p_of_ne_zero _ hvalue, if_neg hvalue]
    exact Function.update_self _ _ _

/-- Only `Wait` and `Signal` on a condition change its waiting list. -/
theorem waitinglist_exec {s s' : State τ σ μ κ ξ δ} {c : κ} (hexec : s.exec due timer k i = some s')
    (happend : i ≠ .append c) (hsignal : i ≠ .signal c) : s'.waitinglist c = s.waitinglist c := by
  cases i with
  | append c' =>
    cases hexec
    have hc : c ≠ c' := fun heq => happend (heq ▸ rfl)
    exact Function.update_of_ne hc _ _
  | signal c' =>
    cases hexec
    have hc : c ≠ c' := fun heq => hsignal (heq ▸ rfl)
    unfold State.doSignal
    split
    · rfl
    · exact Function.update_of_ne hc _ _
  | _ => exact congrFun ((exec_footprint hexec).waiting fun _ => ⟨nofun, nofun⟩).1 c

/-- Only `Acquire` and `Release` of a lock change its holder. -/
theorem heldthread_exec {s s' : State τ σ μ κ ξ δ} {l : μ} (hexec : s.exec due timer k i = some s')
    (hassign : i ≠ .assign l) (hrelease : i ≠ .release l) : s'.heldthread l = s.heldthread l := by
  cases i with
  | assign l' =>
    cases hexec
    have hl : l ≠ l' := fun heq => hassign (heq ▸ rfl)
    exact Function.update_of_ne hl _ _
  | release l' =>
    cases hexec
    have hl : l ≠ l' := fun heq => hrelease (heq ▸ rfl)
    split_ifs
    · exact Function.update_of_ne hl _ _
    · rfl
  | _ => exact congrFun ((exec_footprint hexec).heldthread fun _ => ⟨nofun, nofun⟩) l

/-- What a statement may put in front of the statements after it. -/
def Instr.front (due : List ξ) (timer : Bool) : Instr τ σ μ κ ξ → List (List (Instr τ σ μ κ ξ))
  | .restore => [[], oneTick due timer]
  | .returnWait _ => [[], oneTick due timer]
  | .enable => [[], oneTick due timer]
  | .p x => [[], threadSleep ++ [.p x]]
  | .release l => [[], semaphoreV (.inr l)]
  | .broadcast c => [[], conditionSignal c ++ [.broadcast c]]
  | .sleep => [due.map .handle ++ [.sleep], [.reap]]
  | .yield => [[], [.reap]]
  | _ => [[]]

theorem exec_front {s s' : State τ σ μ κ ξ δ} (hexec : s.exec due timer k i = some s') :
    ∃ k₀ ∈ i.front due timer, s'.kernel = Function.update s.kernel s.currentThread (k₀ ++ k) := by
  have hlevel : ∀ now, ∃ k₀ ∈ [[], (Instr.oneTick due timer : List (Instr τ σ μ κ ξ))],
      (s.setLevel now due timer k).kernel = Function.update s.kernel s.currentThread (k₀ ++ k) := by
    intro now
    unfold State.setLevel
    split_ifs
    · exact ⟨_, by simp, rfl⟩
    · exact ⟨[], by simp, rfl⟩
  have hold : ∀ s', s.setOldLevel due timer k = some s' →
      ∃ k₀ ∈ [[], (Instr.oneTick due timer : List (Instr τ σ μ κ ξ))],
        s'.kernel = Function.update s.kernel s.currentThread (k₀ ++ k) := by
    intro s' hs'
    unfold State.setOldLevel at hs'
    split at hs' <;> cases hs'
    exact hlevel _
  cases i with
  | restore => exact hold s' hexec
  | returnWait c => exact hold s' hexec
  | enable =>
    cases hexec
    exact hlevel _
  | handle x => cases hexec
  | p x =>
    cases hexec
    unfold State.semP
    split_ifs
    · exact ⟨[], by simp [Instr.front], rfl⟩
    · exact ⟨Instr.threadSleep ++ [.p x], by simp [Instr.front], rfl⟩
  | v x =>
    cases hexec
    refine ⟨[], by simp [Instr.front], ?_⟩
    unfold State.semV
    split <;> rfl
  | release l =>
    cases hexec
    split_ifs
    · exact ⟨_, List.mem_cons_of_mem _ (List.mem_singleton_self _), rfl⟩
    · exact ⟨[], by simp [Instr.front], rfl⟩
  | signal c =>
    cases hexec
    refine ⟨[], by simp [Instr.front], ?_⟩
    unfold State.doSignal
    split <;> rfl
  | broadcast c =>
    cases hexec
    split_ifs
    · exact ⟨[], by simp [Instr.front], rfl⟩
    · exact ⟨_, List.mem_cons_of_mem _ (List.mem_singleton_self _), rfl⟩
  | block =>
    unfold State.exec at hexec
    split_ifs at hexec
    cases hexec
    exact ⟨[], by simp [Instr.front], rfl⟩
  | sleep =>
    cases hexec
    unfold State.doSleep
    split
    · exact ⟨_, List.mem_cons_self, by rw [List.append_assoc]; rfl⟩
    · exact ⟨[.reap], by simp [Instr.front], rfl⟩
  | yield =>
    cases hexec
    unfold State.doYield
    split
    · exact ⟨[], by simp [Instr.front], rfl⟩
    · exact ⟨[.reap], by simp [Instr.front], rfl⟩
  | reap =>
    cases hexec
    refine ⟨[], by simp [Instr.front], ?_⟩
    unfold State.doReap
    split <;> rfl
  | _ =>
    cases hexec
    exact ⟨[], by simp [Instr.front], rfl⟩

/-- Statements that stand in a routine because of its call, and never come back once executed. -/
def Instr.called : Instr τ σ μ κ ξ → Bool
  | .enable => true
  | .off => true
  | .assign _ => true
  | .release _ => true
  | .append _ => true
  | .returnWait _ => true
  | .ready _ => true
  | .destroy => true
  | _ => false

section

omit [DecidableEq τ] [DecidableEq σ] [DecidableEq μ] [DecidableEq κ]

/-- What holds of every statement that can be put in front of others. -/
theorem forall_mem_front {Q : Instr τ σ μ κ ξ → Prop} {k₀ : List (Instr τ σ μ κ ξ)}
    (hk₀ : k₀ ∈ i.front due timer) (hdisable : Q .disable) (hrestore : Q .restore)
    (hhandle : ∀ x, Q (.handle x)) (hend : Q .endTick) (hyield : Q .yield) (hblock : Q .block)
    (hsleep : Q .sleep) (hreap : Q .reap) (hp : ∀ x, i = .p x → Q (.p x))
    (hv : ∀ l, i = .release l → Q (.v (.inr l))) (hsignal : ∀ c, i = .broadcast c → Q (.signal c))
    (hbroadcast : ∀ c, i = .broadcast c → Q (.broadcast c)) : ∀ j ∈ k₀, Q j := by
  have hdue : ∀ j ∈ due.map Instr.handle, Q j := by
    intro j hj
    obtain ⟨x, -, rfl⟩ := List.mem_map.1 hj
    exact hhandle x
  have htick : ∀ k₀ ∈ [[], Instr.oneTick due timer], ∀ j ∈ k₀, Q j := by
    intro k₀ hk₀
    rw [List.mem_pair] at hk₀
    rcases hk₀ with rfl | rfl
    · simp
    · unfold Instr.oneTick
      rw [List.forall_mem_cons, List.forall_mem_append, List.forall_mem_cons]
      refine ⟨hdisable, hdue, hend, ?_⟩
      cases timer
      · simp
      · simp [Instr.threadYield, hdisable, hyield, hrestore]
  cases i with
  | restore => exact htick k₀ hk₀
  | returnWait c => exact htick k₀ hk₀
  | enable => exact htick k₀ hk₀
  | sleep =>
    rw [Instr.front, List.mem_pair] at hk₀
    rcases hk₀ with rfl | rfl
    · rw [List.forall_mem_append]
      exact ⟨hdue, by simpa using hsleep⟩
    · simpa using hreap
  | p x =>
    rw [Instr.front, List.mem_pair] at hk₀
    rcases hk₀ with rfl | rfl
    · simp
    · simp [Instr.threadSleep, hblock, hsleep, hp x rfl]
  | release l =>
    rw [Instr.front, List.mem_pair] at hk₀
    rcases hk₀ with rfl | rfl
    · simp
    · simp [Instr.semaphoreV, hdisable, hrestore, hv l rfl]
  | broadcast c =>
    rw [Instr.front, List.mem_pair] at hk₀
    rcases hk₀ with rfl | rfl
    · simp
    · simp [Instr.conditionSignal, hdisable, hrestore, hsignal c rfl, hbroadcast c rfl]
  | yield =>
    rw [Instr.front, List.mem_pair] at hk₀
    rcases hk₀ with rfl | rfl
    · simp
    · simpa using hreap
  | _ =>
    obtain rfl := List.mem_singleton.1 hk₀
    simp

theorem oneTick_mem_front (due : List ξ) (timer : Bool) :
    Instr.oneTick due timer ∈ (.enable : Instr τ σ μ κ ξ).front due timer :=
  List.mem_cons_of_mem _ (List.mem_singleton_self _)

/-- What holds of every statement of the `V`s that a handler calls. -/
theorem forall_mem_flatMap {Q : Instr τ σ μ κ ξ → Prop} {vs : List σ} (hdisable : Q .disable)
    (hv : ∀ x, Q (.v (.inl x))) (hrestore : Q .restore) :
    ∀ j ∈ vs.flatMap (fun x => Instr.semaphoreV (.inl x)), Q j := by
  intro j hj
  obtain ⟨x, -, hx⟩ := List.mem_flatMap.1 hj
  simp only [Instr.semaphoreV, List.mem_cons, List.not_mem_nil, or_false] at hx
  rcases hx with rfl | rfl | rfl
  · exact hdisable
  · exact hv x
  · exact hrestore

/-- No `called` statement is put in front. -/
theorem called_front {k₀ : List (Instr τ σ μ κ ξ)} (hk₀ : k₀ ∈ i.front due timer) :
    ∀ j ∈ k₀, j.called = false :=
  forall_mem_front hk₀ rfl rfl (fun _ => rfl) rfl rfl rfl rfl rfl (fun _ _ => rfl) (fun _ _ => rfl)
    (fun _ _ => rfl) fun _ _ => rfl

theorem mem_append_of_called {j : Instr τ σ μ κ ξ} {k₀ k : List (Instr τ σ μ κ ξ)}
    (hj : j.called = true) (hk₀ : ∀ i ∈ k₀, i.called = false) : j ∈ k₀ ++ k ↔ j ∈ k := by
  rw [List.mem_append, or_iff_right]
  intro hmem
  rw [hk₀ j hmem] at hj
  cases hj

end

/-- The `called` statements a thread has left after a statement of the current thread. -/
theorem mem_kernel_exec {s s' : State τ σ μ κ ξ δ} {i j : Instr τ σ μ κ ξ}
    (hexec : s.exec due timer k i = some s') (hj : j.called = true) (t : τ) :
    j ∈ s'.kernel t ↔ if t = s.currentThread then j ∈ k else j ∈ s.kernel t := by
  obtain ⟨k₀, hk₀, hkernel⟩ := exec_front hexec
  rw [hkernel, Function.update_apply]
  split_ifs
  · exact mem_append_of_called hj (called_front hk₀)
  · exact Iff.rfl

/-- The routine a call enters. -/
def Op.routine (due : List ξ) (timer : Bool) : Op τ σ μ κ ξ → List (Instr τ σ μ κ ξ)
  | .p x => Instr.semaphoreP (.inl x)
  | .v x => Instr.semaphoreV (.inl x)
  | .acquire l => Instr.lockAcquire l
  | .release l => [.release l]
  | .wait c l => Instr.conditionWait c l
  | .signal c => Instr.conditionSignal c
  | .broadcast c => Instr.conditionBroadcast c
  | .yield => Instr.threadYield
  | .create _ => []
  | .fork t _ => Instr.threadFork t
  | .finish => Instr.threadFinish
  | .oneTick => Instr.oneTick due timer
  | .own _ => []

section

omit [DecidableEq σ] [DecidableEq μ] [DecidableEq κ]

variable {s : State τ σ μ κ ξ δ} {op : Op τ σ μ κ ξ}

theorem call_kernel_self (hcode : s.code = []) :
    (s.call due timer op).kernel s.currentThread = op.routine due timer := by
  cases op with
  | create t => exact hcode
  | own x => exact hcode
  | _ => exact Function.update_self _ _ _

theorem call_kernel_of_ne {t : τ} (ht : t ≠ s.currentThread) (hfork : ∀ func, op ≠ .fork t func) :
    (s.call due timer op).kernel t = s.kernel t := by
  cases op with
  | create t => rfl
  | own x => rfl
  | fork u func =>
    have hut : t ≠ u := fun heq => hfork func (heq ▸ rfl)
    exact (Function.update_of_ne ht _ _).trans (Function.update_of_ne hut _ _)
  | _ => exact Function.update_of_ne ht _ _

theorem call_program (hfork : ∀ t func, op ≠ .fork t func) :
    (s.call due timer op).program = s.program := by
  cases op with
  | fork t func => exact absurd rfl (hfork t func)
  | _ => rfl

theorem call_frame (s : State τ σ μ κ ξ δ) (due : List ξ) (timer : Bool) (op : Op τ σ μ κ ξ) :
    (s.call due timer op).heldthread = s.heldthread ∧
      (s.call due timer op).waitinglist = s.waitinglist ∧ (s.call due timer op).data = s.data := by
  cases op <;> exact ⟨rfl, rfl, rfl⟩

end

theorem Step.of_next {body : ξ → δ → Option (δ × List (Op τ σ μ κ ξ))}
    (hbody : ∀ t x d d' ops, body x d = some (d', ops) → P.exec t x d d' ops)
    {s s' : State τ σ μ κ ξ δ} (h : s.next body = some s') : Step P s s' := by
  unfold State.next at h
  split at h
  · rename_i i k hcode
    exact .exec hcode h
  · rename_i hcode
    split at h
    · cases h
    · rename_i x ops hprogram
      obtain ⟨⟨d, more⟩, hmore, rfl⟩ := Option.map_eq_some_iff.1 h
      exact .own hcode hprogram (hbody _ x _ d more hmore)
    · rename_i op ops hop hprogram
      cases h
      exact .call hcode hprogram (fun x hx => hop x hx)

/-- What the processor, left alone by the devices, reaches in `n` steps that all meet `G`. -/
theorem reachable_of_iterate {body : ξ → δ → Option (δ × List (Op τ σ μ κ ξ))}
    (hbody : ∀ t x d d' ops, body x d = some (d', ops) → P.exec t x d d' ops) {main : τ} {func : ξ}
    {initialValue : σ → ℤ} {d : δ} (G : State τ σ μ κ ξ δ → Prop) [DecidablePred G] (n : ℕ)
    {s : State τ σ μ κ ξ δ}
    (h : (fun o => o.bind fun s => if G s then s.next body else none)^[n]
      (some (start main func initialValue d)) = some s) :
    ((system P main func initialValue d).restrict fun s _ => G s).Reachable s := by
  apply Transition.System.Reachable.iterate _ n (Transition.System.Reachable.of_init rfl) h
  intro s s' hnext
  split_ifs at hnext with hG
  exact ⟨(), hG, Step.of_next hbody hnext⟩

end Nachos.Kernel
