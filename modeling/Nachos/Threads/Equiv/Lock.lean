import Nachos.Threads.Lock
import Nachos.Threads.Equiv.Semaphore

/-!
## Mutual exclusion of `Lock`

In every reachable state the lock is either free (`Free`: nobody inside, value `1`, no recorded
holder) or owned by one thread (`OwnedBy t`: exactly `t` inside, value `0`).  `heldthread` lags
behind ownership in two windows, after the `P` of `Acquire` and before the `V` of `Release`; there
it is `NULL`, so a `Release` by anybody else fails its test in them as everywhere else.  Everything
a thread outside can do is harmless for that one reason.

* `Inv.tryP`, `Inv.assign`, `Inv.callRelease`, `Inv.clear`, `Inv.doV`: one lemma for each step;
* `lock_mutual_exclusion`: what holds in every reachable state.
-/

namespace Nachos.Lock

open Control Semaphore

variable {τ : Type}

/-- The points only the owner can stand at. -/
def Point.Critical (p : Point) : Prop := p = .acquired ∨ p = .releasing ∨ p = .released

instance (p : Point) : Decidable p.Critical := inferInstanceAs (Decidable (_ ∨ _ ∨ _))

/-- Nobody is inside. -/
structure State.Free (s : State τ) : Prop where
  inside : s.inside = ∅
  value : s.lock.lock.value = 1
  held : s.lock.heldthread = none
  others : ∀ u, ¬ (s.point u).Critical

/-- Exactly `t` is inside.  `heldthread` names it outside the two windows. -/
structure State.OwnedBy (s : State τ) (t : τ) : Prop where
  inside : s.inside = {t}
  value : s.lock.lock.value = 0
  held : s.lock.heldthread = if s.point t = .acquired ∨ s.point t = .released then none else some t
  others : ∀ u, u ≠ t → ¬ (s.point u).Critical

variable [Fintype τ]

/-- The lock is free or has one owner, and the queue of its semaphore is in order. -/
structure State.Inv (s : State τ) : Prop where
  wait : WaitInv s.lock.lock (procs (· = Point.asleep) s.point) (procs (· = Point.woken) s.point)
  owner : s.Free ∨ ∃ t, s.OwnedBy t

namespace State.Inv

variable {s : State τ} {t : τ}

/-- The holder on record is the owner. -/
theorem ownedBy_of_held (h : s.Inv) (ht : s.lock.heldthread = some t) : s.OwnedBy t := by
  rcases h.owner with hf | ⟨u, hu⟩
  · rw [hf.held] at ht
    cases ht
  · have hheld := hu.held
    split_ifs at hheld with hw
    · rw [hheld] at ht
      cases ht
    · rw [hheld] at ht
      obtain rfl := Option.some.inj ht
      exact hu

variable [DecidableEq τ]

/-- A thread at a critical point is the owner. -/
theorem ownedBy_of_critical (h : s.Inv) (ht : (s.point t).Critical) : s.OwnedBy t := by
  rcases h.owner with hf | ⟨u, hu⟩
  · exact absurd ht (hf.others t)
  · by_cases htu : t = u
    · rw [htu]; exact hu
    · exact absurd ht (hu.others t htu)

/-- Leaving the wait queue alone, a step that moves `t` between points outside `P` keeps it in
order. -/
theorem wait_update (h : s.Inv) (ha : s.point t ≠ .asleep) (hw : s.point t ≠ .woken) {b : Point}
    (hba : b ≠ .asleep) (hbw : b ≠ .woken) :
    WaitInv s.lock.lock (procs (· = Point.asleep) (Function.update s.point t b))
      (procs (· = Point.woken) (Function.update s.point t b)) := by
  rw [procs_update_neg (P := (· = Point.asleep)) hba, procs_update_neg (P := (· = Point.woken)) hbw,
    Finset.erase_eq_of_notMem (by simpa using ha), Finset.erase_eq_of_notMem (by simpa using hw)]
  exact h.wait

/-- A round of the loop of `P` by a thread at no critical point. -/
theorem tryP (h : s.Inv) (ha : s.point t ≠ .asleep) (hc : ¬ (s.point t).Critical) :
    (s.tryP t).Inv := by
  have htA : t ∉ procs (· = Point.asleep) s.point := by simpa using ha
  rcases h.owner with hf | ⟨u, hu⟩
  · -- free: `t` takes the unit and becomes the owner
    have hv : s.lock.lock.value ≠ 0 := by rw [hf.value]; decide
    have hp := p_of_ne_zero t hv
    have hpt : (s.tryP t).point = Function.update s.point t .acquired := by
      simp [State.tryP, Lock.p, hp]
    have hlk : (s.tryP t).lock.lock = (s.lock.lock.p t).1 := rfl
    refine ⟨?_, Or.inr ⟨t, ?_, ?_, ?_, ?_⟩⟩
    · rw [hpt, hlk, procs_update_neg (by decide), procs_update_neg (by decide),
        Finset.erase_eq_of_notMem htA]
      exact h.wait.p_take hv
    · simp [State.tryP, Lock.p, hp, hf.inside]
    · simp [State.tryP, Lock.p, hp, hf.value]
    · rw [hpt]
      simp [State.tryP, Lock.p, hf.held]
    · intro w hw
      rw [hpt, Function.update_of_ne hw]
      exact hf.others w
  · -- owned, possibly by `t` itself: `t` goes to sleep
    have hv := hu.value
    have hp := p_of_eq_zero t hv
    have hpt : (s.tryP t).point = Function.update s.point t .asleep := by
      simp [State.tryP, Lock.p, hp]
    have hlk : (s.tryP t).lock.lock = (s.lock.lock.p t).1 := rfl
    refine ⟨?_, Or.inr ⟨u, ?_, ?_, ?_, ?_⟩⟩
    · rw [hpt, hlk, procs_update_pos (P := (· = Point.asleep)) rfl, procs_update_neg (by decide)]
      exact h.wait.p_sleep hv htA
    · simp [State.tryP, Lock.p, hp, hu.inside]
    · simp [State.tryP, Lock.p, hp, hv]
    · have hheld : (s.tryP t).lock.heldthread = s.lock.heldthread := rfl
      rw [hheld, hu.held, hpt]
      by_cases hut : u = t
      · subst hut
        have hna : ¬ (s.point u = .acquired ∨ s.point u = .released) := fun hw =>
          hc (hw.elim Or.inl fun hr => Or.inr (Or.inr hr))
        simp [hna]
      · rw [Function.update_of_ne hut]
    · intro w hw
      rw [hpt]
      by_cases hwt : w = t
      · rw [hwt, Function.update_self]; decide
      · rw [Function.update_of_ne hwt]; exact hu.others w hw

/-- The owner moves from one point outside `P` to another, with `heldthread` as the new point
requires and the semaphore untouched. -/
theorem move_owner (h : s.Inv) (hown : s.OwnedBy t) (ha : s.point t ≠ .asleep)
    (hw : s.point t ≠ .woken) {b : Point} (hba : b ≠ .asleep) (hbw : b ≠ .woken) {l : Lock τ}
    (hl : l.lock = s.lock.lock)
    (hheld : l.heldthread = if b = .acquired ∨ b = .released then none else some t) :
    State.Inv { s with lock := l, point := Function.update s.point t b } := by
  refine ⟨?_, Or.inr ⟨t, hown.inside, ?_, ?_, ?_⟩⟩
  · show WaitInv l.lock _ _
    rw [hl]
    exact h.wait_update ha hw hba hbw
  · show l.lock.value = 0
    rw [hl]
    exact hown.value
  · show l.heldthread = _
    simpa using hheld
  · intro u hu
    show ¬ (Function.update s.point t b u).Critical
    rw [Function.update_of_ne hu]
    exact hown.others u hu

/-- The rest of `Acquire` closes the first window. -/
theorem assign (h : s.Inv) (ht : s.point t = .acquired) :
    State.Inv { s with lock := s.lock.assign t, point := Function.update s.point t .idle } :=
  h.move_owner (h.ownedBy_of_critical (Or.inl ht)) (by rw [ht]; decide) (by rw [ht]; decide)
    (by decide) (by decide) rfl rfl

/-- `Release` passes its test for the owner only. -/
theorem callRelease (h : s.Inv) (ht : s.point t = .idle) (hheld : s.lock.heldthread = some t) :
    State.Inv { s with point := Function.update s.point t .releasing } :=
  h.move_owner (h.ownedBy_of_held hheld) (by rw [ht]; decide) (by rw [ht]; decide)
    (by decide) (by decide) rfl hheld

/-- Clearing `heldthread` opens the second window. -/
theorem clear (h : s.Inv) (ht : s.point t = .releasing) :
    State.Inv { s with lock := s.lock.clear, point := Function.update s.point t .released } :=
  h.move_owner (h.ownedBy_of_critical (Or.inr (Or.inl ht))) (by rw [ht]; decide)
    (by rw [ht]; decide) (by decide) (by decide) rfl rfl

/-- The `V` of `Release` frees the lock. -/
theorem doV (h : s.Inv) (ht : s.point t = .released) : (s.doV t).Inv := by
  have hown := h.ownedBy_of_critical (t := t) (Or.inr (Or.inr ht))
  have hwait := h.wait_update (t := t) (b := .idle) (by rw [ht]; decide) (by rw [ht]; decide)
    (by decide) (by decide)
  have hidle : ∀ u, ¬ (Function.update s.point t .idle u).Critical := by
    intro u
    by_cases hu : u = t
    · rw [hu, Function.update_self]; decide
    · rw [Function.update_of_ne hu]; exact hown.others u hu
  have hinside : (s.doV t).inside = ∅ := by simp [State.doV, hown.inside]
  have hvalue : (s.doV t).lock.lock.value = 1 := by simp [State.doV, Lock.v, Semaphore.v, hown.value]
  have hheld : (s.doV t).lock.heldthread = none := by simp [State.doV, Lock.v, hown.held, ht]
  cases hq : s.lock.lock.queue with
  | nil =>
    have hpt : (s.doV t).point = Function.update s.point t .idle := by
      simp [State.doV, Lock.v, Semaphore.v, hq]
    refine ⟨?_, Or.inl ⟨hinside, hvalue, hheld, ?_⟩⟩
    · rw [hpt]; exact hwait.v_nil hq
    · rw [hpt]; exact hidle
  | cons u q =>
    have hpt : (s.doV t).point = Function.update (Function.update s.point t .idle) u .woken := by
      simp [State.doV, Lock.v, Semaphore.v, hq]
    have hu : Function.update s.point t .idle u = .asleep := by
      simpa using (hwait.mem_iff u).mp (by rw [hq]; exact List.mem_cons_self)
    refine ⟨?_, Or.inl ⟨hinside, hvalue, hheld, ?_⟩⟩
    · rw [hpt, procs_update_neg (by decide), procs_update_pos (P := (· = Point.woken)) rfl]
      exact hwait.v_cons hq (by simp [hu])
    · intro w
      rw [hpt]
      by_cases hw : w = u
      · rw [hw, Function.update_self]; decide
      · rw [Function.update_of_ne hw]; exact hidle w

end State.Inv

variable [DecidableEq τ]

/-- The invariant holds in every reachable state. -/
theorem reachable_inv {s : State τ} (h : (system τ).Reachable s) : s.Inv := by
  refine h.invariant ?_ ?_
  · rintro s rfl
    refine ⟨?_, Or.inl ⟨rfl, rfl, rfl, fun u => by simp [Point.Critical]⟩⟩
    have hA : procs (· = Point.asleep) (fun _ : τ => Point.idle) = ∅ := by ext t; simp
    have hW : procs (· = Point.woken) (fun _ : τ => Point.idle) = ∅ := by ext t; simp
    rw [hA, hW]
    exact waitInv_new (by decide)
  · intro s a s' hinv hstep
    cases a with
    | callAcquire t =>
      obtain ⟨ht, hs⟩ := Option.ite_none_right_eq_some.mp hstep
      obtain rfl := Option.some.inj hs
      exact hinv.tryP (by rw [ht]; decide) (by rw [ht]; decide)
    | resumeP t =>
      obtain ⟨ht, hs⟩ := Option.ite_none_right_eq_some.mp hstep
      obtain rfl := Option.some.inj hs
      exact hinv.tryP (by rw [ht]; decide) (by rw [ht]; decide)
    | assign t =>
      obtain ⟨ht, hs⟩ := Option.ite_none_right_eq_some.mp hstep
      obtain rfl := Option.some.inj hs
      exact hinv.assign ht
    | callRelease t =>
      obtain ⟨ht, hs⟩ := Option.ite_none_right_eq_some.mp hstep
      obtain rfl := Option.some.inj hs
      split_ifs with hheld
      · exact hinv.callRelease ht (by simpa [isHeldBy] using hheld)
      · exact hinv
    | clear t =>
      obtain ⟨ht, hs⟩ := Option.ite_none_right_eq_some.mp hstep
      obtain rfl := Option.some.inj hs
      exact hinv.clear ht
    | v t =>
      obtain ⟨ht, hs⟩ := Option.ite_none_right_eq_some.mp hstep
      obtain rfl := Option.some.inj hs
      exact hinv.doV ht

/-- **Mutual exclusion under preemption and misuse.**  In every reachable state at most one thread
is between completing the `P` of an `Acquire` and executing the `V` of a `Release`; the inner
semaphore is `1` when there is none and `0` when there is one; `heldthread` is `NULL` or that
thread; and a `Release` called by any other thread returns with nothing changed. -/
theorem lock_mutual_exclusion {s : State τ} (h : (system τ).Reachable s) :
    s.inside.card ≤ 1 ∧
    s.lock.lock.value = (if s.inside = ∅ then 1 else 0) ∧
    (∀ t, s.lock.heldthread = some t → t ∈ s.inside) ∧
    (∀ t, t ∉ s.inside → s.point t = .idle → s.step (.callRelease t) = some s) := by
  have hinv := reachable_inv h
  have hheld : ∀ t, s.lock.heldthread = some t → t ∈ s.inside := by
    intro t ht
    rw [(hinv.ownedBy_of_held ht).inside]
    exact Finset.mem_singleton_self t
  refine ⟨?_, ?_, hheld, ?_⟩
  · rcases hinv.owner with hf | ⟨t, ht⟩
    · simp [hf.inside]
    · simp [ht.inside]
  · rcases hinv.owner with hf | ⟨t, ht⟩
    · simp [hf.inside, hf.value]
    · simp [ht.inside, ht.value]
  · intro t hout hidle
    have hnot : ¬ s.lock.isHeldBy t = true := by
      intro hh
      exact hout (hheld t (by simpa [isHeldBy] using hh))
    rw [State.step, if_pos hidle, if_neg hnot]

/-- Thread `0` has completed the `P` of `Acquire` and not assigned `heldthread`; a `Release` by
thread `1` in that window changes nothing. -/
theorem lock_mutual_exclusion_window :
    ∃ s : State (Fin 2), (system (Fin 2)).Reachable s ∧ s.inside = {0} ∧ s.lock.heldthread = none ∧
      s.step (.callRelease 1) = some s := by
  have h0 : (system (Fin 2)).Reachable ⟨new, fun _ => .idle, ∅⟩ := .of_init rfl
  have h1 := h0.tail (a := .callAcquire 0) (show State.step _ _ = some _ from rfl)
  exact ⟨_, h1, rfl, rfl, (lock_mutual_exclusion h1).2.2.2 1 (by decide) rfl⟩

end Nachos.Lock
