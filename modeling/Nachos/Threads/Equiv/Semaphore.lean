import Nachos.Lib.Control
import Nachos.Threads.Semaphore

/-!
## The wait queue of a semaphore

`WaitInv s A W` ties a semaphore `s` to the set `A` of threads asleep on it and the set `W` of
threads woken and not yet re-tested: the queue lists `A` without repetition, and while somebody is
asleep the value is at most the number of woken threads (`wake`).  The last clause is what excludes
a lost wake-up: a positive value with a sleeper and nobody woken cannot occur.  It is preserved by
`p` and `v` (`WaitInv.p_sleep`, `WaitInv.p_take`, `WaitInv.v_cons`, `WaitInv.v_nil`), whoever the
other threads are, and is used again for every semaphore of the system.

`reachable_inv` carries it over runs of `Semaphore.system`, with the balance
`value = initial + completed V − completed P`.
-/

namespace Nachos.Semaphore

open Control

variable {τ : Type} {initialValue : ℤ}

/-- `A` is asleep on the semaphore and `W` has been woken but has not re-tested. -/
structure WaitInv (s : Semaphore τ) (A W : Finset τ) : Prop where
  nonneg : 0 ≤ s.value
  nodup : s.queue.Nodup
  mem_iff : ∀ t, t ∈ s.queue ↔ t ∈ A
  wake : s.queue ≠ [] → s.value ≤ W.card

theorem waitInv_new (h : 0 ≤ initialValue) : WaitInv (new initialValue : Semaphore τ) ∅ ∅ where
  nonneg := h
  nodup := List.nodup_nil
  mem_iff := by simp [new]
  wake hq := absurd rfl hq

variable {s : Semaphore τ} {A W : Finset τ} {t : τ}

namespace WaitInv

/-- `V` with nobody asleep only increments. -/
theorem v_nil (h : WaitInv s A W) (hq : s.queue = []) : WaitInv s.v.1 A W := by
  have hnonneg := h.nonneg
  refine ⟨by show 0 ≤ s.value + 1; omega, ?_, ?_, ?_⟩
  · simp [v, hq]
  · intro u
    simp [v, hq, ← h.mem_iff u]
  · simp [v, hq]

/-- With a sleeper and nobody woken, the value is `0`: no wake-up has been lost. -/
theorem value_eq_zero (h : WaitInv s A W) (ht : t ∈ A) (hW : W = ∅) : s.value = 0 := by
  have hw := h.wake (List.ne_nil_of_mem ((h.mem_iff t).mpr ht))
  have hnonneg := h.nonneg
  rw [hW, Finset.card_empty] at hw
  omega

variable [DecidableEq τ]

/-- A thread that finds the value `0` goes to the tail of the queue; if it had been woken it no
longer counts as such. -/
theorem p_sleep (h : WaitInv s A W) (hv : s.value = 0) (ht : t ∉ A) :
    WaitInv (s.p t).1 (insert t A) (W.erase t) := by
  rw [p_of_eq_zero t hv]
  refine ⟨h.nonneg, ?_, ?_, ?_⟩
  · have htq : t ∉ s.queue := fun hm => ht ((h.mem_iff t).mp hm)
    exact List.nodup_append.mpr ⟨h.nodup, List.nodup_singleton t,
      fun a ha b hb => by rw [List.mem_singleton.mp hb]; rintro rfl; exact htq ha⟩
  · intro u
    simp [h.mem_iff u, or_comm]
  · intro _
    simp [hv]

/-- A thread that finds a positive value takes one unit. -/
theorem p_take (h : WaitInv s A W) (hv : s.value ≠ 0) : WaitInv (s.p t).1 A (W.erase t) := by
  rw [p_of_ne_zero t hv]
  have hpos := h.nonneg
  refine ⟨by show 0 ≤ s.value - 1; omega, h.nodup, h.mem_iff, ?_⟩
  intro hq
  have hw := h.wake hq
  have hcard : W.card - 1 ≤ (W.erase t).card := Finset.pred_card_le_card_erase
  show s.value - 1 ≤ _
  omega

/-- `V` with a sleeper moves the longest waiting one from `A` to `W`. -/
theorem v_cons (h : WaitInv s A W) {q : List τ} (hq : s.queue = t :: q) (ht : t ∉ W) :
    WaitInv s.v.1 (A.erase t) (insert t W) := by
  have hnd := h.nodup
  rw [hq, List.nodup_cons] at hnd
  have hnonneg := h.nonneg
  refine ⟨by show 0 ≤ s.value + 1; omega, ?_, ?_, ?_⟩
  · simpa [v, hq] using hnd.2
  · intro u
    have hu := h.mem_iff u
    rw [hq, List.mem_cons] at hu
    show u ∈ s.queue.tail ↔ u ∈ A.erase t
    rw [hq, List.tail_cons, Finset.mem_erase, ← hu]
    constructor
    · exact fun hm => ⟨fun he => hnd.1 (he ▸ hm), Or.inr hm⟩
    · rintro ⟨hne, rfl | hm⟩
      · exact absurd rfl hne
      · exact hm
  · intro _
    have hw := h.wake (by rw [hq]; exact List.cons_ne_nil t q)
    show s.value + 1 ≤ _
    rw [Finset.card_insert_of_notMem ht]
    push_cast
    omega

end WaitInv

/-! ### Runs of `P` and `V` -/

variable [DecidableEq τ] [Fintype τ]

/-- The threads asleep inside `P`. -/
def State.asleep (s : State τ) : Finset τ := procs (· = Status.asleep) s.status

/-- The threads taken off the queue by a `V` that have not re-tested yet. -/
def State.woken (s : State τ) : Finset τ := procs (· = Status.woken) s.status

/-- The wait queue is in order and every unit is accounted for. -/
structure State.Inv (initialValue : ℤ) (s : State τ) : Prop where
  wait : WaitInv s.sem s.asleep s.woken
  balance : s.sem.value = initialValue + s.completedV - s.completedP

/-- A round of the loop of `P` by a thread that is not asleep keeps the invariant. -/
theorem State.Inv.tryP {s : State τ} (h : s.Inv initialValue) {t : τ} (ht : s.status t ≠ .asleep) :
    (s.tryP t).Inv initialValue := by
  have htA : t ∉ s.asleep := by simpa [State.asleep] using ht
  have hbal := h.balance
  by_cases hv : s.sem.value = 0
  · -- the value is `0`: `t` is appended and sleeps
    have hp := p_of_eq_zero t hv
    refine ⟨?_, ?_⟩
    · have hA : (s.tryP t).asleep = insert t s.asleep := by
        simp only [State.asleep, State.tryP, hp]
        exact procs_update_pos rfl
      have hW : (s.tryP t).woken = s.woken.erase t := by
        simp only [State.woken, State.tryP, hp]
        exact procs_update_neg (by decide)
      rw [hA, hW]
      exact h.wait.p_sleep hv htA
    · simp only [State.tryP, hp]
      exact hbal
  · -- a unit is available
    have hp := p_of_ne_zero t hv
    refine ⟨?_, ?_⟩
    · have hA : (s.tryP t).asleep = s.asleep := by
        simp only [State.asleep, State.tryP, hp]
        rw [procs_update_neg (by decide)]
        exact Finset.erase_eq_of_notMem htA
      have hW : (s.tryP t).woken = s.woken.erase t := by
        simp only [State.woken, State.tryP, hp]
        exact procs_update_neg (by decide)
      rw [hA, hW]
      exact h.wait.p_take hv
    · simp only [State.tryP, hp]
      push_cast
      omega

/-- `V` keeps the invariant. -/
theorem State.Inv.doV {s : State τ} (h : s.Inv initialValue) : s.doV.Inv initialValue := by
  have hbal := h.balance
  refine ⟨?_, by simp only [State.doV, v]; push_cast; omega⟩
  cases hq : s.sem.queue with
  | nil =>
    have hst : s.doV.status = s.status := by simp [State.doV, v, hq]
    rw [State.asleep, State.woken, hst]
    exact h.wait.v_nil hq
  | cons u q =>
    have hst : s.doV.status = Function.update s.status u .woken := by simp [State.doV, v, hq]
    have hu : s.status u = .asleep := by
      have := (h.wait.mem_iff u).mp (by rw [hq]; exact List.mem_cons_self)
      simpa [State.asleep] using this
    rw [State.asleep, State.woken, hst, procs_update_neg (by decide),
      procs_update_pos (P := (· = Status.woken)) rfl]
    exact h.wait.v_cons hq (by simp [State.woken, hu])

/-- **Every reachable state** has its wait queue in order and its units accounted for. -/
theorem reachable_inv (h0 : 0 ≤ initialValue) {s : State τ} (h : (system τ initialValue).Reachable s) :
    s.Inv initialValue := by
  refine h.invariant ?_ ?_
  · rintro s rfl
    refine ⟨?_, by simp [new]⟩
    have hA : State.asleep (⟨new initialValue, fun _ => .running, 0, 0⟩ : State τ) = ∅ := by
      ext t; simp [State.asleep]
    have hW : State.woken (⟨new initialValue, fun _ => .running, 0, 0⟩ : State τ) = ∅ := by
      ext t; simp [State.woken]
    rw [hA, hW]
    exact waitInv_new h0
  · intro s a s' hinv hstep
    cases a with
    | callP t =>
      obtain ⟨ht, hs⟩ := Option.ite_none_right_eq_some.mp hstep
      obtain rfl := Option.some.inj hs
      exact hinv.tryP (by rw [ht]; decide)
    | resumeP t =>
      obtain ⟨ht, hs⟩ := Option.ite_none_right_eq_some.mp hstep
      obtain rfl := Option.some.inj hs
      exact hinv.tryP (by rw [ht]; decide)
    | callV t =>
      obtain ⟨-, hs⟩ := Option.ite_none_right_eq_some.mp hstep
      obtain rfl := Option.some.inj hs
      exact hinv.doV

/-- **Semaphore safety and no lost wake-up.**  In every reachable state the value is non-negative
and equals the initial value plus completed `V`s minus completed `P`s, a thread is on the queue
exactly once if it is asleep and not at all otherwise, and while the queue is non-empty at least
`value` threads have been woken and have not re-tested; so no state has a positive value, a
sleeper and nobody woken. -/
theorem semaphore_safety {initialValue : ℤ} (h0 : 0 ≤ initialValue) {s : State τ}
    (h : (system τ initialValue).Reachable s) :
    0 ≤ s.sem.value ∧
    s.sem.value = initialValue + s.completedV - s.completedP ∧
    (∀ t, s.sem.queue.count t = if s.status t = .asleep then 1 else 0) ∧
    (s.sem.queue ≠ [] → s.sem.value ≤ s.woken.card) ∧
    ¬ (0 < s.sem.value ∧ (∃ t, s.status t = .asleep) ∧ ∀ t, s.status t ≠ .woken) := by
  have hinv := reachable_inv h0 h
  refine ⟨hinv.wait.nonneg, hinv.balance, ?_, hinv.wait.wake, ?_⟩
  · intro t
    have hmem := hinv.wait.mem_iff t
    simp only [State.asleep, mem_procs] at hmem
    rw [List.Nodup.count hinv.wait.nodup]
    simp only [hmem]
  · rintro ⟨hpos, ⟨t, ht⟩, hnone⟩
    have hW : s.woken = ∅ := by
      ext u
      simp [State.woken, hnone u]
    have := hinv.wait.value_eq_zero (t := t) (by simpa [State.asleep] using ht) hW
    omega

/-- Thread `0` goes to sleep on an empty semaphore and thread `1` wakes it: the unit is there and
the woken thread is pending. -/
theorem semaphore_safety_wakeup :
    ∃ s : State (Fin 2), (system (Fin 2) 0).Reachable s ∧ s.sem.value = 1 ∧ s.status 0 = .woken ∧
      ¬ (0 < s.sem.value ∧ (∃ t, s.status t = .asleep) ∧ ∀ t, s.status t ≠ .woken) := by
  have h0 : (system (Fin 2) 0).Reachable ⟨new 0, fun _ => .running, 0, 0⟩ := .of_init rfl
  have h1 := h0.tail (a := .callP 0) (show State.step _ _ = some _ from rfl)
  have h2 := h1.tail (a := .callV 1) (show State.step _ _ = some _ from rfl)
  exact ⟨_, h2, rfl, rfl, (semaphore_safety (by decide) h2).2.2.2.2⟩

end Nachos.Semaphore
