import Nachos.Threads.Equiv.ProducerConsumer

/-!
# The dining philosophers

A thread carries a chopstick when it has more `V`s than `P`s on it left to do.  At most one thread carries
a chopstick, so what is left is who waits for whom when nobody can go on.
-/

namespace Nachos.ThreadTest

open Kernel (Op)

variable {τ : Type}

/-! ### Loops of calls on semaphores -/

section

variable (code : Fin 4 → ℕ → Code) (ops : Fin 4 → List (Op τ Sem Lck Cond Code))

/-- The functions that a test's philosophers start with. -/
def Starts (x : Code) : Prop := ∃ which, x = code which 0

/-- The rounds of the loop, as the atomic machine sees them. -/
def Rounds (k : List (Act τ)) : Prop := ∃ which i, k = (ops which).flatMap Op.acts ++ [.own (code which i)]

/-- `code` is a loop around `ops`, which call `P` and `V` only. -/
structure IsLoop (T : Test τ) : Prop where
  body : ∀ which i d, T.body (code which i) d = (d, []) ∨
    T.body (code which i) d = (d, ops which ++ [.own (code which (i + 1))])
  calls : ∀ which, ∀ b ∈ (ops which).flatMap Op.acts, (∃ x, b = .p x) ∨ ∃ x, b = .v x
  isTest : ∀ x, Starts code x → x.isTest = false

end

namespace IsLoop

variable {code : Fin 4 → ℕ → Code} {ops : Fin 4 → List (Op τ Sem Lck Cond Code)} {T : Test τ}
  (h : IsLoop code ops T)

include h

/-- What a thread in the loop can do next. -/
theorem next {b : Act τ} {k : List (Act τ)} (hk : Sync.Within (Rounds code ops) (b :: k)) :
    (∃ x, b = .p x) ∨ (∃ x, b = .v x) ∨ ∃ which i, b = .own (code which i) := by
  obtain ⟨_, ⟨which, i, rfl⟩, hk⟩ := hk
  rcases List.mem_append.1 (hk.subset List.mem_cons_self) with hmem | hmem
  · rcases h.calls which b hmem with hp | hv
    · exact .inl hp
    · exact .inr (.inl hv)
  · exact .inr (.inr ⟨which, i, List.mem_singleton.1 hmem⟩)

/-- The loop's own code is at the end of a round. -/
theorem own {x : Code} {k : List (Act τ)} (hk : Sync.Within (Rounds code ops) (.own x :: k)) :
    ∃ which i, x = code which i ∧ k = [] := by
  obtain ⟨_, ⟨which, i, rfl⟩, hk⟩ := hk
  rcases List.suffix_concat_iff.1 hk with hnil | ⟨round, heq, hround⟩
  · cases hnil
  cases round with
  | nil =>
    obtain ⟨hx, hk⟩ := List.cons.inj heq
    exact ⟨which, i, Sync.Act.own.inj hx, hk⟩
  | cons b round =>
    -- the calls of a round are not the loop's own code
    rcases h.calls which b (hround.subset List.mem_cons_self) with ⟨y, rfl⟩ | ⟨y, rfl⟩ <;> cases heq

theorem protocol : Protocol T (Starts code) fun _ => Rounds code ops where
  start := by
    rintro ⟨t, x⟩ - ⟨which, rfl⟩
    exact ⟨_, ⟨which, 0, rfl⟩, List.suffix_append _ _⟩
  own := by
    intro t x k d hk
    obtain ⟨which, i, rfl, rfl⟩ := h.own hk
    rw [List.append_nil]
    rcases h.body which i d with hbody | hbody
    · rw [hbody]
      exact ⟨_, ⟨which, i, rfl⟩, List.nil_suffix⟩
    · rw [hbody, List.flatMap_append]
      exact ⟨_, ⟨which, i + 1, rfl⟩, List.suffix_rfl⟩
  broadcast := by
    intro t c k hk
    rcases h.next hk with ⟨x, hx⟩ | ⟨x, hx⟩ | ⟨which, i, hx⟩ <;> cases hx
  fork := by
    intro t u x k hk
    rcases h.next hk with ⟨x, hx⟩ | ⟨x, hx⟩ | ⟨which, i, hx⟩ <;> cases hx

variable [DecidableEq τ] {main : τ} {a : Sync.State τ Sem Lck Cond Code Data}
  (hT : T.Forks main (Starts code)) (ha : (T.atomicSystem main .threadTest).Reachable a)

include hT ha

theorem noLock (t : τ) (l : Lck) (k : List (Act τ)) : a.code t ≠ .acquire l :: k := by
  intro hcode
  have hwithin := h.protocol.reachable hT rfl ha t
  rw [hcode] at hwithin
  rcases within_bodies.1 hwithin with hk | hmain | hforks
  · rcases h.next hk with ⟨x, hx⟩ | ⟨x, hx⟩ | ⟨which, i, hx⟩ <;> cases hx
  · cases hmain
  · have hmem := hforks.subset List.mem_cons_self
    simp [Test.forkActs] at hmem

/-- A semaphore that every round gives back is known up to the rounds that have begun. -/
theorem value_add_total [Fintype τ] (y : Sem)
    (hround : ∀ which, Sync.weight (Sync.weigh y 1 fun _ => 0) ((ops which).flatMap Op.acts) = 0) :
    a.value y + Sync.total (Sync.weigh y 1 fun _ => 0) a = initialValue y := by
  have hown : ∀ x k d, Sync.Within (Rounds code ops) (.own x :: k) →
      0 + Sync.weight (Sync.weigh y 1 fun _ => 0) ((T.body x d).2.flatMap Op.acts) = 0 + 0 := by
    intro x k d hk
    obtain ⟨which, i, rfl, -⟩ := h.own hk
    rcases h.body which i d with hbody | hbody
    · rw [hbody]
      rfl
    · rw [hbody, List.flatMap_append, Sync.weight_append, hround]
      rfl
  have hsum := h.protocol.conserved (y := y) (e := 1) (g := fun _ => 0) hT rfl (by simp) (fun _ _ => rfl)
    (fun _ => hown) ha
  simpa using hsum

end IsLoop

/-! ### Chopsticks -/

/-- A chopstick's semaphore, by what changes it. -/
abbrev stickWeight (j : Fin 4) : Act τ → ℤ := Sync.weigh (.chopsticks j) 1 fun _ => 0

/-- A thread with `k` left to do has the chopstick `j`. -/
def Carries (j : Fin 4) (k : List (Act τ)) : Prop := 0 < Sync.weight (stickWeight j) k

theorem eq_left_iff {i j : Fin 4} : left i = j ↔ i = j + 1 := by
  revert i j
  decide

theorem around (i j : Fin 4) : i = j ∨ i = j + 1 ∨ i = j + 1 + 1 ∨ i = j + 1 + 1 + 1 := by
  revert i j
  decide

/-! ### `Philosopher_deadlock` -/

theorem isLoop_deadlock (T : Test τ) : IsLoop .philosopherDeadlock dineDeadlock T where
  body := by
    intro which i d
    simp only [Test.body]
    split_ifs
    · exact .inr rfl
    · exact .inl rfl
  calls := by simp [dineDeadlock, Op.acts]
  isTest := by
    rintro x ⟨which, rfl⟩
    rfl

/-- Where a thread can be in `Philosopher_deadlock`. -/
structure AtDeadlock (k : List (Act τ)) : Prop where
  nonneg : ∀ j, 0 ≤ Sync.weight (stickWeight j) k
  /-- A thread that carries a chopstick and waits is the next philosopher, and waits for the right one. -/
  waits : ∀ x k', k = .p x :: k' → ∃ i, x = .chopsticks i ∧ ∀ j, Carries j k → i = j + 1

theorem endings_deadlock (which : Fin 4) (i : ℕ) : Sync.Endings AtDeadlock
    ((dineDeadlock (τ := τ) which).flatMap Op.acts ++ [.own (.philosopherDeadlock which i)]) := by
  simp only [dineDeadlock, Op.acts, List.flatMap_cons, List.flatMap_nil, List.cons_append, List.nil_append,
    Sync.endings_cons, Sync.endings_nil]
  refine ⟨⟨fun j => ?_, ?_⟩, ⟨fun j => ?_, ?_⟩, ⟨fun j => ?_, by simp⟩, ⟨fun j => ?_, by simp⟩,
    ⟨fun j => le_rfl, by simp⟩, ⟨fun j => le_rfl, by simp⟩⟩
  · simp [Sync.weigh]
    split_ifs <;> decide
  · rintro x k' ⟨⟩
    refine ⟨_, rfl, fun j hj => ?_⟩
    simp [Carries, Sync.weigh] at hj
    split_ifs at hj <;> exact absurd hj (by decide)
  · simp [Sync.weigh]
    split_ifs <;> decide
  · rintro x k' ⟨⟩
    refine ⟨_, rfl, fun j hj => eq_left_iff.1 ?_⟩
    by_contra hleft
    simp only [Carries, Sync.weight_cons, Sync.weight_nil, Sync.weigh, Sem.chopsticks.injEq, hleft,
      if_false] at hj
    split_ifs at hj <;> exact absurd hj (by decide)
  · simp [Sync.weigh]
    split_ifs <;> decide
  · simp [Sync.weigh]
    split_ifs <;> decide

section

variable [DecidableEq τ] {T : Test τ} {main : τ} {a : Sync.State τ Sem Lck Cond Code Data}
  (hT : T.Forks main (Starts .philosopherDeadlock)) (ha : (T.atomicSystem main .threadTest).Reachable a)

include hT ha

theorem atDeadlock_of_reachable (t : τ) : AtDeadlock (a.code t) := by
  refine forall_within ?_ ⟨fun j => le_rfl, by simp⟩ (fun k hk => ⟨fun j => ?_, ?_⟩)
    ((isLoop_deadlock T).protocol.reachable hT rfl ha t)
  · rintro k ⟨which, i, rfl⟩
    exact endings_deadlock which i
  · exact (weight_of_suffix_forkActs hT (fun _ _ => rfl) hk).ge
  · rintro x k' rfl
    have hmem := hk.subset List.mem_cons_self
    simp [Test.forkActs] at hmem

variable [Fintype τ]

theorem conserved_deadlock (j : Fin 4) : a.value (.chopsticks j) + Sync.total (stickWeight j) a = 1 := by
  refine (isLoop_deadlock T).value_add_total hT ha (.chopsticks j) fun which => ?_
  simp only [dineDeadlock, Op.acts, List.cons_append, List.nil_append, List.flatMap_cons, List.flatMap_nil,
    Sync.weight_cons, Sync.weight_nil, Sync.weigh, Sem.chopsticks.injEq]
  split_ifs <;> rfl

/-- When nobody can go on and a chopstick is taken, the next philosopher carries it and waits for the next
chopstick. -/
theorem waits_next {s : Kernel.State τ Sem Lck Cond Code Data} (hresting : ∀ t, Kernel.Resting s a t)
    {j : Fin 4} (hzero : a.value (.chopsticks j) = 0) :
    ∃ t, t ∈ (s.semaphore (.inl (.chopsticks (j + 1)))).queue ∧ Carries j (a.code t) ∧
      a.value (.chopsticks (j + 1)) = 0 := by
  obtain ⟨t, ht⟩ := exists_weight_pos (conserved_deadlock hT ha j) hzero
  rcases waits_of_resting (hresting t) ((isLoop_deadlock T).noLock hT ha t) with
    ⟨hnil, -⟩ | ⟨x, k, hcode, hqueue, hvalue⟩
  · rw [hnil] at ht
    exact absurd ht (lt_irrefl 0)
  · obtain ⟨i, rfl, hi⟩ := (atDeadlock_of_reachable hT ha t).waits x k hcode
    obtain rfl := hi j ht
    exact ⟨t, hqueue, ht, hvalue⟩

end

section

variable [Fintype τ] [DecidableEq τ] {T : Test τ} {main : τ} {s : Kernel.State τ Sem Lck Cond Code Data}

/-- **`Philosopher_deadlock` blocks in one way.**  However many threads a test forks with this function,
no two threads ever carry the same chopstick; and when the processor finds nobody to run, all that were
forked have finished, or every chopstick is waited for by a thread that carries the one to the left of
it. -/
theorem rest_deadlock (hT : T.Forks main (Starts .philosopherDeadlock))
    (h : (T.system main .threadTest).Reachable s) :
    (∀ j t u, Carries j (s.acts t) → Carries j (s.acts u) → t = u) ∧
    (s.NobodyReady → (∀ t, s.status t = .justCreated ∨ s.finished t = true) ∨
      ∀ j, ∃ t, t ∈ (s.semaphore (.inl (.chopsticks j))).queue ∧ Carries (left j) (s.acts t)) := by
  obtain ⟨a, ha, hrefines, hresting⟩ := hT.exists_refines (isLoop_deadlock T).isTest h
  have hat := atDeadlock_of_reachable hT ha
  rw [← hrefines.code]
  refine ⟨fun j t u => eq_of_weight_pos (conserved_deadlock hT ha j)
    (Sync.value_nonneg ha initialValue_nonneg _) (fun t => (hat t).nonneg j), fun hnobody => ?_⟩
  by_cases hdone : ∀ t, s.status t = .justCreated ∨ s.finished t = true
  · exact .inl hdone
  right
  -- somebody waits, so a chopstick is taken, and so all are
  obtain ⟨j, hzero⟩ : ∃ j, a.value (.chopsticks j) = 0 := by
    rw [not_forall] at hdone
    obtain ⟨t, ht⟩ := hdone
    rcases waits_of_resting (hresting hnobody t) ((isLoop_deadlock T).noLock hT ha t) with
      ⟨-, hend⟩ | ⟨x, k, hcode, -, hvalue⟩
    · exact absurd hend ht
    · obtain ⟨i, rfl, -⟩ := (hat t).waits x k hcode
      exact ⟨i, hvalue⟩
  have hnext := fun j hzero => waits_next hT ha (hresting hnobody) (j := j) hzero
  have hall : ∀ i, a.value (.chopsticks i) = 0 := by
    obtain ⟨-, -, -, h₁⟩ := hnext j hzero
    obtain ⟨-, -, -, h₂⟩ := hnext _ h₁
    obtain ⟨-, -, -, h₃⟩ := hnext _ h₂
    intro i
    rcases around i j with rfl | rfl | rfl | rfl
    · exact hzero
    · exact h₁
    · exact h₂
    · exact h₃
  intro i
  obtain ⟨t, hqueue, hcarries, -⟩ := hnext (left i) (hall _)
  rw [← eq_left_iff.1 rfl] at hqueue
  exact ⟨t, hqueue, hcarries⟩

end

/-- Four philosophers, and a main thread that finishes at once. -/
def fourPhilosophers (code : Fin 4 → ℕ → Code) : Test (Fin 5) where
  created := (List.finRange 4).map Fin.succ
  forked := (List.finRange 4).map fun which => (which.succ, code which 0)
  rounds := 0

theorem forks_fourPhilosophers (code : Fin 4 → ℕ → Code) : (fourPhilosophers code).Forks 0 (Starts code) where
  nodup := by
    rw [fourPhilosophers, List.map_map]
    exact (List.nodup_finRange 4).map (Fin.succ_injective 4)
  main_notMem := by simp [fourPhilosophers]
  starts := by
    intro p hp
    obtain ⟨which, -, rfl⟩ := List.mem_map.1 hp
    exact ⟨which, rfl⟩

theorem rest_deadlock_fourPhilosophers : ∃ s : Kernel.State (Fin 5) Sem Lck Cond Code Data,
    s.finished 1 = false ∧ ∀ j, ∃ t, t ∈ (s.semaphore (.inl (.chopsticks j))).queue ∧
      Carries (left j) (s.acts t) := by
  have hrun : ((fourPhilosophers .philosopherDeadlock).after 0 .threadTest 124).map
      (fun s => decide (s.readyList = [] ∧ s.code.head? = some .sleep ∧ s.status 1 = .blocked ∧
        s.finished 1 = false)) = some true := by decide +kernel
  obtain ⟨s, hs, hfacts⟩ := Option.map_eq_some_iff.1 hrun
  obtain ⟨hready, hcode, hstatus, hfinished⟩ := of_decide_eq_true hfacts
  have hrest := (rest_deadlock (forks_fourPhilosophers .philosopherDeadlock)
    (Test.reachable_after hs)).2 ⟨hready, _, List.eq_cons_of_mem_head? hcode⟩
  refine ⟨s, hfinished, hrest.resolve_left fun hdone => ?_⟩
  have hone := hdone 1
  rw [hstatus, hfinished] at hone
  simp at hone

end Nachos.ThreadTest
