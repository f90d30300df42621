import Mathlib.Data.Fintype.Option
import Nachos.Threads.Equiv.ThreadTest

/-!
# Producers and consumers

Any number of producers and consumers, in any order of steps.  With semaphores, every action has a
weight such that `itemnum`, `full` and `empty` are known up to what the threads have left to do.
-/

namespace Nachos.ThreadTest

open Kernel (Op)

variable {τ : Type}

/-! ### Semaphores -/

/-- `Producer_semaphore` and `Consumer_semaphore` -/
inductive StartsSemaphore : Code → Prop where
  | producer : StartsSemaphore (.producerSemaphore 1)
  | consumer : StartsSemaphore (.consumerSemaphore 1)

/-- The rounds of the loop that the thread `t` was forked for, as the atomic machine sees them. -/
inductive BodySemaphore (T : Test τ) (t : τ) : List (Act τ) → Prop where
  | producer (h : (t, .producerSemaphore 1) ∈ T.forked) (loop : ℕ) : BodySemaphore T t
      [.p .empty, .p .mutex, .own .produce, .v .mutex, .v .full, .own (.producerSemaphore loop)]
  | consumer (h : (t, .consumerSemaphore 1) ∈ T.forked) (loop : ℕ) : BodySemaphore T t
      [.p .full, .p .mutex, .own .consume, .v .mutex, .v .empty, .own (.consumerSemaphore loop)]

theorem StartsSemaphore.isTest {x : Code} (h : StartsSemaphore x) : x.isTest = false := by
  cases h <;> rfl

variable {T : Test τ} {t : τ}

/-- The threads' own code is in the middle of a round, or at its end. -/
theorem own_semaphore {x : Code} {k : List (Act τ)} (h : Sync.Within (BodySemaphore T t) (.own x :: k)) :
    x = .produce ∧ Sync.Within (BodySemaphore T t) k ∨ x = .consume ∧ Sync.Within (BodySemaphore T t) k ∨
      (∃ loop, x = .producerSemaphore loop ∧ k = [] ∧ (t, .producerSemaphore 1) ∈ T.forked) ∨
      ∃ loop, x = .consumerSemaphore loop ∧ k = [] ∧ (t, .consumerSemaphore 1) ∈ T.forked := by
  have hrest := (Sync.endings_cons.1 h.endings).2.self
  obtain ⟨_, ⟨hforked, loop⟩ | ⟨hforked, loop⟩, hk⟩ := h
  · simp only [List.suffix_cons_iff, List.cons.injEq, reduceCtorEq, false_and, false_or,
      List.suffix_nil, or_false, Sync.Act.own.injEq] at hk
    rcases hk with ⟨rfl, -⟩ | hk
    · exact .inl ⟨rfl, hrest⟩
    · exact .inr (.inr (.inl ⟨loop, hk.1, hk.2, hforked⟩))
  · simp only [List.suffix_cons_iff, List.cons.injEq, reduceCtorEq, false_and, false_or,
      List.suffix_nil, or_false, Sync.Act.own.injEq] at hk
    rcases hk with ⟨rfl, -⟩ | hk
    · exact .inr (.inl ⟨rfl, hrest⟩)
    · exact .inr (.inr (.inr ⟨loop, hk.1, hk.2, hforked⟩))

theorem protocol_semaphore (T : Test τ) : Protocol T StartsSemaphore (BodySemaphore T) where
  start := by
    rintro ⟨t, x⟩ hforked (_ | _)
    · exact ⟨_, .producer hforked 1, by simp [List.suffix_cons_iff]⟩
    · exact ⟨_, .consumer hforked 1, by simp [List.suffix_cons_iff]⟩
  own := by
    intro t x k d hk
    rcases own_semaphore hk with ⟨rfl, hrest⟩ | ⟨rfl, hrest⟩ | ⟨loop, rfl, rfl, hforked⟩ |
      ⟨loop, rfl, rfl, hforked⟩
    · exact hrest
    · exact hrest
    · simp only [Test.body]
      split_ifs
      · exact ⟨_, .producer hforked (loop + 1), List.suffix_rfl⟩
      · exact ⟨_, .producer hforked loop, List.nil_suffix⟩
    · simp only [Test.body]
      split_ifs
      · exact ⟨_, .consumer hforked (loop + 1), List.suffix_rfl⟩
      · exact ⟨_, .consumer hforked loop, List.nil_suffix⟩
  broadcast := by
    rintro t c k ⟨_, ⟨-, loop⟩ | ⟨-, loop⟩, hk⟩ <;> simp [List.suffix_cons_iff] at hk
  fork := by
    rintro t u x k ⟨_, ⟨-, loop⟩ | ⟨-, loop⟩, hk⟩ <;> simp [List.suffix_cons_iff] at hk

/-- What the threads' own code adds to `itemnum`. -/
def items : Code → ℤ
  | .produce => 1
  | .consume => -1
  | _ => 0

/-- `itemnum - full`, by what changes it. -/
abbrev fullWeight : Act τ → ℤ := Sync.weigh .full (-1) items

/-- `itemnum + empty`, by what changes it. -/
abbrev emptyWeight : Act τ → ℤ := Sync.weigh .empty 1 items

abbrev mutexWeight : Act τ → ℤ := Sync.weigh .mutex 1 fun _ => 0

/-- Where the thread `t` can be in `Producer_semaphore` and `Consumer_semaphore`. -/
structure AtSemaphore (T : Test τ) (t : τ) (k : List (Act τ)) : Prop where
  full_nonpos : Sync.weight fullWeight k ≤ 0
  empty_nonneg : 0 ≤ Sync.weight emptyWeight k
  mutex_nonneg : 0 ≤ Sync.weight mutexWeight k
  /-- A thread that weighs something is between the two calls on `mutex`. -/
  inside : Sync.weight mutexWeight k ≠ 0 → ∃ i k', k = i :: k' ∧
    (i = .own .produce ∨ i = .own .consume ∨ i = .v .mutex)
  critical : ∀ k', k = .own .produce :: k' ∨ k = .own .consume :: k' → Sync.weight mutexWeight k = 1
  /-- Outside, a thread has produced or consumed what it announced, and waits for what its own loop
  needs. -/
  resting : ∀ x k', k = .p x :: k' → x = .mutex ∨
    (x = .full ∧ (t, .consumerSemaphore 1) ∈ T.forked ∨
      x = .empty ∧ (t, .producerSemaphore 1) ∈ T.forked) ∧
      Sync.weight fullWeight k = 0 ∧ Sync.weight emptyWeight k = 0
  noLock : ∀ l k', k ≠ .acquire l :: k'

theorem BodySemaphore.endings {k : List (Act τ)} (h : BodySemaphore T t k) :
    Sync.Endings (AtSemaphore T t) k := by
  cases h with
  | producer hforked loop =>
    simp only [Sync.endings_cons, Sync.endings_nil]
    refine ⟨?_, ?_, ?_, ?_, ?_, ?_, ?_⟩ <;> constructor <;> simp [Sync.weigh, items, hforked]
  | consumer hforked loop =>
    simp only [Sync.endings_cons, Sync.endings_nil]
    refine ⟨?_, ?_, ?_, ?_, ?_, ?_, ?_⟩ <;> constructor <;> simp [Sync.weigh, items, hforked]

section

variable {main : τ} (hT : T.Forks main StartsSemaphore)

include hT

/-- The main thread only forks. -/
theorem atSemaphore_forks {k : List (Act τ)} (hk : k <:+ T.forkActs) : AtSemaphore T t k := by
  have hitems : ∀ x, StartsSemaphore x → items x = 0 := by
    rintro x (_ | _) <;> rfl
  have hzero : Sync.weight mutexWeight k = 0 := weight_of_suffix_forkActs hT (fun _ _ => rfl) hk
  have hfork : ∀ {i k'}, k = i :: k' → ∃ t x, i = .fork t x := by
    rintro i k' rfl
    obtain ⟨p, -, hi⟩ := List.mem_map.1 (hk.subset List.mem_cons_self)
    exact ⟨p.1, p.2, hi.symm⟩
  refine ⟨(weight_of_suffix_forkActs hT hitems hk).le, (weight_of_suffix_forkActs hT hitems hk).ge, hzero.ge,
    fun hne => absurd hzero hne, ?_, ?_, ?_⟩
  · rintro k' (heq | heq)
    · obtain ⟨t, x, hi⟩ := hfork heq
      cases hi
    · obtain ⟨t, x, hi⟩ := hfork heq
      cases hi
  · intro x k' heq
    obtain ⟨t, x, hi⟩ := hfork heq
    cases hi
  · intro l k' heq
    obtain ⟨t, x, hi⟩ := hfork heq
    cases hi

variable [DecidableEq τ] {a : Sync.State τ Sem Lck Cond Code Data}
  (ha : (T.atomicSystem main .threadTest).Reachable a)

include ha

theorem atSemaphore_of_reachable (t : τ) : AtSemaphore T t (a.code t) := by
  refine forall_within (fun k hk => hk.endings) ?_ (fun k hk => atSemaphore_forks hT hk)
    ((protocol_semaphore T).reachable hT rfl ha t)
  constructor <;> simp [Sync.weigh, items]

variable [Fintype τ]

/-- A number that a whole round of a loop does not change is known up to the rounds that have begun. -/
theorem conserved_rounds (y : Sem) (e : ℤ) (own : Code → ℤ) (g : Data → ℤ)
    (hloop : own .threadTest = 0 ∧
      ∀ loop, own (.producerSemaphore loop) = 0 ∧ own (.consumerSemaphore loop) = 0)
    (hflag : ∀ d f, g { d with barrierFlag := f } = g d)
    (hproduce : ∀ d, g { d with itemnum := d.itemnum + 1 } = g d + own .produce)
    (hconsume : ∀ d, g { d with itemnum := d.itemnum - 1 } = g d + own .consume)
    (hproducer : Sync.weight (Sync.weigh y e own) ((produceSemaphore (τ := τ)).flatMap Op.acts) = 0)
    (hconsumer : Sync.weight (Sync.weigh y e own) ((consumeSemaphore (τ := τ)).flatMap Op.acts) = 0) :
    g a.data + e * a.value y + Sync.total (Sync.weigh y e own) a = g Data.start + e * initialValue y := by
  have hforked : own .threadTest = (T.forked.map fun p => own p.2).sum := by
    refine hloop.1.trans (List.sum_eq_zero fun n hn => ?_).symm
    obtain ⟨p, hp, rfl⟩ := List.mem_map.1 hn
    have hstart := hT.starts p hp
    generalize p.2 = x at hstart
    cases hstart
    · exact (hloop.2 1).1
    · exact (hloop.2 1).2
  have hsum := (protocol_semaphore T).conserved (y := y) (e := e) hT rfl hforked hflag
    (fun t x k d hx => ?_) ha
  · rwa [hloop.1, add_zero] at hsum
  rcases own_semaphore hx with ⟨rfl, -⟩ | ⟨rfl, -⟩ | ⟨loop, rfl, -⟩ | ⟨loop, rfl, -⟩
  · exact (add_zero _).trans (hproduce d)
  · exact (add_zero _).trans (hconsume d)
  · simp only [Test.body]
    split_ifs <;> simp [List.flatMap_append, hproducer, Op.acts, Sync.weigh, hloop.2]
  · simp only [Test.body]
    split_ifs <;> simp [List.flatMap_append, hconsumer, Op.acts, Sync.weigh, hloop.2]

/-- What `itemnum` and the semaphores have to do with each other. -/
theorem conserved_semaphore :
    a.data.itemnum - a.value .full + Sync.total fullWeight a = 0 ∧
      a.data.itemnum + a.value .empty + Sync.total emptyWeight a = 10 ∧
      a.value .mutex + Sync.total mutexWeight a = 1 := by
  have hfull := conserved_rounds hT ha .full (-1) items Data.itemnum ⟨rfl, fun _ => ⟨rfl, rfl⟩⟩
    (fun _ _ => rfl) (fun _ => rfl) (fun _ => rfl) rfl rfl
  have hempty := conserved_rounds hT ha .empty 1 items Data.itemnum ⟨rfl, fun _ => ⟨rfl, rfl⟩⟩
    (fun _ _ => rfl) (fun _ => rfl) (fun _ => rfl) rfl rfl
  have hmutex := conserved_rounds hT ha .mutex 1 (fun _ => 0) (fun _ => 0) ⟨rfl, fun _ => ⟨rfl, rfl⟩⟩
    (fun _ _ => rfl) (fun _ => rfl) (fun _ => rfl) rfl rfl
  simp only [initialValue, Data.start] at hfull hempty hmutex
  refine ⟨?_, ?_, ?_⟩ <;> linarith

omit [Fintype τ] in
/-- A thread that cannot go on is outside. -/
theorem weights_of_resting {t : τ} {s : Kernel.State τ Sem Lck Cond Code Data} (h : Kernel.Resting s a t) :
    Sync.weight mutexWeight (a.code t) = 0 := by
  by_contra hne
  obtain ⟨i, k', hcode, hi⟩ := (atSemaphore_of_reachable hT ha t).inside hne
  rcases waits_of_resting h (atSemaphore_of_reachable hT ha t).noLock with ⟨hnil, -⟩ | ⟨x, k, hp, -⟩
  · rw [hnil] at hcode
    cases hcode
  · rw [hp] at hcode
    cases hcode
    simp at hi

end

variable [Fintype τ] [DecidableEq τ] {main : τ} {s : Kernel.State τ Sem Lck Cond Code Data}

/-- **The producers and consumers with semaphores keep to the buffer.**  However many producers and
consumers a test forks, in every state of a run there are between 0 and 10 items, and no two threads are
about to change their number. -/
theorem items_bounded (hT : T.Forks main StartsSemaphore) (h : (T.system main .threadTest).Reachable s) :
    0 ≤ s.data.itemnum ∧ s.data.itemnum ≤ 10 ∧
      ∀ t u, (∃ k, s.acts t = .own .produce :: k ∨ s.acts t = .own .consume :: k) →
        (∃ k, s.acts u = .own .produce :: k ∨ s.acts u = .own .consume :: k) → t = u := by
  obtain ⟨a, ha, hrefines, -⟩ := hT.exists_refines (fun x hx => hx.isTest) h
  obtain ⟨hfull, hempty, hmutex⟩ := conserved_semaphore hT ha
  have hat := atSemaphore_of_reachable hT ha
  have hvalue : ∀ x, 0 ≤ a.value x := Sync.value_nonneg ha initialValue_nonneg
  have htotal : Sync.total fullWeight a ≤ 0 := Finset.sum_nonpos fun t _ => (hat t).full_nonpos
  have htotal' : 0 ≤ Sync.total emptyWeight a := Finset.sum_nonneg fun t _ => (hat t).empty_nonneg
  rw [← hrefines.data, ← hrefines.code]
  refine ⟨?_, ?_, ?_⟩
  · have hnonneg := hvalue .full
    omega
  · have hnonneg := hvalue .empty
    omega
  · rintro t u ⟨k, ht⟩ ⟨k', hu⟩
    refine eq_of_weight_pos hmutex (hvalue .mutex) (fun t => (hat t).mutex_nonneg) ?_ ?_
    · rw [(hat t).critical k ht]
      exact one_pos
    · rw [(hat u).critical k' hu]
      exact one_pos

/-- A test with a producer, `some false`, and a consumer, `some true`. -/
def oneEach : Test (Option Bool) :=
  ⟨[some false, some true], [(some false, .producerSemaphore 1), (some true, .consumerSemaphore 1)], 0⟩

theorem forks_oneEach : oneEach.Forks none StartsSemaphore where
  nodup := by decide
  main_notMem := by decide
  starts := by
    simp only [oneEach, List.forall_mem_cons]
    exact ⟨.producer, .consumer, nofun⟩

/-- The producer runs while the consumer is about to change `itemnum`. -/
theorem items_bounded_oneEach : ∃ s : Kernel.State (Option Bool) Sem Lck Cond Code Data,
    s.currentThread = some false ∧ (∃ k, s.acts (some true) = .own .consume :: k) ∧
      s.data.itemnum = 2 ∧ s.data.itemnum ≤ 10 ∧ ∀ k, s.acts (some false) ≠ .own .produce :: k := by
  have hrun : (oneEach.after none .threadTest 158).map (fun s => (s.currentThread, s.acts (some true),
      s.data.itemnum)) = some (some false, [.own .consume, .v .mutex, .v .empty,
        .own (.consumerSemaphore 2)], 2) := by decide +kernel
  obtain ⟨s, hs, hfacts⟩ := Option.map_eq_some_iff.1 hrun
  obtain ⟨hcurrent, hconsume, hitem⟩ : s.currentThread = some false ∧ _ ∧ s.data.itemnum = 2 := by
    simpa only [Prod.mk.injEq] using hfacts
  obtain ⟨-, hle, hone⟩ := items_bounded forks_oneEach (Test.reachable_after hs)
  refine ⟨s, hcurrent, ⟨_, hconsume⟩, hitem, hle, fun k hk => ?_⟩
  cases hone (some false) (some true) ⟨k, .inl hk⟩ ⟨_, .inr hconsume⟩

/-- **They never block each other.**  When the processor finds nobody to run, every thread that was
forked has finished, but for consumers that wait for an item when there is none, or producers that wait
for room when there are 10. -/
theorem rest_semaphore (hT : T.Forks main StartsSemaphore) (h : (T.system main .threadTest).Reachable s)
    (hnobody : s.NobodyReady) (t : τ) :
    s.status t = .justCreated ∨ s.finished t = true ∨
      (t, .consumerSemaphore 1) ∈ T.forked ∧ t ∈ (s.semaphore (.inl .full)).queue ∧ s.data.itemnum = 0 ∨
      (t, .producerSemaphore 1) ∈ T.forked ∧ t ∈ (s.semaphore (.inl .empty)).queue ∧
        s.data.itemnum = 10 := by
  obtain ⟨a, ha, hrefines, hresting⟩ := hT.exists_refines (fun x hx => hx.isTest) h
  obtain ⟨hfull, hempty, hmutex⟩ := conserved_semaphore hT ha
  have hat := atSemaphore_of_reachable hT ha
  -- nobody is inside, so `mutex` is free and no thread waits for it
  have hfree : a.value .mutex = 1 := by
    rw [show Sync.total mutexWeight a = 0 from
      Finset.sum_eq_zero fun t _ => weights_of_resting hT ha (hresting hnobody t)] at hmutex
    omega
  have hwaits := fun t => waits_of_resting (hresting hnobody t) (hat t).noLock
  have hpause : ∀ t, Sync.weight fullWeight (a.code t) = 0 ∧ Sync.weight emptyWeight (a.code t) = 0 := by
    intro t
    rcases hwaits t with ⟨hcode, -⟩ | ⟨x, k, hcode, -, hvalue⟩
    · rw [hcode]
      exact ⟨rfl, rfl⟩
    · rcases (hat t).resting _ _ hcode with rfl | ⟨-, hzero⟩
      · rw [hvalue] at hfree
        cases hfree
      · exact hzero
  rw [show Sync.total fullWeight a = 0 from Finset.sum_eq_zero fun t _ => (hpause t).1] at hfull
  rw [show Sync.total emptyWeight a = 0 from Finset.sum_eq_zero fun t _ => (hpause t).2] at hempty
  rw [← hrefines.data]
  rcases hwaits t with ⟨-, hstatus | hfinished⟩ | ⟨x, k, hcode, hqueue, hvalue⟩
  · exact .inl hstatus
  · exact .inr (.inl hfinished)
  · rcases (hat t).resting _ _ hcode with rfl | ⟨⟨rfl, hforked⟩ | ⟨rfl, hforked⟩, -⟩
    · rw [hvalue] at hfree
      cases hfree
    · refine .inr (.inr (.inl ⟨hforked, hqueue, ?_⟩))
      omega
    · refine .inr (.inr (.inr ⟨hforked, hqueue, ?_⟩))
      omega

/-- The producer has finished, and the consumer waits for the next item. -/
theorem rest_semaphore_oneEach : ∃ s : Kernel.State (Option Bool) Sem Lck Cond Code Data,
    s.finished (some false) = true ∧ s.finished (some true) = false ∧
      some true ∈ (s.semaphore (.inl .full)).queue ∧ s.data.itemnum = 0 := by
  have hrun : (oneEach.after none .threadTest 557).map
      (fun s => decide (s.readyList = [] ∧ s.code = [.sleep, .p (.inl .full), .restore] ∧
        s.status (some true) = .blocked ∧ s.finished (some true) = false ∧
        s.finished (some false) = true)) = some true := by decide +kernel
  obtain ⟨s, hs, hfacts⟩ := Option.map_eq_some_iff.1 hrun
  obtain ⟨hready, hcode, hstatus, hconsumer, hproducer⟩ := of_decide_eq_true hfacts
  have hrest := rest_semaphore forks_oneEach (Test.reachable_after hs) ⟨hready, _, hcode⟩ (some true)
  rw [hstatus, hconsumer] at hrest
  exact ⟨s, hproducer, hconsumer, by simpa [oneEach] using hrest⟩

end Nachos.ThreadTest
