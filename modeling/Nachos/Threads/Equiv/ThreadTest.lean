import Nachos.Threads.Equiv.Discipline
import Nachos.Threads.ThreadTest

/-!
# The thread tests on the kernel

A test that forks every thread once uses the kernel as expected, so what holds of its threads in the
atomic machine holds of them in the kernel.
-/

namespace Nachos.Kernel

variable {τ σ μ κ ξ : Type} {lockOf : κ → μ} {last : ξ → Bool}

/-- A call that `Tidy` allows everywhere. -/
def Op.Plain (lockOf : κ → μ) (last : ξ → Bool) : Op τ σ μ κ ξ → Prop
  | .wait c l => l = lockOf c
  | .finish => False
  | .own x => last x = false
  | .fork _ func => last func = false
  | _ => True

theorem tidy_append {ops more : List (Op τ σ μ κ ξ)} (hops : ∀ op ∈ ops, op.Plain lockOf last)
    (hmore : Tidy lockOf last more) : Tidy lockOf last (ops ++ more) := by
  induction ops with
  | nil => exact hmore
  | cons op ops ih =>
    rw [List.forall_mem_cons] at hops
    have hrest := ih hops.2
    cases op with
    | wait c l => exact ⟨hops.1, hrest⟩
    | finish => exact hops.1.elim
    | own x => exact ⟨fun hlast => absurd (hops.1.symm.trans hlast) Bool.false_ne_true, hrest⟩
    | fork t func => exact ⟨hops.1, hrest⟩
    | _ => exact hrest

end Nachos.Kernel

namespace Nachos.ThreadTest

open Kernel (Op Tidy)

variable {τ : Type}

/-- The code of a main thread. -/
def Code.isTest : Code → Bool
  | .threadTest => true
  | .threadTest4 => true
  | _ => false

/-- A test forks every thread once, not its main thread, and with one of the functions `starts`. -/
structure Test.Forks (T : Test τ) (main : τ) (starts : Code → Prop) : Prop where
  nodup : (T.forked.map Prod.fst).Nodup
  main_notMem : main ∉ T.forked.map Prod.fst
  starts : ∀ p ∈ T.forked, starts p.2

variable {T : Test τ} {main : τ} {starts : Code → Prop}

theorem exec_eq {t : τ} {x : Code} {d d' : Data} {ops : List (Op τ Sem Lck Cond Code)}
    (h : T.program.exec t x d d' ops) : d' = (T.body x d).1 ∧ ops = (T.body x d).2 := by
  have hbody : T.body x d = (d', ops) := Option.some.inj h
  rw [hbody]
  exact ⟨rfl, rfl⟩

/-- The threads' functions fork nobody, and do not call `Finish`. -/
theorem plain_body {x : Code} (hx : x.isTest = false) (d : Data) :
    ∀ op ∈ (T.body x d).2, op.Plain lockOf Code.isTest ∧ ∀ t func, op ≠ .fork t func := by
  cases x with
  | threadTest => cases hx
  | threadTest4 => cases hx
  | waitIfEmpty =>
    simp only [Test.body]
    split_ifs <;> simp [Op.Plain, lockOf]
  | arrive which =>
    simp only [Test.body]
    split_ifs <;> simp [Op.Plain, lockOf]
  | barrierFunction which i =>
    simp only [Test.body]
    split_ifs <;> simp [Op.Plain, Code.isTest]
  | barrierCount which i n =>
    simp only [Test.body]
    split_ifs <;> simp [Op.Plain, Code.isTest, passBarrier]
  | produce => simp [Test.body]
  | consume => simp [Test.body]
  | add which n => simp [Test.body]
  | _ =>
    simp only [Test.body]
    split_ifs <;> simp [Op.Plain, Code.isTest, produceSemaphore, consumeSemaphore, produceCond, consumeCond,
      dine, dineDeadlock, serverGet, serverRet]

theorem tidy_main (h : T.Forks main starts) (hstarts : ∀ x, starts x → x.isTest = false) :
    Tidy lockOf Code.isTest T.main := by
  refine Kernel.tidy_append ?_ rfl
  intro op hop
  simp only [List.mem_append, List.mem_map, List.mem_replicate] at hop
  rcases hop with (⟨t, -, rfl⟩ | ⟨p, hp, rfl⟩) | ⟨-, rfl⟩
  · trivial
  · exact hstarts _ (h.starts p hp)
  · trivial

variable [DecidableEq τ]

/-- How often a piece of code forks a thread. -/
def Test.forks (T : Test τ) (t : τ) (x : Code) : ℕ :=
  if x.isTest = true then (T.forked.map Prod.fst).count t else 0

theorem forks_of_plain {op : Op τ Sem Lck Cond Code} (hop : op.Plain lockOf Code.isTest)
    (hfork : ∀ t func, op ≠ .fork t func) (t : τ) : op.forks T.forks t = 0 := by
  cases op with
  | own x =>
    have hx : x.isTest = false := hop
    simp [Op.forks, Test.forks, hx]
  | fork u func => exact absurd rfl (hfork u func)
  | _ => rfl

theorem forks_main (h : T.Forks main starts) (hstarts : ∀ x, starts x → x.isTest = false) (t : τ) :
    (T.main.map (Op.forks T.forks t)).sum = (T.forked.map Prod.fst).count t := by
  have hfork : T.forked.map (fun p => (.fork p.1 p.2 : Op τ Sem Lck Cond Code).forks T.forks t) =
      T.forked.map fun p => if p.1 = t then 1 else 0 := by
    refine List.map_congr_left fun p hp => ?_
    simp [Op.forks, Test.forks, hstarts _ (h.starts p hp)]
  have hcount : ∀ forked : List (τ × Code),
      (forked.map fun p => if p.1 = t then 1 else 0).sum = (forked.map Prod.fst).count t := by
    intro forked
    induction forked with
    | nil => rfl
    | cons p forked ih =>
      rw [List.map_cons, List.sum_cons, ih, List.map_cons, List.count_cons, add_comm]
      simp
  simp only [Test.main, List.map_append, List.sum_append, List.map_map, Function.comp_def, hfork, hcount]
  simp [Op.forks]

/-- A test uses the kernel as expected. -/
theorem Test.Forks.disciplined (h : T.Forks main starts) (hstarts : ∀ x, starts x → x.isTest = false)
    (func : Code) : T.program.Disciplined lockOf Code.isTest T.forks main func where
  tidy := by
    rintro t x d d' ops more hexec ⟨hlast, htidy⟩
    obtain ⟨-, rfl⟩ := exec_eq hexec
    by_cases hx : x.isTest = true
    · rw [hlast hx, List.append_nil]
      cases x with
      | threadTest => exact tidy_main h hstarts
      | threadTest4 => exact tidy_main h hstarts
      | _ => cases hx
    · exact Kernel.tidy_append (fun op hop => (plain_body (eq_false_of_ne_true hx) d op hop).1) htidy
  forks_le := by
    intro t u x d d' ops hexec
    obtain ⟨-, rfl⟩ := exec_eq hexec
    by_cases hx : x.isTest = true
    · refine le_of_eq (Eq.trans ?_ (if_pos hx).symm)
      cases x with
      | threadTest => exact forks_main h hstarts t
      | threadTest4 => exact forks_main h hstarts t
      | _ => cases hx
    · refine (List.sum_eq_zero ?_).trans_le (Nat.zero_le _)
      intro n hn
      obtain ⟨op, hop, rfl⟩ := List.mem_map.1 hn
      have hplain := plain_body (eq_false_of_ne_true hx) d op hop
      exact forks_of_plain hplain.1 hplain.2 t
  once := by
    intro t
    have hle := List.nodup_iff_count_le_one.1 h.nodup t
    have hmain := List.count_eq_zero_of_not_mem h.main_notMem
    unfold Test.forks
    split_ifs with hx ht ht
    · rw [ht, hmain]
    · exact hle
    · exact le_rfl
    · exact Nat.zero_le _

/-- A test after `n` steps of a processor that the devices leave alone. -/
def Test.after (T : Test τ) (main : τ) (func : Code) (n : ℕ) :
    Option (Kernel.State τ Sem Lck Cond Code Data) :=
  (fun o => o.bind (Kernel.State.next fun x d => some (T.body x d)))^[n]
    (some (Kernel.start main func initialValue Data.start))

theorem Test.reachable_after {func : Code} {n : ℕ} {s : Kernel.State τ Sem Lck Cond Code Data}
    (h : T.after main func n = some s) : (T.system main func).Reachable s := by
  refine Transition.System.Reachable.iterate (fun s s' hnext => ?_) n (.of_init rfl) h
  exact ⟨(), Kernel.Step.of_next (fun _ _ _ _ _ h => h) hnext⟩

/-! ### The atomic machine -/

/-- What a thread of a test can do next. -/
abbrev Act (τ : Type) := Sync.Act τ Sem Lck Cond Code

/-- The runs of the atomic machine. -/
def Test.atomicSystem (T : Test τ) (main : τ) (func : Code) :
    Transition.System (Sync.State τ Sem Lck Cond Code Data) Unit :=
  Kernel.atomicSystem T.program lockOf main func initialValue Data.start

theorem initialValue_nonneg (x : Sem) : 0 ≤ initialValue x := by
  cases x <;> exact Int.natCast_nonneg _

/-- Every state of a test is what the threads see of a state of the atomic machine. -/
theorem Test.Forks.exists_refines [Fintype τ] (h : T.Forks main starts)
    (hstarts : ∀ x, starts x → x.isTest = false) {func : Code}
    {s : Kernel.State τ Sem Lck Cond Code Data} (hreach : (T.system main func).Reachable s) :
    ∃ a, (T.atomicSystem main func).Reachable a ∧ Kernel.Refines lockOf s a ∧
      (s.NobodyReady → ∀ t, Kernel.Resting s a t) := by
  obtain ⟨hknown, a, ha, hrefines⟩ :=
    Kernel.exists_refines ((h.disciplined hstarts func).reachable hreach).1
  refine ⟨a, ha, hrefines, hrefines.resting hknown (Sync.value_nonneg ha ?_)⟩
  exact initialValue_nonneg

/-- The forks of a main thread. -/
def Test.forkActs (T : Test τ) : List (Act τ) := T.forked.map fun p => .fork p.1 p.2

omit [DecidableEq τ] in
theorem acts_main : T.main.flatMap Op.acts = T.forkActs := by
  have hcreated : (T.created.map fun t => (.create t : Op τ Sem Lck Cond Code)).flatMap Op.acts = [] := by
    simp [Op.acts]
  have hyield : (List.replicate T.rounds (.yield : Op τ Sem Lck Cond Code)).flatMap Op.acts = [] := by
    simp [Op.acts]
  have hforked : (T.forked.map fun p => (.fork p.1 p.2 : Op τ Sem Lck Cond Code)).flatMap Op.acts =
      T.forkActs := by
    rw [List.flatMap_map, Test.forkActs, List.map_eq_flatMap]
    rfl
  unfold Test.main
  rw [List.flatMap_append, List.flatMap_append, List.flatMap_append, hcreated, hyield, hforked]
  simp [Op.acts]

/-- The code of the threads whose functions do what is in `B`, and of the main thread. -/
def Test.Bodies (T : Test τ) (func : Code) (B : List (Act τ) → Prop) (k : List (Act τ)) : Prop :=
  B k ∨ k = [.own func] ∨ k = T.forkActs

/-- The lists `B t` are closed under what the thread's function does. -/
structure Protocol (T : Test τ) (starts : Code → Prop) (B : τ → List (Act τ) → Prop) : Prop where
  start : ∀ p ∈ T.forked, starts p.2 → Sync.Within (B p.1) [.own p.2]
  own : ∀ t x k d, Sync.Within (B t) (.own x :: k) →
    Sync.Within (B t) ((T.body x d).2.flatMap Op.acts ++ k)
  broadcast : ∀ t c k, Sync.Within (B t) (.broadcast c :: k) →
    Sync.Within (B t) (.signal c :: .broadcast c :: k)
  fork : ∀ t u x k, ¬ Sync.Within (B t) (.fork u x :: k)

variable {B : τ → List (Act τ) → Prop} {func : Code}

omit [DecidableEq τ] in
theorem within_bodies {B : List (Act τ) → Prop} {k : List (Act τ)} :
    Sync.Within (T.Bodies func B) k ↔ Sync.Within B k ∨ k = [.own func] ∨ k <:+ T.forkActs := by
  constructor
  · rintro ⟨k₀, hB | rfl | rfl, hk⟩
    · exact .inl ⟨k₀, hB, hk⟩
    · rw [List.suffix_cons_iff, List.suffix_nil] at hk
      rcases hk with rfl | rfl
      · exact .inr (.inl rfl)
      · exact .inr (.inr (List.nil_suffix))
    · exact .inr (.inr hk)
  · rintro (⟨k₀, hB, hk⟩ | rfl | hk)
    · exact ⟨k₀, .inl hB, hk⟩
    · exact ⟨_, .inr (.inl rfl), List.suffix_rfl⟩
    · exact ⟨_, .inr (.inr rfl), hk⟩

omit [DecidableEq τ] in
/-- What holds wherever a thread can be in the lists `B`, and of the main thread. -/
theorem forall_within {B F : List (Act τ) → Prop} (hB : ∀ k, B k → Sync.Endings F k) (hmain : F [.own func])
    (hforks : ∀ k, k <:+ T.forkActs → F k) {k : List (Act τ)} (h : Sync.Within (T.Bodies func B) k) :
    F k := by
  rcases within_bodies.1 h with hwithin | rfl | hk
  · exact hwithin.of_endings hB
  · exact hmain
  · exact hforks k hk

omit [DecidableEq τ] in
theorem Protocol.keeps (hB : Protocol T starts B) (h : T.Forks main starts) (hfunc : func.isTest = true) :
    Sync.Keeps (T.program.atomic lockOf) fun t => Sync.Within (T.Bodies func (B t)) where
  own := by
    rintro t x d d' more k ⟨ops, hexec, rfl⟩ hended
    obtain ⟨-, rfl⟩ := exec_eq hexec
    refine Sync.Within.endings ?_
    rcases within_bodies.1 hended.self with hwithin | hmain | hforks
    · exact within_bodies.2 (.inl (hB.own t x k d hwithin))
    · obtain ⟨rfl, rfl⟩ : x = func ∧ k = [] := by simpa using hmain
      refine within_bodies.2 (.inr (.inr ?_))
      rw [List.append_nil, ← acts_main]
      cases x with
      | threadTest => exact List.suffix_rfl
      | threadTest4 => exact List.suffix_rfl
      | _ => cases hfunc
    · have hmem := hforks.subset List.mem_cons_self
      simp [Test.forkActs] at hmem
  broadcast := by
    intro t c k hended
    refine within_bodies.2 ?_
    rcases within_bodies.1 hended.self with hwithin | hmain | hforks
    · exact .inl (hB.broadcast t c k hwithin)
    · simp at hmain
    · have hmem := hforks.subset List.mem_cons_self
      simp [Test.forkActs] at hmem
  fork := by
    intro t u x k hwithin
    refine Sync.Within.endings (within_bodies.2 (.inl ?_))
    rcases within_bodies.1 hwithin with hwithin | hmain | hforks
    · exact absurd hwithin (hB.fork t u x k)
    · simp at hmain
    · have hmem := hforks.subset List.mem_cons_self
      obtain ⟨p, hp, heq⟩ := List.mem_map.1 hmem
      obtain ⟨rfl, rfl⟩ : p.1 = u ∧ p.2 = x := by simpa using heq
      exact hB.start p hp (h.starts p hp)
  handle := by
    rintro t x d d' vs k ⟨-, rfl⟩ hended
    exact hended

/-- **Every thread of a test is somewhere in one of its functions.** -/
theorem Protocol.reachable (hB : Protocol T starts B) (h : T.Forks main starts) (hfunc : func.isTest = true)
    {a : Sync.State τ Sem Lck Cond Code Data} (hreach : (T.atomicSystem main func).Reachable a) (t : τ) :
    Sync.Within (T.Bodies func (B t)) (a.code t) := by
  refine ((hB.keeps h hfunc).reachable (fun t => ?_) hreach t).self
  refine Sync.Within.endings (within_bodies.2 (.inr ?_))
  rw [Function.update_apply]
  split_ifs
  · exact .inl rfl
  · exact .inr List.nil_suffix

/-! ### Weights -/

section

variable [Fintype τ] {y : Sem} {e : ℤ} {own : Code → ℤ} {g : Data → ℤ}
  {a : Sync.State τ Sem Lck Cond Code Data}

omit [DecidableEq τ] [Fintype τ] in
/-- The weight of the forks is that of the threads' functions. -/
theorem weight_forkActs (T : Test τ) (y : Sem) (e : ℤ) (own : Code → ℤ) :
    Sync.weight (Sync.weigh y e own) T.forkActs = (T.forked.map fun p => own p.2).sum := by
  rw [Sync.weight, Test.forkActs, List.map_map]
  rfl

/-- **Conservation in a test**: a number `g` of the data and `e` times a semaphore change as the threads
proceed. -/
theorem Protocol.conserved (hB : Protocol T starts B) (h : T.Forks main starts) (hfunc : func.isTest = true)
    (hmain : own func = (T.forked.map fun p => own p.2).sum)
    (hflag : ∀ d f, g { d with barrierFlag := f } = g d)
    (hown : ∀ t x k d, Sync.Within (B t) (.own x :: k) →
      g (T.body x d).1 + Sync.weight (Sync.weigh y e own) ((T.body x d).2.flatMap Op.acts) = g d + own x)
    (hreach : (T.atomicSystem main func).Reachable a) :
    g a.data + e * a.value y + Sync.total (Sync.weigh y e own) a =
      g Data.start + e * initialValue y + own func := by
  have hbalanced : Sync.Balanced (T.program.atomic lockOf)
      (fun x => x = func ∨ ∃ t k, Sync.Within (B t) (.own x :: k)) (Sync.weigh y e own)
      fun value d => g d + e * value y := by
    refine Sync.balanced_weigh ?_ ?_
    · rintro t x d d' more hx ⟨ops, hexec, rfl⟩
      obtain ⟨rfl, rfl⟩ := exec_eq hexec
      rcases hx with rfl | ⟨u, k, hk⟩
      · rw [hmain, ← weight_forkActs T y e own, ← acts_main]
        cases x with
        | threadTest => rfl
        | threadTest4 =>
          rw [← hflag d fun _ => 0]
          rfl
        | _ => cases hfunc
      · exact hown u x k d hk
    · rintro x d d' vs ⟨rfl, rfl⟩
      exact add_zero _
  have hsum := hbalanced.reachable ?_ hreach
  · have hstart := Sync.sum_update (Sync.weight (Sync.weigh y e own)) (fun _ => ([] : List (Act τ))) main
      [.own func]
    simp only [Sync.weight_nil, Sync.weight_cons, Finset.sum_const_zero, add_zero, zero_add] at hstart
    rw [hsum, hstart]
    rfl
  · intro a ha t x k hcode
    have hwithin := hB.reachable h hfunc ha t
    rw [hcode] at hwithin
    rcases within_bodies.1 hwithin with hwithin | hfunc' | hforks
    · exact .inr ⟨t, k, hwithin⟩
    · cases hfunc'
      exact .inl rfl
    · have hmem := hforks.subset List.mem_cons_self
      simp [Test.forkActs] at hmem

omit [DecidableEq τ] [Fintype τ] in
/-- The forks that are left weigh nothing when the functions do. -/
theorem weight_of_suffix_forkActs (h : T.Forks main starts) (hown : ∀ x, starts x → own x = 0)
    {k : List (Act τ)} (hk : k <:+ T.forkActs) : Sync.weight (Sync.weigh y e own) k = 0 := by
  refine List.sum_eq_zero fun n hn => ?_
  obtain ⟨i, hi, rfl⟩ := List.mem_map.1 hn
  obtain ⟨p, hp, rfl⟩ := List.mem_map.1 (hk.subset hi)
  exact hown _ (h.starts p hp)

/-! ### A semaphore that starts at 1 -/

/-- At most one thread has yet to give it back. -/
theorem eq_of_weight_pos {w : Act τ → ℤ} (hsum : a.value y + Sync.total w a = 1) (hvalue : 0 ≤ a.value y)
    (hnonneg : ∀ t, 0 ≤ Sync.weight w (a.code t)) {t u : τ} (ht : 0 < Sync.weight w (a.code t))
    (hu : 0 < Sync.weight w (a.code u)) : t = u := by
  by_contra hne
  have hle := Sync.weight_add_le_total hnonneg hne
  omega

omit [DecidableEq τ] in
/-- When it is 0, some thread has. -/
theorem exists_weight_pos {w : Act τ → ℤ} (hsum : a.value y + Sync.total w a = 1) (hzero : a.value y = 0) :
    ∃ t, 0 < Sync.weight w (a.code t) := by
  by_contra hnone
  have htotal : Sync.total w a ≤ 0 := Finset.sum_nonpos fun t _ => not_lt.1 fun ht => hnone ⟨t, ht⟩
  omega

omit [DecidableEq τ] [Fintype τ] in
/-- A thread that cannot go on and takes no lock has finished, was never forked, or waits for a
semaphore. -/
theorem waits_of_resting {s : Kernel.State τ Sem Lck Cond Code Data} {t : τ} (h : Kernel.Resting s a t)
    (hlock : ∀ l k, a.code t ≠ .acquire l :: k) :
    a.code t = [] ∧ (s.status t = .justCreated ∨ s.finished t = true) ∨
      ∃ x k, a.code t = .p x :: k ∧ t ∈ (s.semaphore (.inl x)).queue ∧ a.value x = 0 := by
  cases h with
  | unforked hstatus hcode => exact .inl ⟨hcode, .inl hstatus⟩
  | finished hfinished hcode => exact .inl ⟨hcode, .inr hfinished⟩
  | semaphore hqueue hcode hvalue => exact .inr ⟨_, _, hcode, hqueue, hvalue⟩
  | lock _ hcode _ => exact absurd hcode (hlock _ _)
  | condition _ hcode => exact absurd hcode (hlock _ _)

end

end Nachos.ThreadTest
