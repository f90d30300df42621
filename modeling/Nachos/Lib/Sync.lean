import Mathlib.Algebra.BigOperators.Group.List.Basic
import Mathlib.Algebra.BigOperators.Ring.Finset
import Mathlib.Algebra.Order.BigOperators.Group.Finset
import Mathlib.Data.Int.Order.Basic
import Mathlib.Data.List.Infix
import Mathlib.Tactic.Abel
import Mathlib.Tactic.Linarith
import Mathlib.Tactic.Ring
import Nachos.Lib.Transition

/-!
# Threads with atomic synchronisation

Any number of threads, each a list of the actions it has left, share semaphores, locks, conditions
and data of their own.  Every action is one step, and the steps of the threads come in any order: a
semaphore is a number, a lock knows its owner, `wait` gives up the lock of its condition and joins
the waiting list at once, and a thread on a waiting list takes its lock back only after it has been
signalled.  The threads' own code is a parameter.

Weights are a way to reason about such programs that does not look at the order of the steps.  Give
every action a weight, and let `f` be a number read off the semaphores and the data that every action
changes by its weight.  Then `f` plus the weight of all that is left to do is the same in all states of a
run (`Balanced.reachable`); and what holds of the weights of all endings of the code that is put in place
holds of all the code there ever is (`Endings`).
-/

namespace Sync

variable {τ σ μ κ ξ δ : Type}

/-- What a thread can do next; threads are named by `τ`, semaphores by `σ`, locks by `μ`, conditions
by `κ` and the threads' own code by `ξ`. -/
inductive Act (τ σ μ κ ξ : Type) where
  | p (x : σ)
  | v (x : σ)
  | acquire (l : μ)
  | release (l : μ)
  /-- Give up the lock of `c` and go onto its waiting list. -/
  | wait (c : κ)
  | signal (c : κ)
  | broadcast (c : κ)
  | own (x : ξ)
  /-- Start the thread `t` with the code `x`. -/
  | fork (t : τ) (x : ξ)
  deriving DecidableEq

/-- The lock of every condition, the threads' own code, and the interrupt handlers: what a piece of
code can turn the data into, and what it goes on with. -/
structure Program (τ σ μ κ ξ δ : Type) where
  lockOf : κ → μ
  exec : τ → ξ → δ → δ → List (Act τ σ μ κ ξ) → Prop
  handle : ξ → δ → δ → List σ → Prop

structure State (τ σ μ κ ξ δ : Type) where
  value : σ → ℤ
  owner : μ → Option τ
  waiting : κ → List τ
  code : τ → List (Act τ σ μ κ ξ)
  data : δ

variable [DecidableEq τ] [DecidableEq σ] [DecidableEq μ] [DecidableEq κ] {value : σ → ℤ}
  {code : τ → List (Act τ σ μ κ ξ)} {k : List (Act τ σ μ κ ξ)}

/-- `t` has `k` left to do. -/
def State.goto (a : State τ σ μ κ ξ δ) (t : τ) (k : List (Act τ σ μ κ ξ)) : State τ σ μ κ ξ δ :=
  { a with code := Function.update a.code t k }

/-- The owners when `t` gives up the lock `l`, if it has it. -/
def State.freed (a : State τ σ μ κ ξ δ) (t : τ) (l : μ) : μ → Option τ :=
  if a.owner l = some t then Function.update a.owner l none else a.owner

inductive Step (P : Program τ σ μ κ ξ δ) (a : State τ σ μ κ ξ δ) : State τ σ μ κ ξ δ → Prop where
  | p {t x k} (hcode : a.code t = .p x :: k) (hvalue : a.value x ≠ 0) :
      Step P a { a.goto t k with value := Function.update a.value x (a.value x - 1) }
  | v {t x k} (hcode : a.code t = .v x :: k) :
      Step P a { a.goto t k with value := Function.update a.value x (a.value x + 1) }
  | acquire {t l k} (hcode : a.code t = .acquire l :: k) (howner : a.owner l = none)
      (hwaiting : ∀ c, t ∉ a.waiting c) :
      Step P a { a.goto t k with owner := Function.update a.owner l (some t) }
  | release {t l k} (hcode : a.code t = .release l :: k) :
      Step P a { a.goto t k with owner := a.freed t l }
  | wait {t c k} (hcode : a.code t = .wait c :: k) :
      Step P a { a.goto t k with
        owner := a.freed t (P.lockOf c)
        waiting := Function.update a.waiting c (a.waiting c ++ [t]) }
  | signal {t c k} (hcode : a.code t = .signal c :: k) :
      Step P a { a.goto t k with waiting := Function.update a.waiting c (a.waiting c).tail }
  /-- A broadcast signals until nobody waits. -/
  | broadcast {t c k} (hcode : a.code t = .broadcast c :: k) :
      Step P a (a.goto t (if a.waiting c = [] then k else .signal c :: .broadcast c :: k))
  | own {t x k d more} (hcode : a.code t = .own x :: k) (hexec : P.exec t x a.data d more) :
      Step P a { a.goto t (more ++ k) with data := d }
  | fork {t u x k} (hcode : a.code t = .fork u x :: k) (hne : u ≠ t) (hnew : a.code u = []) :
      Step P a ((a.goto t k).goto u [.own x])
  /-- A handler runs on top of whatever `t` has to do. -/
  | interrupt {t x d vs} (hhandle : P.handle x a.data d vs) :
      Step P a { a.goto t (vs.map .v ++ a.code t) with data := d }

/-- The runs from a state in which all locks are free and nobody waits. -/
def system (P : Program τ σ μ κ ξ δ) (value : σ → ℤ) (code : τ → List (Act τ σ μ κ ξ)) (d : δ) :
    Transition.System (State τ σ μ κ ξ δ) Unit where
  init a := a = ⟨value, fun _ => none, fun _ => [], code, d⟩
  step a _ a' := Step P a a'

omit [DecidableEq μ] [DecidableEq κ] in
theorem nonneg_update (h : ∀ x, 0 ≤ value x) {x : σ} {n : ℤ} (hn : 0 ≤ n) (y : σ) :
    0 ≤ Function.update value x n y := by
  rw [Function.update_apply]
  split_ifs
  · exact hn
  · exact h y

/-- A semaphore that starts at a natural number never becomes negative. -/
theorem value_nonneg {P : Program τ σ μ κ ξ δ} {d : δ} {a : State τ σ μ κ ξ δ}
    (h : (system P value code d).Reachable a) (hvalue : ∀ x, 0 ≤ value x) : ∀ x, 0 ≤ a.value x := by
  refine @Transition.System.Reachable.invariant _ _ _ (fun a => ∀ x, 0 ≤ a.value x) _ h ?_ ?_
  · rintro _ rfl
    exact hvalue
  · intro a _ a' ha hstep
    cases hstep with
    | @p t x k hcode hne => exact nonneg_update ha (by have := ha x; omega)
    | @v t x k hcode => exact nonneg_update ha (by have := ha x; omega)
    | _ => exact ha

/-! ### Weights -/

section

omit [DecidableEq τ] [DecidableEq σ] [DecidableEq μ] [DecidableEq κ]

variable (w : Act τ σ μ κ ξ → ℤ)

/-- What a list of actions weighs. -/
def weight (k : List (Act τ σ μ κ ξ)) : ℤ := (k.map w).sum

@[simp] theorem weight_nil : weight w [] = 0 := rfl

@[simp] theorem weight_cons (i : Act τ σ μ κ ξ) (k : List (Act τ σ μ κ ξ)) :
    weight w (i :: k) = w i + weight w k := by
  rw [weight, List.map_cons, List.sum_cons, weight]

@[simp] theorem weight_append (k k' : List (Act τ σ μ κ ξ)) :
    weight w (k ++ k') = weight w k + weight w k' := by
  rw [weight, List.map_append, List.sum_append, weight, weight]

/-- What all threads have left to do weighs. -/
def total [Fintype τ] (a : State τ σ μ κ ξ δ) : ℤ := ∑ t, weight w (a.code t)

end

/-- A sum over all threads in which one summand changes. -/
theorem sum_update {β M : Type} [AddCommMonoid M] [Fintype τ] (g : β → M) (p : τ → β) (t : τ) (b : β) :
    (∑ u, g (Function.update p t b u)) + g (p t) = (∑ u, g (p u)) + g b := by
  have hrest : ∀ u ∈ Finset.univ.erase t, g (Function.update p t b u) = g (p u) := by
    intro u hu
    rw [Function.update_of_ne (Finset.ne_of_mem_erase hu)]
  rw [← Finset.add_sum_erase _ _ (Finset.mem_univ t), Finset.sum_congr rfl hrest, Function.update_self,
    ← Finset.add_sum_erase _ (fun u => g (p u)) (Finset.mem_univ t)]
  abel

omit [DecidableEq σ] [DecidableEq μ] [DecidableEq κ] in
theorem total_update [Fintype τ] (w : Act τ σ μ κ ξ → ℤ) {a a' : State τ σ μ κ ξ δ} {t : τ}
    (h : a'.code = Function.update a.code t k) :
    total w a' = total w a - weight w (a.code t) + weight w k := by
  have hsum := sum_update (weight w) a.code t k
  rw [← h] at hsum
  unfold total
  omega

omit [DecidableEq σ] [DecidableEq μ] [DecidableEq κ] in
/-- Two threads weigh at most as much as all, when none weighs less than nothing. -/
theorem weight_add_le_total [Fintype τ] {w : Act τ σ μ κ ξ → ℤ} {a : State τ σ μ κ ξ δ}
    (h : ∀ t, 0 ≤ weight w (a.code t)) {t u : τ} (htu : t ≠ u) :
    weight w (a.code t) + weight w (a.code u) ≤ total w a := by
  rw [← Finset.sum_pair (f := fun v => weight w (a.code v)) htu]
  exact Finset.sum_le_sum_of_subset_of_nonneg (Finset.subset_univ _) fun v _ _ => h v

/-- Every action changes the number `f` by its weight, if the threads' own code is among `A`. -/
structure Balanced (P : Program τ σ μ κ ξ δ) (A : ξ → Prop) (w : Act τ σ μ κ ξ → ℤ)
    (f : (σ → ℤ) → δ → ℤ) : Prop where
  p : ∀ value d x, f (Function.update value x (value x - 1)) d = f value d + w (.p x)
  v : ∀ value d x, f (Function.update value x (value x + 1)) d = f value d + w (.v x)
  acquire : ∀ l, w (.acquire l) = 0
  release : ∀ l, w (.release l) = 0
  wait : ∀ c, w (.wait c) = 0
  signal : ∀ c, w (.signal c) = 0
  broadcast : ∀ c, w (.broadcast c) = 0
  fork : ∀ t x, w (.fork t x) = w (.own x)
  own : ∀ t x d d' more value, A x → P.exec t x d d' more →
    f value d' + weight w more = f value d + w (.own x)
  handle : ∀ x d d' vs value, P.handle x d d' vs → f value d' + weight w (vs.map .v) = f value d

namespace Balanced

variable [Fintype τ] {P : Program τ σ μ κ ξ δ} {A : ξ → Prop} {w : Act τ σ μ κ ξ → ℤ} {f : (σ → ℤ) → δ → ℤ}
  {a a' : State τ σ μ κ ξ δ}

omit [DecidableEq σ] [DecidableEq μ] [DecidableEq κ] in
theorem of_update {t : τ} (hcode : a'.code = Function.update a.code t k)
    (hf : f a'.value a'.data + weight w k = f a.value a.data + weight w (a.code t)) :
    f a'.value a'.data + total w a' = f a.value a.data + total w a := by
  rw [total_update w hcode]
  omega

/-- What is done is taken off what is left to do. -/
theorem step (h : Balanced P A w f) (hA : ∀ t x k, a.code t = .own x :: k → A x) (hstep : Step P a a') :
    f a'.value a'.data + total w a' = f a.value a.data + total w a := by
  -- an action that changes neither semaphores nor data
  have hfree : ∀ {t i k}, a.code t = i :: k → w i = 0 →
      f a.value a.data + weight w k = f a.value a.data + weight w (a.code t) := by
    intro t i k hcode hi
    rw [hcode, weight_cons, hi, zero_add]
  cases hstep with
  | @p t x k hcode =>
    refine of_update (t := t) rfl ?_
    rw [hcode, weight_cons, ← add_assoc, ← h.p]
    rfl
  | @v t x k hcode =>
    refine of_update (t := t) rfl ?_
    rw [hcode, weight_cons, ← add_assoc, ← h.v]
    rfl
  | acquire hcode => exact of_update rfl (hfree hcode (h.acquire _))
  | release hcode => exact of_update rfl (hfree hcode (h.release _))
  | wait hcode => exact of_update rfl (hfree hcode (h.wait _))
  | signal hcode => exact of_update rfl (hfree hcode (h.signal _))
  | @broadcast t c k hcode =>
    refine of_update (t := t) rfl (Eq.trans ?_ (hfree hcode (h.broadcast c)))
    split_ifs
    · rfl
    · rw [weight_cons, weight_cons, h.signal, h.broadcast, zero_add, zero_add]
      rfl
  | @own t x k d more hcode hexec =>
    refine of_update (t := t) rfl ?_
    rw [hcode, weight_cons, weight_append, ← add_assoc, ← add_assoc,
      ← h.own t x a.data d more a.value (hA t x k hcode) hexec]
    rfl
  | @fork t u x k hcode hne hnew =>
    have hnew' : (a.goto t k).code u = [] := (Function.update_of_ne hne _ _).trans hnew
    have hold : total w (a.goto t k) = total w a - w (.own x) := by
      rw [total_update w rfl, hcode, weight_cons, h.fork]
      omega
    rw [total_update (a := a.goto t k) w rfl, hold, hnew', weight_cons, weight_nil]
    change f a.value a.data + _ = _
    omega
  | @interrupt t x d vs hhandle =>
    refine of_update (t := t) rfl ?_
    rw [weight_append, ← add_assoc, ← h.handle x a.data d vs a.value hhandle]
    rfl

/-- **Conservation**: `f` and the weight of what is left to do have the same sum in all states of a
run. -/
theorem reachable (h : Balanced P A w f) {d : δ}
    (hA : ∀ a, (system P value code d).Reachable a → ∀ t x k, a.code t = .own x :: k → A x)
    (hreach : (system P value code d).Reachable a) :
    f a.value a.data + total w a = f value d + ∑ t, weight w (code t) := by
  refine (@Transition.System.Reachable.invariant _ _ _ (fun a => (system P value code d).Reachable a ∧
    f a.value a.data + total w a = f value d + ∑ t, weight w (code t)) _ hreach ?_ ?_).2
  · rintro _ rfl
    exact ⟨.of_init rfl, rfl⟩
  · rintro s _ s' ⟨hs, hsum⟩ hstep
    exact ⟨hs.tail (a := ()) hstep, (h.step (hA s hs) hstep).trans hsum⟩

end Balanced

/-- The weights for a number `g` of the data and `e` times the semaphore `y`, when the code `x` weighs
`own x`. -/
def weigh (y : σ) (e : ℤ) (own : ξ → ℤ) : Act τ σ μ κ ξ → ℤ
  | .p x => if x = y then -e else 0
  | .v x => if x = y then e else 0
  | .own x => own x
  | .fork _ x => own x
  | _ => 0

omit [DecidableEq τ] [DecidableEq μ] [DecidableEq κ] in
theorem balanced_weigh {P : Program τ σ μ κ ξ δ} {A : ξ → Prop} {y : σ} {e : ℤ} {own : ξ → ℤ} {g : δ → ℤ}
    (hown : ∀ t x d d' more, A x → P.exec t x d d' more → g d' + weight (weigh y e own) more = g d + own x)
    (hhandle : ∀ x d d' vs, P.handle x d d' vs →
      g d' + weight (weigh y e own) (vs.map .v : List (Act τ σ μ κ ξ)) = g d) :
    Balanced P A (weigh y e own) fun value d => g d + e * value y where
  p value d x := by
    change _ = _ + if x = y then -e else 0
    by_cases hx : x = y
    · rw [hx, Function.update_self, if_pos rfl]
      ring
    · rw [Function.update_of_ne (Ne.symm hx), if_neg hx, add_zero]
  v value d x := by
    change _ = _ + if x = y then e else 0
    by_cases hx : x = y
    · rw [hx, Function.update_self, if_pos rfl]
      ring
    · rw [Function.update_of_ne (Ne.symm hx), if_neg hx, add_zero]
  acquire _ := rfl
  release _ := rfl
  wait _ := rfl
  signal _ := rfl
  broadcast _ := rfl
  fork _ _ := rfl
  own t x d d' more value hx hexec := by
    have hsum := hown t x d d' more hx hexec
    change g d' + e * value y + _ = g d + e * value y + own x
    linarith
  handle x d d' vs value hvs := by
    have hsum := hhandle x d d' vs hvs
    change g d' + e * value y + _ = g d + e * value y
    linarith

/-! ### Endings -/

section

omit [DecidableEq τ] [DecidableEq σ] [DecidableEq μ] [DecidableEq κ]

/-- `Q` holds of all endings of `k`. -/
def Endings (Q : List (Act τ σ μ κ ξ) → Prop) (k : List (Act τ σ μ κ ξ)) : Prop := ∀ k', k' <:+ k → Q k'

variable {Q : List (Act τ σ μ κ ξ) → Prop} {i : Act τ σ μ κ ξ}

theorem endings_nil : Endings Q [] ↔ Q [] := by
  unfold Endings
  simp only [List.suffix_nil, forall_eq]

theorem endings_cons : Endings Q (i :: k) ↔ Q (i :: k) ∧ Endings Q k := by
  unfold Endings
  simp only [List.suffix_cons_iff, forall_eq_or_imp]

theorem Endings.self (h : Endings Q k) : Q k := h k List.suffix_rfl

theorem Endings.tail (h : Endings Q (i :: k)) : Endings Q k := (endings_cons.1 h).2

end

/-- What is put in place of an action of the thread `t` keeps `Q t` for all endings. -/
structure Keeps (P : Program τ σ μ κ ξ δ) (Q : τ → List (Act τ σ μ κ ξ) → Prop) : Prop where
  own : ∀ t x d d' more k, P.exec t x d d' more → Endings (Q t) (.own x :: k) →
    Endings (Q t) (more ++ k)
  broadcast : ∀ t c k, Endings (Q t) (.broadcast c :: k) → Q t (.signal c :: .broadcast c :: k)
  fork : ∀ t u x k, Q t (.fork u x :: k) → Endings (Q u) [.own x]
  handle : ∀ t x d d' vs k, P.handle x d d' vs → Endings (Q t) k → Endings (Q t) (vs.map .v ++ k)

section

variable {P : Program τ σ μ κ ξ δ} {Q : τ → List (Act τ σ μ κ ξ) → Prop} {a a' : State τ σ μ κ ξ δ}

omit [DecidableEq σ] [DecidableEq μ] [DecidableEq κ] in
theorem endings_update {t : τ} (h : ∀ u, Endings (Q u) (code u)) (hk : Endings (Q t) k) (u : τ) :
    Endings (Q u) (Function.update code t k u) := by
  by_cases hut : u = t
  · subst hut
    rwa [Function.update_self]
  · rw [Function.update_of_ne hut]
    exact h u

theorem Keeps.step (hQ : Keeps P Q) (h : ∀ t, Endings (Q t) (a.code t)) (hstep : Step P a a') (u : τ) :
    Endings (Q u) (a'.code u) := by
  have hrest : ∀ {t i k}, a.code t = i :: k → Endings (Q t) (i :: k) := fun hcode => hcode ▸ h _
  cases hstep with
  | p hcode => exact endings_update h (hrest hcode).tail u
  | v hcode => exact endings_update h (hrest hcode).tail u
  | acquire hcode => exact endings_update h (hrest hcode).tail u
  | release hcode => exact endings_update h (hrest hcode).tail u
  | wait hcode => exact endings_update h (hrest hcode).tail u
  | signal hcode => exact endings_update h (hrest hcode).tail u
  | @broadcast t c k hcode =>
    refine endings_update h ?_ u
    split_ifs
    · exact (hrest hcode).tail
    · exact endings_cons.2 ⟨hQ.broadcast t c k (hrest hcode), hrest hcode⟩
  | @own t x k d more hcode hexec => exact endings_update h (hQ.own t x _ d more k hexec (hrest hcode)) u
  | @fork t v x k hcode =>
    refine endings_update (fun t' => endings_update h (hrest hcode).tail t') ?_ u
    exact hQ.fork t v x k (hrest hcode).self
  | @interrupt t x d vs hhandle => exact endings_update h (hQ.handle t x _ d vs _ hhandle (h t)) u

theorem Keeps.reachable (hQ : Keeps P Q) {d : δ} (hcode : ∀ t, Endings (Q t) (code t))
    (hreach : (system P value code d).Reachable a) : ∀ t, Endings (Q t) (a.code t) := by
  refine @Transition.System.Reachable.invariant _ _ _ (fun a => ∀ t, Endings (Q t) (a.code t)) _ hreach
    ?_ ?_
  · rintro _ rfl
    exact hcode
  · intro s _ s' hs hstep
    exact hQ.step hs hstep

end

/-- `k` is what is left of one of the lists `B`. -/
def Within (B : List (Act τ σ μ κ ξ) → Prop) (k : List (Act τ σ μ κ ξ)) : Prop := ∃ k₀, B k₀ ∧ k <:+ k₀

section

omit [DecidableEq τ] [DecidableEq σ] [DecidableEq μ] [DecidableEq κ]

variable {B Q : List (Act τ σ μ κ ξ) → Prop}

theorem Within.endings (h : Within B k) : Endings (Within B) k := by
  obtain ⟨k₀, hk₀, hk⟩ := h
  exact fun k' hk' => ⟨k₀, hk₀, hk'.trans hk⟩

/-- What holds of all endings of the lists holds of what is left of them. -/
theorem Within.of_endings (h : Within B k) (hB : ∀ k₀, B k₀ → Endings Q k₀) : Q k := by
  obtain ⟨k₀, hk₀, hk⟩ := h
  exact hB k₀ hk₀ k hk

end

end Sync
