import Mathlib.Data.List.Count
import Nachos.Lib.Exclusion
import Nachos.Threads.Process

/-!
# Scripts with semaphores that are numbers

What is said about the drivers does not depend on who waits in which queue.  `View` is a state of the
threads without the queues, in which a semaphore is its value, and `View.Step` lists what can happen
to it; `Step.of_step` says that nothing else can.

A lock excludes all threads but one from what its routines do between `Acquire` and `Release`, if
they call the two in this order (`Guarded`): `Locked.step`.
-/

namespace Nachos.Process

open Exclusion (Place Exclusive)

variable {τ σ μ ξ ε γ δ : Type}

@[ext]
structure View (τ σ μ ξ δ : Type) where
  value : σ → ℤ
  lockValue : μ → ℤ
  heldthread : μ → Option τ
  code : τ → List (Stmt σ μ ξ)
  data : δ

def State.view (s : State τ σ μ ξ δ) : View τ σ μ ξ δ where
  value := Semaphore.value ∘ s.semaphore
  lockValue := (Semaphore.value ∘ Lock.lock) ∘ s.lock
  heldthread := Lock.heldthread ∘ s.lock
  code := s.code
  data := s.data

variable [DecidableEq τ] [DecidableEq σ] [DecidableEq μ]

namespace View

def goto (v : View τ σ μ ξ δ) (t : τ) (k : List (Stmt σ μ ξ)) : View τ σ μ ξ δ :=
  { v with code := Function.update v.code t k }

/-- What can happen to a view. -/
inductive Step (P : Program τ σ μ ξ ε γ δ) (v : View τ σ μ ξ δ) : View τ σ μ ξ δ → Prop where
  | call {t} (c : γ) (hcode : v.code t = []) : Step P v (v.goto t (P.body c))
  | p {t x k} (hcode : v.code t = .p x :: k) (hvalue : v.value x ≠ 0) :
      Step P v { v.goto t k with value := Function.update v.value x (v.value x - 1) }
  | v {t x k} (hcode : v.code t = .v x :: k) :
      Step P v { v.goto t k with value := Function.update v.value x (v.value x + 1) }
  | acquire {t l k} (hcode : v.code t = .acquire l :: k) (hvalue : v.lockValue l ≠ 0) :
      Step P v { v.goto t (.assign l :: k) with
        lockValue := Function.update v.lockValue l (v.lockValue l - 1) }
  | assign {t l k} (hcode : v.code t = .assign l :: k) :
      Step P v { v.goto t k with heldthread := Function.update v.heldthread l (some t) }
  | release {t l k} (hcode : v.code t = .release l :: k) (hheld : v.heldthread l = some t) :
      Step P v (v.goto t (.clear l :: .unlock l :: k))
  | skip {t l k} (hcode : v.code t = .release l :: k) (hheld : v.heldthread l ≠ some t) :
      Step P v (v.goto t k)
  | clear {t l k} (hcode : v.code t = .clear l :: k) :
      Step P v { v.goto t k with heldthread := Function.update v.heldthread l none }
  | unlock {t l k} (hcode : v.code t = .unlock l :: k) :
      Step P v { v.goto t k with lockValue := Function.update v.lockValue l (v.lockValue l + 1) }
  | own {t x k d more} (hcode : v.code t = .own x :: k) (hready : P.ready x v.data = true)
      (hexec : P.exec t x v.data = some (d, more)) : Step P v { v.goto t (more ++ k) with data := d }
  | interrupt {e d posted} (hpending : P.pending e v.data = true)
      (hhandle : P.handle e v.data = some (d, posted)) :
      Step P v { v with data := d, value := fun x => v.value x + posted.count x }

end View

/-! ### The view of a step -/

variable {P : Program τ σ μ ξ ε γ δ} {s s' : State τ σ μ ξ δ} {k : List (Stmt σ μ ξ)} {t : τ}
  {start : τ → List (Stmt σ μ ξ)} {i : Stmt σ μ ξ}

omit [DecidableEq τ] [DecidableEq μ] in
theorem value_update (x : σ) (y : Semaphore τ) :
    Semaphore.value ∘ Function.update s.semaphore x y = Function.update s.view.value x y.value :=
  Function.comp_update ..

omit [DecidableEq τ] [DecidableEq σ] in
theorem lockValue_update (l : μ) (y : Lock τ) :
    (Semaphore.value ∘ Lock.lock) ∘ Function.update s.lock l y =
      Function.update s.view.lockValue l y.lock.value :=
  Function.comp_update ..

omit [DecidableEq τ] [DecidableEq σ] in
theorem heldthread_update (l : μ) (y : Lock τ) :
    Lock.heldthread ∘ Function.update s.lock l y = Function.update s.view.heldthread l y.heldthread :=
  Function.comp_update ..

omit [DecidableEq τ] [DecidableEq μ] in
theorem value_update_same {x : σ} {y : Semaphore τ} (h : y.value = s.view.value x) :
    Semaphore.value ∘ Function.update s.semaphore x y = s.view.value := by
  rw [value_update, h, Function.update_eq_self]

omit [DecidableEq τ] [DecidableEq σ] in
theorem lockValue_update_same {l : μ} {y : Lock τ} (h : y.lock.value = s.view.lockValue l) :
    (Semaphore.value ∘ Lock.lock) ∘ Function.update s.lock l y = s.view.lockValue := by
  rw [lockValue_update, h, Function.update_eq_self]

omit [DecidableEq τ] [DecidableEq σ] in
theorem heldthread_update_same {l : μ} {y : Lock τ} (h : y.heldthread = s.view.heldthread l) :
    Lock.heldthread ∘ Function.update s.lock l y = s.view.heldthread := by
  rw [heldthread_update, h, Function.update_eq_self]

omit [DecidableEq μ] in
theorem view_post (x : σ) :
    (s.post x).view = { s.view with value := Function.update s.view.value x (s.view.value x + 1) } :=
  View.ext (value_update x _) rfl rfl rfl rfl

omit [DecidableEq μ] in
theorem view_foldl_post (xs : List σ) :
    (xs.foldl State.post s).view =
      { s.view with value := fun x => s.view.value x + xs.count x } := by
  induction xs generalizing s with
  | nil => simp
  | cons x xs ih =>
    rw [List.foldl_cons, ih, view_post]
    refine View.ext ?_ rfl rfl rfl rfl
    funext y
    simp only
    by_cases hy : y = x
    · subst hy
      rw [Function.update_self, List.count_cons_self]
      omega
    · rw [Function.update_of_ne hy, List.count_cons_of_ne (Ne.symm hy)]

theorem view_tryP {x : σ} (hcode : s.code t = .p x :: k) :
    (s.tryP t x k).view = s.view ∨ View.Step P s.view (s.tryP t x k).view := by
  by_cases hzero : (s.semaphore x).value = 0
  · left
    have hp := Semaphore.p_of_eq_zero t hzero
    refine View.ext (value_update_same (by rw [hp]; rfl)) rfl rfl ?_ rfl
    change Function.update s.code t _ = s.code
    rw [hp, if_neg (by simp), ← hcode, Function.update_eq_self]
  · right
    have hp := Semaphore.p_of_ne_zero t hzero
    convert View.Step.p (P := P) (v := s.view) hcode hzero using 1
    refine View.ext ?_ rfl rfl ?_ rfl
    · refine (value_update x _).trans ?_
      rw [hp]
      rfl
    · change Function.update s.code t _ = Function.update s.code t _
      rw [hp, if_pos rfl]

theorem view_tryAcquire {l : μ} (hcode : s.code t = .acquire l :: k) :
    (s.tryAcquire t l k).view = s.view ∨ View.Step P s.view (s.tryAcquire t l k).view := by
  have hheld := heldthread_update_same (s := s) (l := l) (y := ((s.lock l).p t).1) rfl
  by_cases hzero : (s.lock l).lock.value = 0
  · left
    have hp := Semaphore.p_of_eq_zero t hzero
    refine View.ext rfl (lockValue_update_same ?_) hheld ?_ rfl
    · unfold Lock.p
      rw [hp]
      rfl
    · change Function.update s.code t _ = s.code
      unfold Lock.p
      rw [hp, if_neg (by simp), ← hcode, Function.update_eq_self]
  · right
    have hp := Semaphore.p_of_ne_zero t hzero
    convert View.Step.acquire (P := P) (v := s.view) hcode hzero using 1
    refine View.ext rfl ?_ hheld ?_ rfl
    · refine (lockValue_update l _).trans ?_
      unfold Lock.p
      rw [hp]
      rfl
    · change Function.update s.code t _ = Function.update s.code t _
      unfold Lock.p
      rw [hp, if_pos rfl]

/-- **Nothing else can happen**: a step is one of the view, or is not seen in it. -/
theorem View.Step.of_step {a : Action τ ε γ} (h : s.step P a = some s') :
    s'.view = s.view ∨ View.Step P s.view s'.view := by
  cases a with
  | call t c =>
    dsimp only [State.step] at h
    cases hcode : s.code t with
    | nil =>
      rw [hcode] at h
      cases h
      exact Or.inr (.call c hcode)
    | cons i k =>
      rw [hcode] at h
      cases h
  | interrupt e =>
    dsimp only [State.step] at h
    split_ifs at h with hpending
    obtain ⟨⟨d, posted⟩, hhandle, rfl⟩ := Option.map_eq_some_iff.1 h
    right
    convert View.Step.interrupt (P := P) (v := s.view) hpending hhandle using 1
    exact view_foldl_post posted
  | run t =>
    dsimp only [State.step, State.run] at h
    split_ifs at h with hasleep
    cases hcode : s.code t with
    | nil =>
      rw [hcode] at h
      cases h
    | cons i k =>
      rw [hcode] at h
      cases i with
      | p x =>
        cases h
        exact view_tryP hcode
      | v x =>
        cases h
        right
        convert View.Step.v (P := P) (v := s.view) hcode using 1
        exact View.ext (value_update x _) rfl rfl rfl rfl
      | acquire l =>
        cases h
        exact view_tryAcquire hcode
      | assign l =>
        cases h
        right
        convert View.Step.assign (P := P) (v := s.view) hcode using 1
        exact View.ext rfl (lockValue_update_same rfl) (heldthread_update l _) rfl rfl
      | release l =>
        cases h
        right
        by_cases hheld : (s.lock l).heldthread = some t
        · have htest : (s.lock l).isHeldBy t = true := decide_eq_true hheld
          rw [htest, if_pos rfl]
          exact View.Step.release (P := P) (v := s.view) hcode hheld
        · have htest : (s.lock l).isHeldBy t = false := decide_eq_false hheld
          rw [htest, if_neg (by decide)]
          exact View.Step.skip (P := P) (v := s.view) hcode hheld
      | clear l =>
        cases h
        right
        convert View.Step.clear (P := P) (v := s.view) hcode using 1
        exact View.ext rfl (lockValue_update_same rfl) (heldthread_update l _) rfl rfl
      | unlock l =>
        cases h
        right
        convert View.Step.unlock (P := P) (v := s.view) hcode using 1
        exact View.ext rfl (lockValue_update l _) (heldthread_update_same rfl) rfl rfl
      | own x =>
        dsimp only at h
        split_ifs at h with hready
        obtain ⟨⟨d, more⟩, hexec, rfl⟩ := Option.map_eq_some_iff.1 h
        exact Or.inr (View.Step.own (P := P) (v := s.view) hcode hready hexec)

/-- **The invariant rule for views.** -/
theorem invariant_of_step {initialValue : σ → ℤ} {d : δ} (Inv : View τ σ μ ξ δ → Prop)
    (h : (system P initialValue start d).Reachable s)
    (hinit : Inv ⟨initialValue, fun _ => 1, fun _ => none, start, d⟩)
    (hstep : ∀ v v', Inv v → View.Step P v v' → Inv v') : Inv s.view := by
  refine @Transition.System.Reachable.invariant _ _ _ (fun s => Inv s.view) _ h ?_ ?_
  · rintro _ rfl
    exact hinit
  · intro s a s' hs ha
    rcases View.Step.of_step ha with hview | hview
    · rw [hview]
      exact hs
    · exact hstep _ _ hs hview

/-! ### Locks -/

section

variable (l : μ)

/-- The statement is part of `Acquire` or `Release` of the lock. -/
def touches : Stmt σ μ ξ → Bool
  | .acquire l' => l' = l
  | .assign l' => l' = l
  | .release l' => l' = l
  | .clear l' => l' = l
  | .unlock l' => l' = l
  | _ => false

/-- The place of a thread whose next statement for the lock is this one. -/
def placeAt : Stmt σ μ ξ → Place
  | .assign _ => .entered
  | .release _ => .holding
  | .clear _ => .clearing
  | .unlock _ => .unlocking
  | _ => .outside

/-- Where a thread that has `k` left to do stands. -/
def placeOf : List (Stmt σ μ ξ) → Place
  | [] => .outside
  | i :: k => if touches l i then placeAt i else placeOf k

/-- Where the thread stands after a statement for the lock. -/
def placeAfter : Stmt σ μ ξ → Place
  | .acquire _ => .holding
  | .assign _ => .holding
  | .clear _ => .unlocking
  | _ => .outside

/-- The statements for the lock come in the right order. -/
def Ordered : List (Stmt σ μ ξ) → Prop
  | [] => True
  | i :: k => (touches l i → placeOf l k = placeAfter i) ∧ Ordered k

/-- The program locks and unlocks in this order, and not in the code between. -/
structure Guarded (P : Program τ σ μ ξ ε γ δ) (start : τ → List (Stmt σ μ ξ)) : Prop where
  body : ∀ c, Ordered l (P.body c) ∧ placeOf l (P.body c) = .outside
  start : ∀ t, Ordered l (start t) ∧ placeOf l (start t) = .outside
  exec : ∀ t x d d' more, P.exec t x d = some (d', more) → ∀ i ∈ more, touches l i = false

end

variable {l : μ} {v v' : View τ σ μ ξ δ}

omit [DecidableEq τ] [DecidableEq σ] in
theorem placeOf_of_touches (h : touches l i = true) : placeOf l (i :: k) = placeAt i := if_pos h

omit [DecidableEq τ] [DecidableEq σ] in
theorem placeOf_of_not_touches (h : touches l i = false) :
    placeOf l (i :: k) = placeOf l k := if_neg (by rw [h]; decide)

omit [DecidableEq τ] [DecidableEq σ] in
theorem placeOf_append {more k : List (Stmt σ μ ξ)} (h : ∀ i ∈ more, touches l i = false) :
    placeOf l (more ++ k) = placeOf l k := by
  induction more with
  | nil => rfl
  | cons i more ih =>
    rw [List.cons_append, placeOf_of_not_touches (h i List.mem_cons_self)]
    exact ih fun j hj => h j (List.mem_cons_of_mem _ hj)

omit [DecidableEq τ] [DecidableEq σ] in
theorem ordered_append {more k : List (Stmt σ μ ξ)} (h : ∀ i ∈ more, touches l i = false)
    (hk : Ordered l k) : Ordered l (more ++ k) := by
  induction more with
  | nil => exact hk
  | cons i more ih =>
    refine ⟨?_, ih fun j hj => h j (List.mem_cons_of_mem _ hj)⟩
    intro htouches
    rw [h i List.mem_cons_self] at htouches
    cases htouches

/-- The lock's invariant. -/
structure Locked (l : μ) (v : View τ σ μ ξ δ) : Prop where
  ordered : ∀ t, Ordered l (v.code t)
  exclusive : Exclusive (fun t => placeOf l (v.code t)) (v.lockValue l) (v.heldthread l)

namespace Locked

omit [DecidableEq σ] in
/-- One thread goes on to `k`. -/
theorem goto (h : Locked l v) (hcode : v'.code = Function.update v.code t k) (hk : Ordered l k)
    (hmove : Exclusion.Move t (placeOf l (v.code t)) (v.lockValue l) (v.heldthread l) (placeOf l k)
      (v'.lockValue l) (v'.heldthread l)) : Locked l v' := by
  constructor
  · intro u
    rw [hcode]
    by_cases hu : u = t
    · rw [hu, Function.update_self]
      exact hk
    · rw [Function.update_of_ne hu]
      exact h.ordered u
  · rw [hcode]
    convert h.exclusive.move hmove using 1
    exact Function.comp_update (placeOf l) v.code t k

omit [DecidableEq σ] in
/-- A thread goes on with a statement that is not about the lock. -/
theorem stay (h : Locked l v) (more : List (Stmt σ μ ξ)) (hthread : v.code t = i :: k)
    (hi : touches l i = false) (hmore : ∀ j ∈ more, touches l j = false)
    (hcode : v'.code = Function.update v.code t (more ++ k)) (hvalue : v'.lockValue l = v.lockValue l)
    (hheld : v'.heldthread l = v.heldthread l) : Locked l v' := by
  have hordered := h.ordered t
  rw [hthread] at hordered
  apply h.goto hcode (ordered_append hmore hordered.2)
  rw [hthread, placeOf_of_not_touches hi, placeOf_append hmore, hvalue, hheld]
  exact .stay ..

omit [DecidableEq σ] in
/-- A thread goes past a statement about the lock. -/
theorem pass (h : Locked l v) (hthread : v.code t = i :: k) (hi : touches l i = true)
    (hcode : v'.code = Function.update v.code t k)
    (hmove : Exclusion.Move t (placeAt i) (v.lockValue l) (v.heldthread l) (placeAfter i)
      (v'.lockValue l) (v'.heldthread l)) : Locked l v' := by
  have hordered := h.ordered t
  rw [hthread] at hordered
  apply h.goto hcode hordered.2
  rw [hthread, placeOf_of_touches hi, hordered.1 hi]
  exact hmove

theorem step (G : Guarded l P start) (h : Locked l v) (hstep : View.Step P v v') : Locked l v' := by
  cases hstep with
  | @call t c hcode =>
    refine h.goto rfl (G.body c).1 ?_
    rw [hcode, (G.body c).2]
    exact .stay ..
  | p hcode => exact h.stay [] hcode rfl (by simp) rfl rfl rfl
  | v hcode => exact h.stay [] hcode rfl (by simp) rfl rfl rfl
  | @acquire t l' k hcode hvalue =>
    by_cases hl : l' = l
    · subst hl
      have hordered := h.ordered t
      rw [hcode] at hordered
      have htouches : touches l' (.acquire l' : Stmt σ μ ξ) = true := decide_eq_true rfl
      have htouches' : touches l' (.assign l' : Stmt σ μ ξ) = true := decide_eq_true rfl
      refine h.goto rfl ⟨fun _ => hordered.1 htouches, hordered.2⟩ ?_
      rw [hcode, placeOf_of_touches htouches, placeOf_of_touches htouches']
      dsimp only
      rw [Function.update_self]
      exact .enter _ hvalue
    · have hnot : touches l (.acquire l' : Stmt σ μ ξ) = false := decide_eq_false hl
      refine h.stay [.assign l'] hcode hnot ?_ rfl (Function.update_of_ne (Ne.symm hl) ..) rfl
      intro i hi
      rw [List.mem_singleton.1 hi]
      exact decide_eq_false hl
  | @assign t l' k hcode =>
    by_cases hl : l' = l
    · subst hl
      apply h.pass hcode (decide_eq_true rfl) rfl
      dsimp only
      rw [Function.update_self]
      exact .assign ..
    · have hnot : touches l (.assign l' : Stmt σ μ ξ) = false := decide_eq_false hl
      exact h.stay [] hcode hnot (by simp) rfl rfl (Function.update_of_ne (Ne.symm hl) ..)
  | @release t l' k hcode hheld =>
    by_cases hl : l' = l
    · subst hl
      have hordered := h.ordered t
      rw [hcode] at hordered
      have htouches : touches l' (.release l' : Stmt σ μ ξ) = true := decide_eq_true rfl
      have htouches' : touches l' (.clear l' : Stmt σ μ ξ) = true := decide_eq_true rfl
      have hplace : placeOf l' (.unlock l' :: k) = .unlocking :=
        placeOf_of_touches (decide_eq_true rfl)
      refine h.goto rfl ⟨fun _ => hplace, fun _ => hordered.1 htouches, hordered.2⟩ ?_
      rw [hcode, placeOf_of_touches htouches, placeOf_of_touches htouches']
      exact .release ..
    · have hnot : touches l (.release l' : Stmt σ μ ξ) = false := decide_eq_false hl
      refine h.stay [.clear l', .unlock l'] hcode hnot ?_ rfl rfl rfl
      intro i hi
      rcases List.mem_pair.1 hi with rfl | rfl
      · exact decide_eq_false hl
      · exact decide_eq_false hl
  | @skip t l' k hcode hheld =>
    by_cases hl : l' = l
    · -- a thread at `Release` is the holder, so that the test does not fail
      subst hl
      have hplace : placeOf l' (v.code t) = .holding := by
        rw [hcode]
        exact placeOf_of_touches (decide_eq_true rfl)
      refine absurd ((h.exclusive.recorded t).2 ?_) hheld
      rw [hplace]
      trivial
    · have hnot : touches l (.release l' : Stmt σ μ ξ) = false := decide_eq_false hl
      exact h.stay [] hcode hnot (by simp) rfl rfl rfl
  | @clear t l' k hcode =>
    by_cases hl : l' = l
    · subst hl
      apply h.pass hcode (decide_eq_true rfl) rfl
      dsimp only
      rw [Function.update_self]
      exact .clear ..
    · have hnot : touches l (.clear l' : Stmt σ μ ξ) = false := decide_eq_false hl
      exact h.stay [] hcode hnot (by simp) rfl rfl (Function.update_of_ne (Ne.symm hl) ..)
  | @unlock t l' k hcode =>
    by_cases hl : l' = l
    · subst hl
      apply h.pass hcode (decide_eq_true rfl) rfl
      dsimp only
      rw [Function.update_self]
      exact .unlock ..
    · have hnot : touches l (.unlock l' : Stmt σ μ ξ) = false := decide_eq_false hl
      exact h.stay [] hcode hnot (by simp) rfl (Function.update_of_ne (Ne.symm hl) ..) rfl
  | own hcode hready hexec => exact h.stay _ hcode rfl (G.exec _ _ _ _ _ hexec) rfl rfl rfl
  | interrupt => exact ⟨h.ordered, h.exclusive⟩

end Locked

omit [DecidableEq τ] [DecidableEq σ] in
theorem Locked.initial (G : Guarded l P start) (value : σ → ℤ) (d : δ) :
    Locked l ⟨value, fun _ => 1, fun _ => none, start, d⟩ := by
  refine ⟨fun t => (G.start t).1, ?_⟩
  convert Exclusion.exclusive_new (τ := τ) using 1
  funext t
  exact (G.start t).2

end Nachos.Process
