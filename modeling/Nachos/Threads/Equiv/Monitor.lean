import Nachos.Threads.Equiv.Process

/-!
# Data guarded by a lock

The invariants of the drivers have one form.  Every thread is at one of a few stages of its routine,
the stage of the thread that has the lock says what the data are like (`doing`), and while nobody has
the lock they are as the routines leave them (`free`).  `Monitor` is this invariant, and its lemmas say
what has to be checked when a thread enters, goes on inside, leaves, or moves outside.
-/

namespace Nachos.Process

variable {τ σ μ ξ δ κ : Type} [DecidableEq τ] [DecidableEq μ] {l : μ} {v v' : View τ σ μ ξ δ}
  {codeOf : κ → List (Stmt σ μ ξ)} {doing : τ → κ → View τ σ μ ξ δ → Prop}
  {free : View τ σ μ ξ δ → Prop} {stage : τ → κ} {t u : τ} {q q' : κ}

/-- Every thread is at some stage.  While a thread at the stage `q` has the lock, `doing` holds, and
while nobody has it, `free` holds. -/
structure Monitor (l : μ) (codeOf : κ → List (Stmt σ μ ξ)) (doing : τ → κ → View τ σ μ ξ δ → Prop)
    (free : View τ σ μ ξ δ → Prop) (v : View τ σ μ ξ δ) (stage : τ → κ) : Prop where
  locked : Locked l v
  code : ∀ t, v.code t = codeOf (stage t)
  inside : ∀ t, placeOf l (codeOf (stage t)) ≠ .outside → doing t (stage t) v
  free : (∀ t, placeOf l (codeOf (stage t)) = .outside) → free v

namespace Monitor

omit [DecidableEq τ] in
theorem others (h : Monitor l codeOf doing free v stage)
    (ht : placeOf l (codeOf (stage t)) ≠ .outside) (hu : u ≠ t) :
    placeOf l (codeOf (stage u)) = .outside := by
  rw [← h.code] at ht ⊢
  exact h.locked.exclusive.outside_of_ne ht hu

omit [DecidableEq τ] in
theorem outside_of_value (h : Monitor l codeOf doing free v stage) (hvalue : v.lockValue l ≠ 0)
    (u : τ) : placeOf l (codeOf (stage u)) = .outside := by
  rw [← h.code]
  by_contra hu
  exact hvalue (h.locked.exclusive.value_of_inside hu)

omit [DecidableEq τ] in
/-- Somebody has the lock, or nobody. -/
theorem cases (h : Monitor l codeOf doing free v stage) :
    free v ∨ ∃ t, placeOf l (codeOf (stage t)) ≠ .outside ∧ doing t (stage t) v := by
  by_cases hout : ∀ t, placeOf l (codeOf (stage t)) = .outside
  · exact Or.inl (h.free hout)
  · obtain ⟨t, ht⟩ := not_forall.1 hout
    exact Or.inr ⟨t, ht, h.inside t ht⟩

theorem code_update (h : Monitor l codeOf doing free v stage)
    (hcode : v'.code = Function.update v.code t (codeOf q)) (u : τ) :
    v'.code u = codeOf (Function.update stage t q u) := by
  rw [hcode]
  by_cases hu : u = t
  · rw [hu, Function.update_self, Function.update_self]
  · rw [Function.update_of_ne hu, Function.update_of_ne hu, h.code]

/-- While all others are outside, a thread goes on to the stage `q`. -/
theorem goto (h : Monitor l codeOf doing free v stage) (hlocked : Locked l v')
    (hothers : ∀ u, u ≠ t → placeOf l (codeOf (stage u)) = .outside)
    (hcode : v'.code = Function.update v.code t (codeOf q))
    (hin : placeOf l (codeOf q) ≠ .outside → doing t q v')
    (hout : placeOf l (codeOf q) = .outside → free v') :
    ∃ stage', Monitor l codeOf doing free v' stage' := by
  refine ⟨Function.update stage t q, hlocked, h.code_update hcode, ?_, ?_⟩
  · intro u hu
    by_cases hut : u = t
    · subst hut
      rw [Function.update_self] at hu ⊢
      exact hin hu
    · rw [Function.update_of_ne hut] at hu
      exact absurd (hothers u hut) hu
  · intro hall
    have ht := hall t
    rw [Function.update_self] at ht
    exact hout ht

omit [DecidableEq τ] in
theorem doing_of (h : Monitor l codeOf doing free v stage) (ht : stage t = q)
    (hq : placeOf l (codeOf q) ≠ .outside) : doing t q v := by
  subst ht
  exact h.inside t hq

variable {k : List (Stmt σ μ ξ)}

/-- The thread that has the lock goes on from the stage `q` to `q'`, and still has it. -/
theorem advance (h : Monitor l codeOf doing free v stage) (hlocked : Locked l v') (ht : stage t = q)
    (hq : placeOf l (codeOf q) ≠ .outside) (hk : k = codeOf q')
    (hcode : v'.code = Function.update v.code t k) (hq' : placeOf l (codeOf q') ≠ .outside)
    (hdoing : doing t q' v') : ∃ stage', Monitor l codeOf doing free v' stage' := by
  subst ht
  rw [hk] at hcode
  exact h.goto hlocked (fun u hu => h.others hq hu) hcode (fun _ => hdoing) fun hout => absurd hout hq'

/-- A thread gets the lock. -/
theorem enter (h : Monitor l codeOf doing free v stage) (hlocked : Locked l v')
    (hvalue : v.lockValue l ≠ 0) (hk : k = codeOf q) (hcode : v'.code = Function.update v.code t k)
    (hdoing : free v → doing t q v') (hq : placeOf l (codeOf q) ≠ .outside) :
    ∃ stage', Monitor l codeOf doing free v' stage' := by
  rw [hk] at hcode
  have hout := h.outside_of_value hvalue
  exact h.goto hlocked (fun u _ => hout u) hcode (fun _ => hdoing (h.free hout))
    fun hout' => absurd hout' hq

/-- A thread gives the lock back. -/
theorem leave (h : Monitor l codeOf doing free v stage) (hlocked : Locked l v') (ht : stage t = q)
    (hq : placeOf l (codeOf q) ≠ .outside) (hk : k = codeOf q')
    (hcode : v'.code = Function.update v.code t k) (hq' : placeOf l (codeOf q') = .outside)
    (hfree : free v') : ∃ stage', Monitor l codeOf doing free v' stage' := by
  subst ht
  rw [hk] at hcode
  exact h.goto hlocked (fun u hu => h.others hq hu) hcode (fun hin => absurd hq' hin) fun _ => hfree

/-- A thread outside goes on to a stage outside, and the data stay as they are. -/
theorem outside (h : Monitor l codeOf doing free v stage) (hlocked : Locked l v') (ht : stage t = q)
    (hq : placeOf l (codeOf q) = .outside) (hk : k = codeOf q')
    (hcode : v'.code = Function.update v.code t k) (hq' : placeOf l (codeOf q') = .outside)
    (hdoing : ∀ u q', doing u q' v → doing u q' v') (hfree : free v → free v') :
    ∃ stage', Monitor l codeOf doing free v' stage' := by
  subst ht
  rw [hk] at hcode
  have hplace : ∀ u, placeOf l (codeOf (Function.update stage t q' u)) = placeOf l (codeOf (stage u)) := by
    intro u
    by_cases hu : u = t
    · rw [hu, Function.update_self, hq, hq']
    · rw [Function.update_of_ne hu]
  refine ⟨Function.update stage t q', hlocked, h.code_update hcode, ?_, ?_⟩
  · intro u hu
    rw [hplace] at hu
    have hne : u ≠ t := by
      rintro rfl
      exact hu hq
    rw [Function.update_of_ne hne]
    exact hdoing u _ (h.inside u hu)
  · intro hall
    exact hfree (h.free fun u => (hplace u).symm.trans (hall u))

omit [DecidableEq τ] in
/-- The data change, and no thread moves. -/
theorem still (h : Monitor l codeOf doing free v stage) (hlocked : Locked l v')
    (hcode : v'.code = v.code) (hdoing : ∀ u q', doing u q' v → doing u q' v') (hfree : free v → free v') :
    ∃ stage', Monitor l codeOf doing free v' stage' :=
  ⟨stage, hlocked, fun u => by rw [hcode, h.code], fun u hu => hdoing u _ (h.inside u hu),
    fun hall => hfree (h.free hall)⟩

end Monitor

end Nachos.Process
