import Nachos.Lib.Prog
import Nachos.Lib.Transition

/-!
# Interleaved programs and the protocols they follow

Threads take turns at every access: `interleaving` is the system in which some thread makes its next
step, on a store that all threads share.  What the synchronization operations do to the rest of the
state, and when they block, is given by a relation `after`.

A `Protocol` says what a thread may do next, in terms of a *view*, the part of the history that
matters for it.  `Follows` is the weakest condition on a view for a program to keep to the protocol,
whatever the other threads do in between; it is computed like a weakest precondition.  The invariant
rule for interleavings (`Follows.invariant`) then needs to look at the steps of the protocol only.

To exhibit a run, a thread can also be run alone for a while (`exists_run_of_yields`,
`exists_run_of_follows`).
-/

namespace Storage

variable {ι β ε ω α γ ν τ κ : Type} {p p' : Prog ι β ε ω α} {d : ι → β}

inductive Event (ι β ω : Type) where
  | read (i : ι) (b : β)
  | write (i : ι) (b : β)
  | ask
  | sync (o : ω)

/-- The store after an event. -/
def Event.store [DecidableEq ι] (d : ι → β) : Event ι β ω → ι → β
  | .write i b => Function.update d i b
  | .read _ _ => d
  | .ask => d
  | .sync _ => d

structure Protocol (ι β ω ν : Type) where
  /-- `sees v i b`: in the view `v`, the block at `i` may be `b`. -/
  sees : ν → ι → β → Prop
  next : ν → Event ι β ω → ν → Prop

namespace Prog

/-- The next step of a program on the store `d`. -/
inductive Step (d : ι → β) : Prog ι β ε ω α → Event ι β ω → Prog ι β ε ω α → Prop where
  | read (i : ι) (k : β → Prog ι β ε ω α) : Step d (.read i k) (.read i (d i)) (k (d i))
  | write (i : ι) (b : β) (k : Prog ι β ε ω α) : Step d (.write i b k) (.write i b) k
  | ask (k : ε → Prog ι β ε ω α) (e : ε) : Step d (.ask k) .ask (k e)
  | sync (o : ω) (k : Prog ι β ε ω α) : Step d (.sync o k) (.sync o) k

theorem Step.read_eq {i : ι} {b : β} (h : p.Step d (.read i b) p') : b = d i := by
  cases h
  rfl

/-- From the view `v` on, the program keeps to the protocol, does not abort, and ends in `Q`. -/
def Follows (P : Protocol ι β ω ν) (Q : α → ν → Prop) : Prog ι β ε ω α → ν → Prop
  | ret a, v => Q a v
  | abort, _ => False
  | read i k, v => ∀ b, P.sees v i b → ∃ v', P.next v (.read i b) v' ∧ (k b).Follows P Q v'
  | write i b k, v => ∃ v', P.next v (.write i b) v' ∧ k.Follows P Q v'
  | ask k, v => ∀ e, (k e).Follows P Q v
  | sync o k, v => ∃ v', P.next v (.sync o) v' ∧ k.Follows P Q v'

namespace Follows

variable {P : Protocol ι β ω ν} {Q : α → ν → Prop} {v : ν}

@[simp]
theorem pure_iff (a : α) : (pure a : Prog ι β ε ω α).Follows P Q v ↔ Q a v := Iff.rfl

theorem ret_iff (a : α) : (ret a : Prog ι β ε ω α).Follows P Q v ↔ Q a v := Iff.rfl

theorem read_iff (i : ι) (k : β → Prog ι β ε ω α) : (read i k).Follows P Q v ↔
    ∀ b, P.sees v i b → ∃ v', P.next v (.read i b) v' ∧ (k b).Follows P Q v' := Iff.rfl

theorem write_iff (i : ι) (b : β) (k : Prog ι β ε ω α) : (write i b k).Follows P Q v ↔
    ∃ v', P.next v (.write i b) v' ∧ k.Follows P Q v' := Iff.rfl

theorem ask_iff (k : ε → Prog ι β ε ω α) :
    (ask k).Follows P Q v ↔ ∀ e, (k e).Follows P Q v := Iff.rfl

theorem sync_iff (o : ω) (k : Prog ι β ε ω α) : (sync o k).Follows P Q v ↔
    ∃ v', P.next v (.sync o) v' ∧ k.Follows P Q v' := Iff.rfl

theorem bind_iff {Q : γ → ν → Prop} (p : Prog ι β ε ω α) (f : α → Prog ι β ε ω γ) :
    (p.bind f).Follows P Q v ↔ p.Follows P (fun a v' => (f a).Follows P Q v') v := by
  induction p generalizing v with
  | ret a => exact Iff.rfl
  | abort => exact Iff.rfl
  | read i k ih =>
    exact forall_congr' fun b => imp_congr_right fun _ => exists_congr fun v' =>
      and_congr_right fun _ => ih b
  | write i b k ih => exact exists_congr fun v' => and_congr_right fun _ => ih
  | ask k ih => exact forall_congr' fun e => ih e
  | sync o k ih => exact exists_congr fun v' => and_congr_right fun _ => ih

/-- The same, as `do` blocks write it. -/
@[simp]
theorem do_iff {Q : γ → ν → Prop} (p : Prog ι β ε ω α) (f : α → Prog ι β ε ω γ) :
    (p >>= f).Follows P Q v ↔ p.Follows P (fun a v' => (f a).Follows P Q v') v :=
  bind_iff p f

/-- A step of a program that follows a protocol is one of the protocol. -/
theorem step {e : Event ι β ω} (h : p.Follows P Q v) (hsees : ∀ i, P.sees v i (d i))
    (hstep : p.Step d e p') :
    (∃ v', P.next v e v' ∧ p'.Follows P Q v') ∨ e = .ask ∧ p'.Follows P Q v := by
  cases hstep with
  | read i k => exact Or.inl (h (d i) (hsees i))
  | write i b k => exact Or.inl h
  | ask k e => exact Or.inr ⟨rfl, h e⟩
  | sync o k => exact Or.inl h

theorem not_abort : ¬ (abort : Prog ι β ε ω α).Follows P Q v := id

-- from here on `Follows` is computed by its rules only
attribute [irreducible] Follows

end Follows

/-- A program without synchronization operations. -/
def Silent : Prog ι β ε ω α → Prop
  | ret _ => True
  | abort => True
  | read _ k => ∀ b, (k b).Silent
  | write _ _ k => k.Silent
  | ask k => ∀ e, (k e).Silent
  | sync _ _ => False

theorem silent_ret (a : α) : (ret a : Prog ι β ε ω α).Silent := trivial

theorem silent_pure (a : α) : (pure a : Prog ι β ε ω α).Silent := trivial

theorem Silent.bind {p : Prog ι β ε ω α} {f : α → Prog ι β ε ω γ} (hp : p.Silent)
    (hf : ∀ a, (f a).Silent) : (p >>= f).Silent := by
  show (p.bind f).Silent
  induction p with
  | ret a => exact hf a
  | abort => exact trivial
  | read i k ih => exact fun b => ih b (hp b)
  | write i b k ih => exact ih hp
  | ask k ih => exact fun e => ih e (hp e)
  | sync o k => exact hp.elim

theorem silent_abort : (abort : Prog ι β ε ω α).Silent := trivial

theorem silent_read {i : ι} {k : β → Prog ι β ε ω α} (h : ∀ b, (k b).Silent) : (read i k).Silent := h

theorem silent_write {i : ι} {b : β} {p : Prog ι β ε ω α} (h : p.Silent) : (write i b p).Silent := h

theorem silent_ask {k : ε → Prog ι β ε ω α} (h : ∀ e, (k e).Silent) : (ask k).Silent := h

end Prog

/-! ### Threads -/

/-- What is left of the programs of the threads, the store, and the rest of the state. -/
structure Threads (τ ι β ε ω α κ : Type) where
  pool : τ → Prog ι β ε ω α
  store : ι → β
  shared : κ

variable [DecidableEq ι] [DecidableEq τ]

/-- The threads take turns, starting from `start`. -/
def interleaving (after : (ι → β) → κ → τ → Event ι β ω → κ → Prop)
    (start : Threads τ ι β ε ω α κ) :
    Transition.System (Threads τ ι β ε ω α κ) (τ × Event ι β ω) where
  init st := st = start
  step st l st' := ∃ p, (st.pool l.1).Step st.store l.2 p ∧
    st'.pool = Function.update st.pool l.1 p ∧ st'.store = l.2.store st.store ∧
    after st.store st.shared l.1 l.2 st'.shared

variable {after : (ι → β) → κ → τ → Event ι β ω → κ → Prop} {start st : Threads τ ι β ε ω α κ}

/-- **The invariant rule for interleavings**: what the steps of the protocols preserve, while each
thread follows its own, holds in every reachable state. -/
theorem Prog.Follows.invariant {P : τ → Protocol ι β ω ν} {Q : τ → α → ν → Prop}
    {J : (τ → ν) → (ι → β) → κ → Prop} {guard : Threads τ ι β ε ω α κ → τ × Event ι β ω → Prop}
    {views : τ → ν} (hstart : J views start.store start.shared)
    (hfollows : ∀ t, (start.pool t).Follows (P t) (Q t) (views t))
    (hsees : ∀ vs d c, J vs d c → ∀ t i, (P t).sees (vs t) i (d i))
    (hask : ∀ vs d c t c', J vs d c → after d c t .ask c' → J vs d c')
    (hnext : ∀ (st : Threads τ ι β ε ω α κ) vs t e v' c', J vs st.store st.shared →
      guard st (t, e) → (∀ i b, e = .read i b → b = st.store i) → (P t).next (vs t) e v' →
      after st.store st.shared t e c' → J (Function.update vs t v') (e.store st.store) c')
    (h : ((interleaving after start).restrict guard).Reachable st) :
    ∃ vs, J vs st.store st.shared ∧ ∀ t, (st.pool t).Follows (P t) (Q t) (vs t) := by
  apply h.invariant
  · rintro st rfl
    exact ⟨views, hstart, hfollows⟩
  · rintro st ⟨t, e⟩ ⟨pool, d, c⟩ ⟨vs, hJ, hvs⟩ ⟨hguard, p, hstep, rfl, rfl, hafter⟩
    have hread : ∀ i b, e = .read i b → b = st.store i := by
      rintro i b rfl
      exact hstep.read_eq
    rcases (hvs t).step (hsees _ _ _ hJ t) hstep with ⟨v', hv', hp⟩ | ⟨rfl, hp⟩
    · refine ⟨_, hnext st vs t e v' c hJ hguard hread hv' hafter, fun t' => ?_⟩
      by_cases ht : t' = t
      · subst ht
        simpa using hp
      · simpa [Function.update_of_ne ht] using hvs t'
    · refine ⟨vs, hask _ _ _ _ _ hJ hafter, fun t' => ?_⟩
      by_cases ht : t' = t
      · subst ht
        simpa using hp
      · simpa [Function.update_of_ne ht] using hvs t'

/-- A step of thread `t`, which has the program `p` left. -/
theorem step_update {pool : τ → Prog ι β ε ω α} {t : τ} {e : Event ι β ω} {c c' : κ}
    (hstep : p.Step d e p') (hafter : after d c t e c') :
    (interleaving after start).step ⟨Function.update pool t p, d, c⟩ (t, e)
      ⟨Function.update pool t p', e.store d, c'⟩ := by
  refine ⟨p', ?_, ?_, rfl, hafter⟩
  · simp only [Function.update_self]
    exact hstep
  · simp only [Function.update_idem]

/-- A thread can be run alone up to the end of `p`. -/
theorem exists_run_of_yields {t : τ} {p : Prog ι β ε ω γ} {d d' : ι → β} {a : γ}
    (hsilent : p.Silent) (hrun : p.Yields d a d')
    (hafter : ∀ d c e, (∀ o, e ≠ Event.sync o) → ∃ c', after d c t e c')
    (k : γ → Prog ι β ε ω α) (pool : τ → Prog ι β ε ω α) (c : κ) :
    ∃ c', Relation.ReflTransGen (interleaving after start).Next
      ⟨Function.update pool t (p >>= k), d, c⟩ ⟨Function.update pool t (k a), d', c'⟩ := by
  obtain ⟨env, env', hrun⟩ := hrun
  induction p generalizing d c env with
  | ret b =>
    simp only [Prog.run, Option.some.injEq, Prod.mk.injEq] at hrun
    obtain ⟨rfl, rfl, -⟩ := hrun
    exact ⟨c, .refl⟩
  | abort => cases hrun
  | read i q ih =>
    obtain ⟨c₁, hc₁⟩ := hafter d c (.read i (d i)) (by simp)
    obtain ⟨c', hsteps⟩ := ih (d i) (hsilent _) c₁ env hrun
    exact ⟨c', .head ⟨_, step_update (.read i _) hc₁⟩ hsteps⟩
  | write i b q ih =>
    obtain ⟨c₁, hc₁⟩ := hafter d c (.write i b) (by simp)
    obtain ⟨c', hsteps⟩ := ih hsilent c₁ env hrun
    exact ⟨c', .head ⟨_, step_update (.write i b _) hc₁⟩ hsteps⟩
  | ask q ih =>
    obtain ⟨c₁, hc₁⟩ := hafter d c .ask (by simp)
    obtain ⟨c', hsteps⟩ := ih (env 0) (hsilent _) c₁ _ hrun
    exact ⟨c', .head ⟨_, step_update (.ask _ (env 0)) hc₁⟩ hsteps⟩
  | sync o q => exact hsilent.elim

/-- The same under a condition on the steps, for a thread that follows a protocol all steps of which meet
the condition and do not block. -/
theorem exists_run_of_follows (start : Threads τ ι β ε ω α κ) [Nonempty ε] {P : Protocol ι β ω ν}
    {Q : γ → ν → Prop} {J : ν → (ι → β) → κ → Prop}
    {guard : Threads τ ι β ε ω α κ → τ × Event ι β ω → Prop} {t : τ}
    (hsees : ∀ v d c, J v d c → ∀ i, P.sees v i (d i))
    (hask : ∀ pool v d c, J v d c → guard ⟨pool, d, c⟩ (t, .ask) ∧ ∃ c', after d c t .ask c' ∧ J v d c')
    (hnext : ∀ pool v d c e v', J v d c → (∀ o, e ≠ .sync o) → (∀ i b, e = .read i b → b = d i) →
      P.next v e v' → guard ⟨pool, d, c⟩ (t, e) ∧ ∃ c', after d c t e c' ∧ J v' (e.store d) c')
    {p : Prog ι β ε ω γ} (hsilent : p.Silent) {v : ν} (hp : p.Follows P Q v) {c : κ} (hJ : J v d c)
    (k : γ → Prog ι β ε ω α) (pool : τ → Prog ι β ε ω α) :
    ∃ a v' d' c', Q a v' ∧ J v' d' c' ∧
      Relation.ReflTransGen ((interleaving after start).restrict guard).Next
        ⟨Function.update pool t (p >>= k), d, c⟩ ⟨Function.update pool t (k a), d', c'⟩ := by
  induction p generalizing v d c with
  | ret a => exact ⟨a, v, d, c, (Prog.Follows.ret_iff a).1 hp, hJ, .refl⟩
  | abort => exact absurd hp Prog.Follows.not_abort
  | read i q ih =>
    obtain ⟨v₁, hv₁, hq⟩ := (Prog.Follows.read_iff i q).1 hp (d i) (hsees v d c hJ i)
    have hread : ∀ j b, (.read i (d i) : Event ι β ω) = .read j b → b = d j := by
      rintro j b ⟨⟩
      rfl
    obtain ⟨hguard, c₁, hc₁, hJ₁⟩ := hnext _ v d c (.read i (d i)) v₁ hJ nofun hread hv₁
    obtain ⟨a, v', d', c', hQ, hJ', hsteps⟩ := ih (d i) (hsilent _) hq hJ₁
    exact ⟨a, v', d', c', hQ, hJ', .head ⟨_, hguard, step_update (.read i _) hc₁⟩ hsteps⟩
  | write i b q ih =>
    obtain ⟨v₁, hv₁, hq⟩ := (Prog.Follows.write_iff i b q).1 hp
    obtain ⟨hguard, c₁, hc₁, hJ₁⟩ := hnext _ v d c (.write i b) v₁ hJ nofun nofun hv₁
    obtain ⟨a, v', d', c', hQ, hJ', hsteps⟩ := ih hsilent hq hJ₁
    exact ⟨a, v', d', c', hQ, hJ', .head ⟨_, hguard, step_update (.write i b _) hc₁⟩ hsteps⟩
  | ask q ih =>
    obtain ⟨e⟩ := ‹Nonempty ε›
    obtain ⟨hguard, c₁, hc₁, hJ₁⟩ := hask _ v d c hJ
    obtain ⟨a, v', d', c', hQ, hJ', hsteps⟩ := ih e (hsilent _) ((Prog.Follows.ask_iff q).1 hp e) hJ₁
    exact ⟨a, v', d', c', hQ, hJ', .head ⟨_, hguard, step_update (.ask _ e) hc₁⟩ hsteps⟩
  | sync o q => exact hsilent.elim

-- from here on a program is shown to be silent by the rules only
attribute [irreducible] Prog.Silent

end Storage
