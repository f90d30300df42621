import Mathlib.Data.Nat.Notation
import Mathlib.Logic.Function.Basic

/-!
# Programs over a store of blocks

`Prog ι β ε ω α` is the type of programs that read and write blocks of type `β` at addresses of type
`ι`, ask their environment for values of type `ε` (the clock, the contents of fresh memory), announce
synchronization operations of type `ω`, may abort, and return an `α`.  A program is a tree of its
possible accesses, so it can be run alone (`run`, below) or one access at a time, interleaved with
others.

Alone, synchronization operations have no effect.  `run` is given the answers of the environment as
a stream; `Yields` says what some environment makes a program return.  `wp ab Q p d` is the
weakest condition on the store `d` for `p` to end in `Q`, whatever the environment answers; `ab` is
what an abort is worth, `False` for total and `True` for partial correctness.  `wp_iff_run`
connects the two.
-/

namespace Storage

inductive Prog (ι β ε ω α : Type) : Type where
  | ret (a : α)
  | abort
  | read (i : ι) (k : β → Prog ι β ε ω α)
  | write (i : ι) (b : β) (k : Prog ι β ε ω α)
  | ask (k : ε → Prog ι β ε ω α)
  | sync (o : ω) (k : Prog ι β ε ω α)

namespace Prog

variable {ι β ε ω α γ : Type}

/-- Sequential composition. -/
def bind : Prog ι β ε ω α → (α → Prog ι β ε ω γ) → Prog ι β ε ω γ
  | ret a, f => f a
  | abort, _ => abort
  | read i k, f => read i fun b => (k b).bind f
  | write i b k, f => write i b (k.bind f)
  | ask k, f => ask fun e => (k e).bind f
  | sync o k, f => sync o (k.bind f)

instance : Monad (Prog ι β ε ω) where
  pure := ret
  bind := bind

/-- The value of `o`, or an abort. -/
def ofOption : Option α → Prog ι β ε ω α
  | some a => ret a
  | none => abort

theorem bind_ret (p : Prog ι β ε ω α) : p.bind ret = p := by
  induction p with
  | ret a => rfl
  | abort => rfl
  | read i k ih => exact congrArg (read i) (funext ih)
  | write i b k ih => exact congrArg (write i b) ih
  | ask k ih => exact congrArg ask (funext ih)
  | sync o k ih => exact congrArg (sync o) ih

theorem bind_assoc {δ : Type} (p : Prog ι β ε ω α) (f : α → Prog ι β ε ω γ)
    (g : γ → Prog ι β ε ω δ) : (p.bind f).bind g = p.bind fun a => (f a).bind g := by
  induction p with
  | ret a => rfl
  | abort => rfl
  | read i k ih => exact congrArg (read i) (funext ih)
  | write i b k ih => exact congrArg (write i b) ih
  | ask k ih => exact congrArg ask (funext ih)
  | sync o k ih => exact congrArg (sync o) ih

instance : LawfulMonad (Prog ι β ε ω) :=
  LawfulMonad.mk' _ (fun p => bind_ret p) (fun _ _ => rfl) (fun p f g => bind_assoc p f g)

/-! ### Running a program alone -/

section Run

variable [DecidableEq ι]

/-- Run `p` on the store `d` with the answers `env` of the environment.  The result is `none` when
the program aborts, and otherwise its value, the store and the answers not asked for. -/
def run : Prog ι β ε ω α → (ι → β) → (ℕ → ε) → Option (α × (ι → β) × (ℕ → ε))
  | ret a, d, env => some (a, d, env)
  | abort, _, _ => none
  | read i k, d, env => (k (d i)).run d env
  | write i b k, d, env => k.run (Function.update d i b) env
  | ask k, d, env => (k (env 0)).run d fun n => env (n + 1)
  | sync _ k, d, env => k.run d env

/-- In some environment `p` returns `a` and leaves the store `d'`. -/
def Yields (p : Prog ι β ε ω α) (d : ι → β) (a : α) (d' : ι → β) : Prop :=
  ∃ env env', p.run d env = some (a, d', env')

/-- The weakest precondition of `p` for `Q`, with `ab` for an abort. -/
def wp (ab : Prop) (Q : α → (ι → β) → Prop) : Prog ι β ε ω α → (ι → β) → Prop
  | ret a, d => Q a d
  | abort, _ => ab
  | read i k, d => (k (d i)).wp ab Q d
  | write i b k, d => k.wp ab Q (Function.update d i b)
  | ask k, d => ∀ e, (k e).wp ab Q d
  | sync _ k, d => k.wp ab Q d

variable {ab : Prop} {Q : α → (ι → β) → Prop} {d d' : ι → β} {p : Prog ι β ε ω α}

@[simp]
theorem wp_ret (a : α) : (ret a : Prog ι β ε ω α).wp ab Q d ↔ Q a d := Iff.rfl

@[simp]
theorem wp_pure (a : α) : (pure a : Prog ι β ε ω α).wp ab Q d ↔ Q a d := Iff.rfl

@[simp]
theorem wp_abort : (abort : Prog ι β ε ω α).wp ab Q d ↔ ab := Iff.rfl

@[simp]
theorem wp_read (i : ι) (k : β → Prog ι β ε ω α) :
    (read i k).wp ab Q d ↔ (k (d i)).wp ab Q d := Iff.rfl

@[simp]
theorem wp_write (i : ι) (b : β) (k : Prog ι β ε ω α) :
    (write i b k).wp ab Q d ↔ k.wp ab Q (Function.update d i b) := Iff.rfl

@[simp]
theorem wp_ask (k : ε → Prog ι β ε ω α) : (ask k).wp ab Q d ↔ ∀ e, (k e).wp ab Q d := Iff.rfl

@[simp]
theorem wp_sync (o : ω) (k : Prog ι β ε ω α) : (sync o k).wp ab Q d ↔ k.wp ab Q d := Iff.rfl

theorem wp_bind {Q : γ → (ι → β) → Prop} (p : Prog ι β ε ω α) (f : α → Prog ι β ε ω γ) :
    (p.bind f).wp ab Q d ↔ p.wp ab (fun a d' => (f a).wp ab Q d') d := by
  induction p generalizing d with
  | ret a => exact Iff.rfl
  | abort => exact Iff.rfl
  | read i k ih => exact ih (d i)
  | write i b k ih => exact ih
  | ask k ih => exact forall_congr' fun e => ih e
  | sync o k ih => exact ih

/-- The same, as `do` blocks write it. -/
@[simp]
theorem wp_do {Q : γ → (ι → β) → Prop} (p : Prog ι β ε ω α) (f : α → Prog ι β ε ω γ) :
    (p >>= f).wp ab Q d ↔ p.wp ab (fun a d' => (f a).wp ab Q d') d :=
  wp_bind p f

@[simp]
theorem wp_ofOption_some (a : α) :
    (ofOption (some a) : Prog ι β ε ω α).wp ab Q d ↔ Q a d := Iff.rfl

@[simp]
theorem wp_ofOption_none : (ofOption none : Prog ι β ε ω α).wp ab Q d ↔ ab := Iff.rfl

theorem wp_mono {Q' : α → (ι → β) → Prop} (h : p.wp ab Q d) (hQ : ∀ a d', Q a d' → Q' a d') :
    p.wp ab Q' d := by
  induction p generalizing d with
  | ret a => exact hQ a d h
  | abort => exact h
  | read i k ih => exact ih (d i) h
  | write i b k ih => exact ih h
  | ask k ih => exact fun e => ih e (h e)
  | sync o k ih => exact ih h

theorem wp_trivial : p.wp True (fun _ _ => True) d := by
  induction p generalizing d with
  | ret a => exact trivial
  | abort => exact trivial
  | read i k ih => exact ih (d i)
  | write i b k ih => exact ih
  | ask k ih => exact fun e => ih e
  | sync o k ih => exact ih

theorem wp_and {Q' : α → (ι → β) → Prop} (h : p.wp ab Q d) (h' : p.wp ab Q' d) :
    p.wp ab (fun a d' => Q a d' ∧ Q' a d') d := by
  induction p generalizing d with
  | ret a => exact ⟨h, h'⟩
  | abort => exact h
  | read i k ih => exact ih (d i) h h'
  | write i b k ih => exact ih h h'
  | ask k ih => exact fun e => ih e (h e) (h' e)
  | sync o k ih => exact ih h h'

/-- What holds of every run for each `c` holds of every run for all `c`. -/
theorem wp_forall {κ : Sort*} {Q : κ → α → (ι → β) → Prop} (h : ∀ c, p.wp True (Q c) d) :
    p.wp True (fun a d' => ∀ c, Q c a d') d := by
  induction p generalizing d with
  | ret a => exact h
  | abort => exact trivial
  | read i k ih => exact ih (d i) h
  | write i b k ih => exact ih h
  | ask k ih => exact fun e => ih e fun c => h c e
  | sync o k ih => exact ih h

/-- A total result is also a partial one. -/
theorem wp_of_total (h : p.wp False Q d) : p.wp ab Q d := by
  induction p generalizing d with
  | ret a => exact h
  | abort => exact h.elim
  | read i k ih => exact ih (d i) h
  | write i b k ih => exact ih h
  | ask k ih => exact fun e => ih e (h e)
  | sync o k ih => exact ih h

/-- **Adequacy**: the weakest precondition speaks about the runs in every environment. -/
theorem wp_iff_run [Nonempty ε] : p.wp ab Q d ↔ ∀ env, (p.run d env).elim ab fun r => Q r.1 r.2.1 := by
  induction p generalizing d with
  | ret a =>
    obtain ⟨e⟩ := ‹Nonempty ε›
    exact ⟨fun h _ => h, fun h => h fun _ => e⟩
  | abort =>
    obtain ⟨e⟩ := ‹Nonempty ε›
    exact ⟨fun h _ => h, fun h => h fun _ => e⟩
  | read i k ih => exact ih (d i)
  | write i b k ih => exact ih
  | ask k ih =>
    constructor
    · exact fun h env => (ih (env 0)).mp (h (env 0)) fun n => env (n + 1)
    · -- put the answer in front of a stream
      intro h e
      refine (ih e).mpr fun env => ?_
      have henv := h fun n => Nat.rec e (fun m _ => env m) n
      exact henv
  | sync o k ih => exact ih

/-- What a partial correctness result says about a run that returns. -/
theorem Yields.of_wp {a : α} (h : p.Yields d a d') (hp : p.wp True Q d) : Q a d' := by
  obtain ⟨env, env', hrun⟩ := h
  have hne : Nonempty ε := ⟨env 0⟩
  have hr := wp_iff_run.mp hp env
  rw [hrun] at hr
  exact hr

/-- What a total correctness result says about runs: there is one, and it ends in `Q`. -/
theorem exists_yields_of_wp [Nonempty ε] (h : p.wp False Q d) : ∃ a d', p.Yields d a d' ∧ Q a d' := by
  obtain ⟨e⟩ := ‹Nonempty ε›
  have hr := wp_iff_run.mp h fun _ => e
  cases hrun : p.run d fun _ => e with
  | none => rw [hrun] at hr; exact hr.elim
  | some r =>
    rw [hrun] at hr
    exact ⟨r.1, r.2.1, ⟨_, r.2.2, hrun⟩, hr⟩

/-- The result of a program that has only one. -/
theorem yields_iff_of_wp [Nonempty ε] {a : α} (h : p.wp False (fun b e => b = a ∧ e = d') d) (b : α)
    (e : ι → β) : p.Yields d b e ↔ b = a ∧ e = d' := by
  constructor
  · intro hy
    exact hy.of_wp (wp_of_total h)
  · rintro ⟨rfl, rfl⟩
    obtain ⟨b, e, hy, rfl, rfl⟩ := exists_yields_of_wp h
    exact hy

-- from here on a weakest precondition is computed by its rules only
attribute [irreducible] wp

end Run

end Prog

end Storage
