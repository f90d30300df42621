import Mathlib.Data.Nat.Notation
import Mathlib.Tactic.TypeStar

/-!
# Runs, and pairs of runs

`Comp ε σ α` is the type of programs that change a state of type `σ` and return an `α`, stop early
with an `ε`, or abort.  `Post A S E x` says what a run has come to: it has aborted, and `A` holds, or it
has stopped in a state with `E`, or it has returned in a state with `S`.  `Matches S E x y` says that two
runs, over states of different types, have come to the same end: both have aborted, or both have stopped
with the same ending, in states related by `E`, or both have returned the same value, in states related
by `S`.

`Post.bind` takes runs apart into steps, and `Matches.bind` pairs of runs into pairs of steps.
`Matches.common` compares two runs that both match a third one.
-/

namespace Coupling

/-- Programs on a state, which may stop early or abort. -/
def Comp (ε σ α : Type) : Type := σ → Option (Except ε α × σ)

namespace Comp

variable {ε σ α β : Type}

instance : Monad (Comp ε σ) where
  pure a := fun s => some (.ok a, s)
  bind p f := fun s =>
    match p s with
    | none => none
    | some (.error e, s') => some (.error e, s')
    | some (.ok a, s') => f a s'

/-- Stop with the ending `e`. -/
def stop (e : ε) : Comp ε σ α := fun s => some (.error e, s)

def abort : Comp ε σ α := fun _ => none

theorem bind_apply (p : Comp ε σ α) (f : α → Comp ε σ β) (s : σ) :
    (p >>= f) s = match p s with
      | none => none
      | some (.error e, s') => some (.error e, s')
      | some (.ok a, s') => f a s' := rfl

theorem bind_of_ok {p : Comp ε σ α} {f : α → Comp ε σ β} {s s' : σ} {a : α}
    (h : p s = some (.ok a, s')) : (p >>= f) s = f a s' := by
  rw [bind_apply, h]

theorem bind_of_abort {p : Comp ε σ α} {f : α → Comp ε σ β} {s : σ} (h : p s = none) :
    (p >>= f) s = none := by
  rw [bind_apply, h]

theorem ite_run (c : Prop) [Decidable c] (p q : Comp ε σ α) (s : σ) :
    (if c then p else q) s = if c then p s else q s := by
  by_cases hc : c
  · rw [if_pos hc, if_pos hc]
  · rw [if_neg hc, if_neg hc]

end Comp

variable {ε σ τ υ α β : Type}

/-- What a run has come to. -/
def Post (A : Prop) (S : α → σ → Prop) (E : ε → σ → Prop) : Option (Except ε α × σ) → Prop
  | none => A
  | some (.error e, s) => E e s
  | some (.ok a, s) => S a s

theorem Post.mono {A : Prop} {S S' : α → σ → Prop} {E : ε → σ → Prop} {x : Option (Except ε α × σ)}
    (h : Post A S E x) (hS : ∀ a s, S a s → S' a s) : Post A S' E x := by
  rcases x with _ | ⟨_ | a, s⟩
  · exact h
  · exact h
  · exact hS a s h

theorem Post.bind {A : Prop} {S : α → σ → Prop} {T : β → σ → Prop} {E : ε → σ → Prop}
    {p : Comp ε σ α} {f : α → Comp ε σ β} {s : σ} (h : Post A S E (p s))
    (hnext : ∀ a s', S a s' → Post A T E (f a s')) : Post A T E ((p >>= f) s) := by
  rw [Comp.bind_apply]
  generalize p s = x at h ⊢
  rcases x with _ | ⟨_ | a, s'⟩
  · exact h
  · exact h
  · exact hnext a s' h

/-- Two runs that have come to the same end. -/
inductive Matches (S : α → σ → τ → Prop) (E : ε → σ → τ → Prop) :
    Option (Except ε α × σ) → Option (Except ε α × τ) → Prop where
  | abort : Matches S E none none
  | stop {e s t} (h : E e s t) : Matches S E (some (.error e, s)) (some (.error e, t))
  | ret {a s t} (h : S a s t) : Matches S E (some (.ok a, s)) (some (.ok a, t))

namespace Matches

variable {S : α → σ → τ → Prop} {E : ε → σ → τ → Prop} {T : β → σ → τ → Prop}

theorem mono {S' : α → σ → τ → Prop} {E' : ε → σ → τ → Prop} {x : Option (Except ε α × σ)}
    {y : Option (Except ε α × τ)} (h : Matches S E x y) (hS : ∀ a s t, S a s t → S' a s t)
    (hE : ∀ e s t, E e s t → E' e s t) : Matches S' E' x y := by
  cases h with
  | abort => exact .abort
  | stop h => exact .stop (hE _ _ _ h)
  | ret h => exact .ret (hS _ _ _ h)

theorem bind {p : Comp ε σ α} {q : Comp ε τ α} {f : α → Comp ε σ β} {g : α → Comp ε τ β} {s : σ}
    {t : τ} (h : Matches S E (p s) (q t)) (hnext : ∀ a s' t', S a s' t' → Matches T E (f a s') (g a t')) :
    Matches T E ((p >>= f) s) ((q >>= g) t) := by
  rw [Comp.bind_apply, Comp.bind_apply]
  generalize p s = x at h
  generalize q t = y at h
  cases h with
  | abort => exact .abort
  | stop h => exact .stop h
  | ret h => exact hnext _ _ _ h

/-- Two runs that match the same run match each other. -/
theorem common {S' : α → σ → υ → Prop} {E' : ε → σ → υ → Prop} {x : Option (Except ε α × σ)}
    {y : Option (Except ε α × τ)} {z : Option (Except ε α × υ)} (h : Matches S E x y)
    (h' : Matches S' E' x z) :
    Matches (fun a t u => ∃ s, S a s t ∧ S' a s u) (fun e t u => ∃ s, E e s t ∧ E' e s u) y z := by
  cases h with
  | abort =>
    cases h'
    exact .abort
  | stop h =>
    cases h' with
    | stop h' => exact .stop ⟨_, h, h'⟩
  | ret h =>
    cases h' with
    | ret h' => exact .ret ⟨_, h, h'⟩

end Matches

end Coupling
