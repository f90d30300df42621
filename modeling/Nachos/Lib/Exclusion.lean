import Mathlib.Logic.Function.Basic
import Mathlib.Data.Int.Order.Basic

/-!
# Critical sections

A lock that is not atomic: a process takes the token (`entered`), then records itself as the holder
(`holding`); to leave, it first clears the record (`unlocking`) and then gives the token back.
`Exclusive` is the invariant of such a lock, whose token count is `value` and whose record is
`held`: at most one process is inside, and the record is right.  `Move` lists what one process can do,
and `Exclusive.move` says that the invariant is kept.
-/

namespace Exclusion

/-- Where a process stands with respect to the lock. -/
inductive Place where
  | outside
  /-- It has the token, and is not yet recorded. -/
  | entered
  | holding
  /-- It has found itself recorded and is about to clear the record. -/
  | clearing
  /-- It is about to give the token back. -/
  | unlocking
  deriving DecidableEq

variable {τ : Type*} {place : τ → Place} {value value' : ℤ} {held held' : Option τ}
  {t u : τ} {q q' : Place}

/-- The process is the recorded holder. -/
def Place.recorded : Place → Prop
  | .holding => True
  | .clearing => True
  | _ => False

/-- A step of the process `t` from the place `q` to the place `q'`. -/
inductive Move (t : τ) : Place → ℤ → Option τ → Place → ℤ → Option τ → Prop where
  | stay (q v h) : Move t q v h q v h
  | enter {v} (h) (hv : v ≠ 0) : Move t .outside v h .entered (v - 1) h
  | assign (v h) : Move t .entered v h .holding v (some t)
  | release (v h) : Move t .holding v h .clearing v h
  | clear (v h) : Move t .clearing v h .unlocking v none
  | unlock (v h) : Move t .unlocking v h .outside (v + 1) h

/-- At most one process is inside, and it is recorded as the holder while it should be. -/
structure Exclusive (place : τ → Place) (value : ℤ) (held : Option τ) : Prop where
  taken : value = 0 ∧ (∃ t, place t ≠ .outside) ∨ value = 1 ∧ ∀ t, place t = .outside
  unique : ∀ t u, place t ≠ .outside → place u ≠ .outside → t = u
  recorded : ∀ t, held = some t ↔ (place t).recorded

theorem exclusive_new : Exclusive (fun _ : τ => Place.outside) 1 none :=
  ⟨Or.inr ⟨rfl, fun _ => rfl⟩, fun _ _ h => absurd rfl h, fun _ => iff_of_false nofun id⟩

namespace Exclusive

theorem value_of_inside (h : Exclusive place value held) (ht : place t ≠ .outside) : value = 0 := by
  rcases h.taken with ⟨hv, -⟩ | ⟨-, hout⟩
  · exact hv
  · exact absurd (hout t) ht

/-- Nobody is recorded when nobody is inside. -/
theorem held_of_value (h : Exclusive place value held) (hv : value = 1) : held = none := by
  rcases h.taken with ⟨h0, -⟩ | ⟨-, hout⟩
  · omega
  · cases hheld : held with
    | none => rfl
    | some t =>
      have hrec := (h.recorded t).1 hheld
      rw [hout t] at hrec
      cases hrec

theorem outside_of_ne (h : Exclusive place value held) (ht : place t ≠ .outside) (hu : u ≠ t) :
    place u = .outside := by
  by_contra hne
  exact hu (h.unique u t hne ht)

variable [DecidableEq τ]

/-- The others are outside, so the invariant only has to be checked for `t`. -/
theorem of_alone (hother : ∀ u, u ≠ t → place u = .outside) (hq : q ≠ .outside)
    (hrec : ∀ u, held = some u ↔ u = t ∧ q.recorded) :
    Exclusive (Function.update place t q) 0 held := by
  refine ⟨Or.inl ⟨rfl, t, by rwa [Function.update_self]⟩, ?_, ?_⟩
  · intro u u' hu hu'
    have hall : ∀ w, Function.update place t q w ≠ .outside → w = t := by
      intro w hw
      by_contra hne
      rw [Function.update_of_ne hne] at hw
      exact hw (hother w hne)
    rw [hall u hu, hall u' hu']
  · intro u
    by_cases hu : u = t
    · subst hu
      rw [Function.update_self, hrec]
      exact ⟨fun h => h.2, fun h => ⟨rfl, h⟩⟩
    · rw [Function.update_of_ne hu, hother u hu, hrec]
      exact ⟨fun h => absurd h.1 hu, nofun⟩

/-- **Mutual exclusion is kept.** -/
theorem move (h : Exclusive place value held) (hm : Move t (place t) value held q' value' held') :
    Exclusive (Function.update place t q') value' held' := by
  generalize hq : place t = q at hm
  cases hm with
  | stay =>
    rw [← hq, Function.update_eq_self]
    exact h
  | enter _ hv =>
    obtain ⟨rfl, hout⟩ : value = 1 ∧ ∀ t, place t = .outside := by
      rcases h.taken with ⟨h0, -⟩ | h1
      · exact absurd h0 hv
      · exact h1
    rw [h.held_of_value rfl]
    exact of_alone (fun u _ => hout u) nofun fun u => iff_of_false nofun fun h => h.2
  | assign =>
    have hin : place t ≠ .outside := by rw [hq]; nofun
    rw [h.value_of_inside hin]
    refine of_alone (fun u hu => h.outside_of_ne hin hu) nofun fun u => ?_
    rw [Option.some.injEq]
    exact ⟨fun h => ⟨h.symm, trivial⟩, fun h => h.1.symm⟩
  | release =>
    have hin : place t ≠ .outside := by rw [hq]; nofun
    have hheld : held = some t := (h.recorded t).2 (by rw [hq]; trivial)
    rw [h.value_of_inside hin, hheld]
    refine of_alone (fun u hu => h.outside_of_ne hin hu) nofun fun u => ?_
    rw [Option.some.injEq]
    exact ⟨fun h => ⟨h.symm, trivial⟩, fun h => h.1.symm⟩
  | clear =>
    have hin : place t ≠ .outside := by rw [hq]; nofun
    rw [h.value_of_inside hin]
    exact of_alone (fun u hu => h.outside_of_ne hin hu) nofun fun u => iff_of_false nofun fun h => h.2
  | unlock =>
    have hin : place t ≠ .outside := by rw [hq]; nofun
    have hout : ∀ u, Function.update place t .outside u = .outside := by
      intro u
      by_cases hu : u = t
      · rw [hu, Function.update_self]
      · rw [Function.update_of_ne hu, h.outside_of_ne hin hu]
    have hnone : held = none := by
      cases hheld : held with
      | none => rfl
      | some u =>
        have hrec := (h.recorded u).1 hheld
        by_cases hu : u = t
        · rw [hu, hq] at hrec
          cases hrec
        · rw [h.outside_of_ne hin hu] at hrec
          cases hrec
    rw [h.value_of_inside hin, hnone]
    refine ⟨Or.inr ⟨rfl, hout⟩, fun u u' hu => absurd (hout u) hu, fun u => iff_of_false nofun ?_⟩
    rw [hout u]
    exact id

end Exclusive

end Exclusion
