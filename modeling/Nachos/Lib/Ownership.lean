import Mathlib.Data.List.Nodup
import Mathlib.Logic.Function.Basic

/-!
# Disjoint ownership

Each owner has a list of things, and nothing is owned twice.  `give` hands things that nobody holds
to an owner, and `release` takes all of an owner's things away.
-/

structure Ownership (ι σ : Type) where
  own : ι → List σ
  nodup : ∀ i, (own i).Nodup
  unique : ∀ {i j s}, s ∈ own i → s ∈ own j → i = j

namespace Ownership

variable {ι σ : Type} {o : Ownership ι σ} {i j : ι} {l : List σ} {s : σ}

/-- Somebody owns `s`. -/
def Held (o : Ownership ι σ) (s : σ) : Prop := ∃ i, s ∈ o.own i

/-- All the things of some owners, with nothing twice. -/
theorem nodup_flatMap {owners : List ι} (h : owners.Nodup) : (owners.flatMap o.own).Nodup := by
  rw [List.nodup_flatMap]
  refine ⟨fun i _ => o.nodup i, h.imp fun {i j} hij => ?_⟩
  exact fun s hi hj => hij (o.unique hi hj)

/-- Nobody owns anything. -/
def empty : Ownership ι σ := ⟨fun _ => [], fun _ => List.nodup_nil, fun h => absurd h List.not_mem_nil⟩

theorem not_held_empty : ¬ (empty : Ownership ι σ).Held s :=
  fun ⟨_, h⟩ => absurd h List.not_mem_nil

variable [DecidableEq ι]

def give (o : Ownership ι σ) (i : ι) (l : List σ) (hl : l.Nodup) (hfree : ∀ s ∈ l, ¬ o.Held s) :
    Ownership ι σ where
  own := Function.update o.own i (o.own i ++ l)
  nodup := by
    intro j
    by_cases hj : j = i
    · subst hj
      rw [Function.update_self, List.nodup_append']
      exact ⟨o.nodup j, hl, fun s hs hs' => hfree s hs' ⟨j, hs⟩⟩
    · rw [Function.update_of_ne hj]
      exact o.nodup j
  unique := by
    intro j k s hj hk
    by_cases hji : j = i <;> by_cases hki : k = i
    · rw [hji, hki]
    · -- `s` is new at `i`, so `k` does not hold it
      subst hji
      rw [Function.update_self] at hj
      rw [Function.update_of_ne hki] at hk
      rcases List.mem_append.mp hj with hj | hj
      · exact o.unique hj hk
      · exact absurd ⟨k, hk⟩ (hfree s hj)
    · subst hki
      rw [Function.update_self] at hk
      rw [Function.update_of_ne hji] at hj
      rcases List.mem_append.mp hk with hk | hk
      · exact o.unique hj hk
      · exact absurd ⟨j, hj⟩ (hfree s hk)
    · rw [Function.update_of_ne hji] at hj
      rw [Function.update_of_ne hki] at hk
      exact o.unique hj hk

def release (o : Ownership ι σ) (i : ι) : Ownership ι σ where
  own := Function.update o.own i []
  nodup := by
    intro j
    by_cases hj : j = i
    · subst hj
      rw [Function.update_self]
      exact List.nodup_nil
    · rw [Function.update_of_ne hj]
      exact o.nodup j
  unique := by
    intro j k s hj hk
    have hne : ∀ {j}, s ∈ Function.update o.own i [] j → s ∈ o.own j := by
      intro j hj
      by_cases hji : j = i
      · subst hji
        rw [Function.update_self] at hj
        cases hj
      · rwa [Function.update_of_ne hji] at hj
    exact o.unique (hne hj) (hne hk)

variable {hl : l.Nodup} {hfree : ∀ s ∈ l, ¬ o.Held s}

theorem own_give_self : (o.give i l hl hfree).own i = o.own i ++ l := Function.update_self _ _ _

theorem own_give_of_ne (h : j ≠ i) : (o.give i l hl hfree).own j = o.own j :=
  Function.update_of_ne h _ _

theorem own_release_self : (o.release i).own i = [] := Function.update_self _ _ _

theorem own_release_of_ne (h : j ≠ i) : (o.release i).own j = o.own j :=
  Function.update_of_ne h _ _

theorem held_give : (o.give i l hl hfree).Held s ↔ s ∈ l ∨ o.Held s := by
  constructor
  · rintro ⟨j, hj⟩
    by_cases hji : j = i
    · subst hji
      rw [own_give_self, List.mem_append] at hj
      rcases hj with hj | hj
      · exact Or.inr ⟨j, hj⟩
      · exact Or.inl hj
    · rw [own_give_of_ne hji] at hj
      exact Or.inr ⟨j, hj⟩
  · rintro (hs | ⟨j, hj⟩)
    · refine ⟨i, ?_⟩
      rw [own_give_self]
      exact List.mem_append_right _ hs
    · refine ⟨j, ?_⟩
      by_cases hji : j = i
      · subst hji
        rw [own_give_self]
        exact List.mem_append_left _ hj
      · rwa [own_give_of_ne hji]

theorem held_release : (o.release i).Held s ↔ o.Held s ∧ s ∉ o.own i := by
  constructor
  · rintro ⟨j, hj⟩
    by_cases hji : j = i
    · subst hji
      rw [own_release_self] at hj
      cases hj
    · rw [own_release_of_ne hji] at hj
      exact ⟨⟨j, hj⟩, fun hi => hji (o.unique hj hi)⟩
  · rintro ⟨⟨j, hj⟩, hi⟩
    have hji : j ≠ i := by
      rintro rfl
      exact hi hj
    exact ⟨j, by rwa [own_release_of_ne hji]⟩

end Ownership
