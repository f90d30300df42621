import Nachos.Lib.Recency
import Nachos.Machine.Tlb

/-!
# The counters of the TLB are ages

After any history, the counter of a slot is its age: how many calls ago it was used, or its index plus
the number of calls when it has not been used yet.  So the counters differ, and `Swaptlb` takes the slot
used longest ago.
-/

namespace Nachos.Tlb

open Recency

variable {tlbSize : ℕ} {tlbflag : ℕ → ℤ} {i : ℕ}

/-! ### The loops -/

/-- The counters when the first `i` have been incremented. -/
def bumped (tlbflag : ℕ → ℤ) (i j : ℕ) : ℤ := if j < i then tlbflag j + 1 else tlbflag j

/-- The first `i` counters can be incremented. -/
def Room (tlbflag : ℕ → ℤ) (i : ℕ) : Prop := ∀ j < i, tlbflag j < 2 ^ 31 - 1

theorem increment_bumped (h : tlbflag i < 2 ^ 31 - 1) :
    increment (bumped tlbflag i) i = some (bumped tlbflag (i + 1)) := by
  have hi : bumped tlbflag i i = tlbflag i := if_neg (lt_irrefl i)
  rw [increment, hi, if_pos h]
  congr 1
  funext j
  unfold bumped
  by_cases hj : j = i
  · subst hj
    rw [Function.update_self, if_pos (Nat.lt_succ_self j)]
  · rw [Function.update_of_ne hj]
    exact if_congr (by omega) rfl rfl

theorem room_of_increment {f : ℕ → ℤ} (h : increment (bumped tlbflag i) i = some f) :
    tlbflag i < 2 ^ 31 - 1 := by
  have hi : bumped tlbflag i i = tlbflag i := if_neg (lt_irrefl i)
  unfold increment at h
  rw [hi] at h
  split_ifs at h with hlt
  exact hlt

theorem Room.succ (h : Room tlbflag i) (hi : tlbflag i < 2 ^ 31 - 1) : Room tlbflag (i + 1) := by
  intro j hj
  rcases Nat.lt_succ_iff_lt_or_eq.1 hj with hj | rfl
  · exact h j hj
  · exact hi

theorem hitLoop_eq (h : Room tlbflag i) : hitLoop tlbflag i = some (bumped tlbflag i) := by
  induction i with
  | zero => rfl
  | succ i ih =>
    rw [hitLoop, ih fun j hj => h j (by omega)]
    exact increment_bumped (h i (Nat.lt_succ_self i))

theorem room_of_hitLoop {f : ℕ → ℤ} (h : hitLoop tlbflag i = some f) : Room tlbflag i := by
  induction i generalizing f with
  | zero => exact fun j hj => absurd hj (Nat.not_lt_zero j)
  | succ i ih =>
    obtain ⟨f', hloop, hinc⟩ := Option.bind_eq_some_iff.1 h
    have hroom := ih hloop
    rw [hitLoop_eq hroom, Option.some.injEq] at hloop
    subst hloop
    exact hroom.succ (room_of_increment hinc)

/-- `max` has been compared with every slot so far, both counters already incremented. -/
theorem swapLoop_eq (h : Room tlbflag i) :
    ∃ max, swapLoop tlbflag i = some (bumped tlbflag i, max) ∧ max ≤ i - 1 ∧
      ∀ j < i, tlbflag j ≤ tlbflag max := by
  induction i with
  | zero => exact ⟨0, rfl, le_rfl, fun j hj => absurd hj (Nat.not_lt_zero j)⟩
  | succ i ih =>
    obtain ⟨max, hloop, hlt, hle⟩ := ih fun j hj => h j (by omega)
    have hstep : swapLoop tlbflag (i + 1) = some (bumped tlbflag (i + 1),
        if bumped tlbflag (i + 1) i > bumped tlbflag (i + 1) max then i else max) := by
      rw [swapLoop, hloop]
      simp only [Option.bind_eq_bind, Option.bind_some, Option.pure_def,
        increment_bumped (h i (Nat.lt_succ_self i))]
    have hi : bumped tlbflag (i + 1) i = tlbflag i + 1 := if_pos (Nat.lt_succ_self i)
    have hm : bumped tlbflag (i + 1) max = tlbflag max + 1 := if_pos (by omega)
    rw [hi, hm] at hstep
    refine ⟨_, hstep, ?_⟩
    split_ifs with hgt
    · refine ⟨le_rfl, ?_⟩
      intro j hj
      rcases Nat.lt_succ_iff_lt_or_eq.1 hj with hj | rfl
      · have hj := hle j hj
        omega
      · exact le_rfl
    · refine ⟨by omega, ?_⟩
      intro j hj
      rcases Nat.lt_succ_iff_lt_or_eq.1 hj with hj | rfl
      · exact hle j hj
      · omega

theorem room_of_swapLoop {r : (ℕ → ℤ) × ℕ} (h : swapLoop tlbflag i = some r) :
    Room tlbflag i := by
  induction i generalizing r with
  | zero => exact fun j hj => absurd hj (Nat.not_lt_zero j)
  | succ i ih =>
    obtain ⟨⟨f, max⟩, hloop, hrest⟩ := Option.bind_eq_some_iff.1 h
    obtain ⟨f', hinc, -⟩ := Option.bind_eq_some_iff.1 hrest
    have hroom := ih hloop
    obtain ⟨max', heq, -⟩ := swapLoop_eq hroom
    rw [hloop, Option.some.injEq, Prod.mk.injEq] at heq
    obtain ⟨rfl, -⟩ := heq
    exact hroom.succ (room_of_increment hinc)

/-! ### Whole calls -/

/-- The counters after a call that uses `slot`. -/
def used (tlbflag : ℕ → ℤ) (tlbSize slot : ℕ) : ℕ → ℤ :=
  Function.update (bumped tlbflag tlbSize) slot 0

theorem hittlb_eq (h : Room tlbflag tlbSize) (slot : ℕ) :
    hittlb tlbSize tlbflag slot = some (used tlbflag tlbSize slot) := by
  rw [hittlb, hitLoop_eq h]
  rfl

theorem hittlb_eq_some {slot : ℕ} {f : ℕ → ℤ} (h : hittlb tlbSize tlbflag slot = some f) :
    Room tlbflag tlbSize ∧ f = used tlbflag tlbSize slot := by
  obtain ⟨f', hloop, -⟩ := Option.bind_eq_some_iff.1 h
  have hroom := room_of_hitLoop hloop
  rw [hittlb_eq hroom, Option.some.injEq] at h
  exact ⟨hroom, h.symm⟩

/-- `Swaptlb` returns a slot with a largest counter. -/
theorem exists_swaptlb (h : Room tlbflag tlbSize) :
    ∃ slot, swaptlb tlbSize tlbflag = some (slot, used tlbflag tlbSize slot) ∧
      slot ≤ tlbSize - 1 ∧ ∀ j < tlbSize, tlbflag j ≤ tlbflag slot := by
  obtain ⟨max, hloop, hmax⟩ := swapLoop_eq h
  refine ⟨max, ?_, hmax⟩
  rw [swaptlb, hloop]
  rfl

theorem swaptlb_eq_some {slot : ℕ} {f : ℕ → ℤ} (h : swaptlb tlbSize tlbflag = some (slot, f)) :
    Room tlbflag tlbSize ∧ f = used tlbflag tlbSize slot := by
  obtain ⟨⟨f', max⟩, hloop, -⟩ := Option.bind_eq_some_iff.1 h
  have hroom := room_of_swapLoop hloop
  obtain ⟨slot', hswap, -⟩ := exists_swaptlb hroom
  rw [h, Option.some.injEq, Prod.mk.injEq] at hswap
  obtain ⟨rfl, hf⟩ := hswap
  exact ⟨hroom, hf⟩

/-! ### Ages -/

/-- The counters are ages; a slot not used yet has its index for a rank. -/
def Aged (tlbSize : ℕ) (s : State) : Prop :=
  ∀ i < tlbSize, s.tlbflag i = age id s.history i

theorem Aged.use {s : State} (h : Aged tlbSize s) (slot : ℕ) :
    Aged tlbSize ⟨used s.tlbflag tlbSize slot, slot :: s.history⟩ := by
  intro i hi
  show used s.tlbflag tlbSize slot i = age id (slot :: s.history) i
  unfold used
  by_cases hslot : i = slot
  · subst hslot
    rw [Function.update_self, age_cons_self, Nat.cast_zero]
  · rw [Function.update_of_ne hslot, age_cons_of_ne hslot, bumped, if_pos hi, h i hi,
      Nat.cast_succ]

theorem aged_of_reachable {s : State} (h : (system tlbSize).Reachable s) : Aged tlbSize s := by
  apply @Transition.System.Reachable.invariant _ _ _ (Aged tlbSize) _ h
  · rintro _ rfl i -
    rw [age_nil]
    rfl
  · intro s e s' hs hstep
    cases hstep with
    | hit hslot hhit =>
      obtain ⟨-, rfl⟩ := hittlb_eq_some hhit
      exact hs.use _
    | swap hswap =>
      obtain ⟨-, rfl⟩ := swaptlb_eq_some hswap
      exact hs.use _

/-- **The counters implement exact LRU**, as long as none of them exceeds the range of `int`: they are
not negative and pairwise distinct, and unless an increment would overflow, `Swaptlb` returns the slot
that was used longest ago, slots never used counting as older, those of higher index first. -/
theorem exact_lru (hsize : 1 ≤ tlbSize) {s : State} (h : (system tlbSize).Reachable s) :
    (∀ i < tlbSize, 0 ≤ s.tlbflag i) ∧
    (∀ i < tlbSize, ∀ j < tlbSize, s.tlbflag i = s.tlbflag j → i = j) ∧
    ((∀ i < tlbSize, s.tlbflag i < 2 ^ 31 - 1) → ∃ slot tlbflag,
      swaptlb tlbSize s.tlbflag = some (slot, tlbflag) ∧ slot < tlbSize ∧
      ∀ j < tlbSize, j ≠ slot → Older id s.history slot j) := by
  have haged := aged_of_reachable h
  refine ⟨?_, ?_, ?_⟩
  · intro i hi
    rw [haged i hi]
    exact Int.natCast_nonneg _
  · intro i hi j hj heq
    rw [haged i hi, haged j hj] at heq
    exact age_inj Function.injective_id (Int.ofNat_inj.1 heq)
  · intro hroom
    obtain ⟨slot, hswap, hslot, hmax⟩ := exists_swaptlb hroom
    have hlt : slot < tlbSize := by omega
    refine ⟨slot, _, hswap, hlt, ?_⟩
    intro j hj hne
    have hle := hmax j hj
    rw [haged j hj, haged slot hlt, Int.ofNat_le] at hle
    rw [older_iff]
    apply lt_of_le_of_ne hle
    exact fun heq => hne (age_inj Function.injective_id heq)

/-- After a hit of slot 3 of 4, slot 2 is the oldest. -/
theorem exact_lru_hit :
    ∃ s tlbflag, (system 4).Reachable s ∧ s.history = [3] ∧
      swaptlb 4 s.tlbflag = some (2, tlbflag) := by
  have hroom : Room initial 4 := by
    unfold Room
    decide
  have hstart : (system 4).Reachable ⟨initial, []⟩ := .of_init rfl
  have hreach := hstart.tail (Step.hit (by decide) (hittlb_eq hroom 3))
  obtain ⟨slot, tlbflag, hswap, hslot, holdest⟩ :=
    (exact_lru (by decide) hreach).2.2 (by decide)
  refine ⟨_, tlbflag, hreach, rfl, ?_⟩
  by_cases htwo : slot = 2
  · rw [← htwo]
    exact hswap
  · -- no other slot is older than slot 2
    have hnot : ∀ slot < 4, slot ≠ 2 → ¬ Older id [3] slot 2 := by
      unfold Older
      decide
    exact absurd (holdest 2 (by decide) (Ne.symm htwo)) (hnot slot hslot htwo)

end Nachos.Tlb
