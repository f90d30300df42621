import Mathlib.Data.Set.Card
import Mathlib.Logic.Function.Basic

/-!
# Blocking queues

A queue is protected by a lock, and threads that find it empty wait to be woken.  Only where each
thread is matters here, who is on the waiting list, and how many items there are:

* a producer gets the lock (`adding`), adds an item, wakes one waiting thread (`owing` until then)
  and gives the lock back (`leaving`);
* a consumer gets the lock (`owing`: it has not looked at the queue yet), and takes an item
  (`leaving`), or finds none; it then gives the lock back (`waiting`), goes onto the waiting list
  (`unlisted` until then), and sleeps until it is woken and gets the lock back.

A woken thread competes for the lock with everybody else.  No wake-up is lost: while threads wait and
the lock is free, at least as many threads have been woken, and have not had the lock since, as there
are items.
-/

namespace BlockingQueue

/-- Where a thread is. -/
inductive Status where
  | outside
  | adding
  | owing
  | leaving
  | waiting
  | unlisted
  | asleep

/-- The thread has the lock. -/
def Status.holds : Status → Prop
  | .adding => True
  | .owing => True
  | .leaving => True
  | .waiting => True
  | _ => False

structure State (τ : Type*) where
  status : τ → Status
  waiting : List τ
  size : ℕ

variable {τ : Type*} [DecidableEq τ]

/-- The steps of the thread `t`.  Between giving the lock back and going onto the waiting list it is
not interrupted, which matters only for those who add. -/
inductive Step (s : State τ) : State τ → Prop where
  | enter {t : τ} {st : Status} (hstatus : s.status t = .outside)
      (hfree : ∀ u, ¬ (s.status u).holds) (hst : st = .adding ∨ st = .owing) :
      Step s { s with status := Function.update s.status t st }
  | resume {t : τ} (hstatus : s.status t = .asleep) (hwoken : t ∉ s.waiting)
      (hfree : ∀ u, ¬ (s.status u).holds) :
      Step s { s with status := Function.update s.status t .owing }
  | add {t : τ} (hstatus : s.status t = .adding) (hlisted : ∀ u, s.status u ≠ .unlisted) :
      Step s ⟨Function.update s.status t .owing, s.waiting, s.size + 1⟩
  | wake {t : τ} (hstatus : s.status t = .owing) :
      Step s ⟨Function.update s.status t .leaving, s.waiting.tail, s.size⟩
  | take {t : τ} (hstatus : s.status t = .owing) (hsize : s.size ≠ 0) :
      Step s ⟨Function.update s.status t .leaving, s.waiting, s.size - 1⟩
  | wait {t : τ} (hstatus : s.status t = .owing) (hsize : s.size = 0) :
      Step s { s with status := Function.update s.status t .waiting }
  | leave {t : τ} (hstatus : s.status t = .leaving) :
      Step s { s with status := Function.update s.status t .outside }
  | unlock {t : τ} (hstatus : s.status t = .waiting) :
      Step s { s with status := Function.update s.status t .unlisted }
  | enlist {t : τ} (hstatus : s.status t = .unlisted) :
      Step s ⟨Function.update s.status t .asleep, s.waiting ++ [t], s.size⟩

/-- The threads that have been woken and have not had the lock since. -/
def Woken (s : State τ) (t : τ) : Prop := s.status t = .asleep ∧ t ∉ s.waiting

/-- Threads `F` have been woken, enough for the items; one short of it if a thread is owing. -/
def Enough (s : State τ) : Prop :=
  ∃ F : Finset τ, (∀ t ∈ F, Woken s t) ∧
    (s.size ≤ F.card ∨ (∃ t, s.status t = .owing) ∧ s.size ≤ F.card + 1)

structure Inv (s : State τ) : Prop where
  unique : ∀ t u, (s.status t).holds → (s.status u).holds → t = u
  empty : ∀ t, s.status t = .waiting ∨ s.status t = .unlisted → s.size = 0
  listed : ∀ t ∈ s.waiting, s.status t = .asleep
  nodup : s.waiting.Nodup
  enough : s.waiting = [] ∨ Enough s

omit [DecidableEq τ] in
theorem Inv.start (s : State τ) (hstatus : ∀ t, s.status t = .outside) (hwaiting : s.waiting = []) :
    Inv s := by
  refine ⟨?_, ?_, ?_, ?_, Or.inl hwaiting⟩
  · intro t u ht
    rw [hstatus t] at ht
    exact ht.elim
  · intro t ht
    rw [hstatus t] at ht
    rcases ht with ht | ht <;> cases ht
  · intro t ht
    rw [hwaiting] at ht
    cases ht
  · rw [hwaiting]
    exact List.nodup_nil

variable {s s' : State τ} {t : τ} {st : Status}

/-- A step of `t`, in which nobody goes onto the waiting list. -/
theorem Inv.move {waiting : List τ} {size : ℕ} (h : Inv s)
    (hunique : st.holds → (s.status t).holds ∨ ∀ u, ¬ (s.status u).holds)
    (hempty : st = .waiting ∨ st = .unlisted → size = 0)
    (hothers : ∀ u, u ≠ t → s.status u = .waiting ∨ s.status u = .unlisted → size = 0)
    (ht : t ∉ waiting) (hlisted : waiting.Sublist s.waiting)
    (henough : waiting ≠ [] → Enough s → Enough ⟨Function.update s.status t st, waiting, size⟩) :
    Inv ⟨Function.update s.status t st, waiting, size⟩ := by
  refine ⟨?_, ?_, ?_, hlisted.nodup h.nodup, ?_⟩
  · intro u v hu hv
    simp only [Function.update_apply] at hu hv
    have hone := h.unique
    grind
  · intro u hu
    simp only [Function.update_apply] at hu
    split_ifs at hu with hut
    · exact hempty hu
    · exact hothers u hut hu
  · intro u hu
    have hut : u ≠ t := fun heq => ht (heq ▸ hu)
    exact (Function.update_of_ne hut _ _).trans (h.listed u (hlisted.subset hu))
  · by_cases hnil : waiting = []
    · exact Or.inl hnil
    · refine Or.inr (henough hnil (h.enough.resolve_left ?_))
      intro hnone
      rw [hnone, List.sublist_nil] at hlisted
      exact hnil hlisted

/-- The threads woken are still woken after a step of another. -/
theorem Woken.move {u : τ} {waiting : List τ} {size : ℕ} (h : Woken s u) (hut : u ≠ t)
    (hwaiting : u ∉ waiting) : Woken ⟨Function.update s.status t st, waiting, size⟩ u :=
  ⟨(Function.update_of_ne hut _ _).trans h.1, hwaiting⟩

omit [DecidableEq τ] in
theorem Inv.notMem_waiting (h : Inv s) (ht : s.status t ≠ .asleep) : t ∉ s.waiting :=
  fun hmem => ht (h.listed t hmem)

omit [DecidableEq τ] in
theorem Woken.ne {u : τ} (h : Woken s u) (ht : s.status t ≠ .asleep) : u ≠ t := by
  rintro rfl
  exact ht h.1

/-- A step of a thread that was not owing, or still is. -/
theorem Enough.move (h : Enough s) (ht : s.status t ≠ .asleep)
    (howing : s.status t = .owing → st = .owing) :
    Enough { s with status := Function.update s.status t st } := by
  obtain ⟨F, hF, hsize⟩ := h
  refine ⟨F, ?_, ?_⟩
  · intro u hu
    exact (hF u hu).move ((hF u hu).ne ht) (hF u hu).2
  · refine hsize.imp_right ?_
    rintro ⟨⟨u, hu⟩, hle⟩
    refine ⟨⟨u, ?_⟩, hle⟩
    simp only [Function.update_apply]
    split_ifs with hut
    · exact howing (hut ▸ hu)
    · exact hu

omit [DecidableEq τ] in
/-- Nobody is owing while the lock is free. -/
theorem Enough.of_free (h : Enough s) (hfree : ∀ u, ¬ (s.status u).holds) :
    ∃ F : Finset τ, (∀ t ∈ F, Woken s t) ∧ s.size ≤ F.card := by
  obtain ⟨F, hF, hsize | ⟨⟨u, hu⟩, -⟩⟩ := h
  · exact ⟨F, hF, hsize⟩
  · refine absurd ?_ (hfree u)
    rw [hu]
    trivial

omit [DecidableEq τ] in
theorem Enough.of_size_eq_zero (h : s.size = 0) : Enough s :=
  ⟨∅, by simp, Or.inl (by simp [h])⟩

theorem Inv.step (h : Inv s) (hstep : Step s s') : Inv s' := by
  cases hstep with
  | @enter t st hstatus hfree hst =>
    refine h.move (fun _ => Or.inr hfree) ?_ (fun u _ => h.empty u)
      (h.notMem_waiting (by simp [hstatus])) (List.Sublist.refl _) ?_
    · rcases hst with rfl | rfl <;> simp
    · intro _ henough
      exact henough.move (by simp [hstatus]) (by simp [hstatus])
  | @resume t hstatus hwoken hfree =>
    refine h.move (fun _ => Or.inr hfree) (by simp) (fun u _ => h.empty u) hwoken
      (List.Sublist.refl _) ?_
    -- the thread stops being woken, and owes from now on
    intro _ henough
    obtain ⟨F, hF, hsize⟩ := henough.of_free hfree
    refine ⟨F.erase t, ?_, Or.inr ⟨⟨t, Function.update_self _ _ _⟩, ?_⟩⟩
    · intro u hu
      obtain ⟨hne, hu⟩ := Finset.mem_erase.1 hu
      exact (hF u hu).move hne (hF u hu).2
    · have hcard := Finset.pred_card_le_card_erase (s := F) (a := t)
      show s.size ≤ _
      omega
  | @add t hstatus hlisted =>
    have hholds : (s.status t).holds := by
      rw [hstatus]
      trivial
    refine h.move (fun _ => Or.inl hholds) (by simp) ?_ (h.notMem_waiting (by simp [hstatus]))
      (List.Sublist.refl _) ?_
    · rintro u hut (hu | hu)
      · exact absurd (h.unique u t (by rw [hu]; trivial) hholds) hut
      · exact absurd hu (hlisted u)
    · rintro - ⟨F, hF, hsize⟩
      -- nobody else has the lock, so nobody was owing
      have hle : s.size ≤ F.card := by
        rcases hsize with hle | ⟨⟨u, hu⟩, -⟩
        · exact hle
        · rw [h.unique u t (by rw [hu]; trivial) hholds, hstatus] at hu
          cases hu
      refine ⟨F, ?_, Or.inr ⟨⟨t, Function.update_self _ _ _⟩, Nat.succ_le_succ hle⟩⟩
      intro u hu
      exact (hF u hu).move ((hF u hu).ne (by simp [hstatus])) (hF u hu).2
  | @wake t hstatus =>
    have ht : t ∉ s.waiting := h.notMem_waiting (by simp [hstatus])
    refine h.move (fun _ => Or.inl ?_) (by simp) (fun u _ => h.empty u)
      (fun hmem => ht (List.mem_of_mem_tail hmem)) (List.tail_sublist _) ?_
    · rw [hstatus]
      trivial
    · rintro hnil ⟨F, hF, hcard⟩
      have hsome : s.waiting ≠ [] := fun hnone => hnil (by rw [hnone]; rfl)
      obtain ⟨next, rest, hlist⟩ := List.exists_cons_of_ne_nil hsome
      have hnext : next ∈ s.waiting := by simp [hlist]
      have hnodup := h.nodup
      rw [hlist, List.nodup_cons] at hnodup
      -- the thread woken pays for the one that was owing
      refine ⟨insert next F, ?_, Or.inl ?_⟩
      · intro u hu
        show Woken ⟨_, s.waiting.tail, _⟩ u
        rw [hlist, List.tail_cons]
        rcases Finset.mem_insert.1 hu with rfl | hu
        · have hut : u ≠ t := fun heq => ht (heq ▸ hnext)
          exact ⟨(Function.update_of_ne hut _ _).trans (h.listed u hnext), hnodup.1⟩
        · refine (hF u hu).move ((hF u hu).ne (by simp [hstatus])) fun hmem => (hF u hu).2 ?_
          rw [hlist]
          exact List.mem_cons_of_mem _ hmem
      · rw [Finset.card_insert_of_notMem fun hmem => (hF next hmem).2 hnext]
        show s.size ≤ F.card + 1
        rcases hcard with hle | ⟨-, hle⟩ <;> omega
  | @take t hstatus hsize =>
    refine h.move (fun _ => Or.inl ?_) (by simp) ?_ (h.notMem_waiting (by simp [hstatus]))
      (List.Sublist.refl _) ?_
    · rw [hstatus]
      trivial
    · intro u _ hu
      exact absurd (h.empty u hu) hsize
    · rintro - ⟨F, hF, hcard⟩
      refine ⟨F, ?_, Or.inl ?_⟩
      · intro u hu
        exact (hF u hu).move ((hF u hu).ne (by simp [hstatus])) (hF u hu).2
      · show s.size - 1 ≤ F.card
        rcases hcard with hle | ⟨-, hle⟩ <;> omega
  | @wait t hstatus hsize =>
    refine h.move (fun _ => Or.inl ?_) (fun _ => hsize) (fun _ _ _ => hsize)
      (h.notMem_waiting (by simp [hstatus])) (List.Sublist.refl _) ?_
    · rw [hstatus]
      trivial
    · exact fun _ _ => .of_size_eq_zero hsize
  | @leave t hstatus =>
    refine h.move (fun hst => hst.elim) (by simp) (fun u _ => h.empty u)
      (h.notMem_waiting (by simp [hstatus])) (List.Sublist.refl _) ?_
    intro _ henough
    exact henough.move (by simp [hstatus]) (by simp [hstatus])
  | @unlock t hstatus =>
    refine h.move (fun hst => hst.elim) (fun _ => h.empty t (Or.inl hstatus)) (fun u _ => h.empty u)
      (h.notMem_waiting (by simp [hstatus])) (List.Sublist.refl _) ?_
    intro _ henough
    exact henough.move (by simp [hstatus]) (by simp [hstatus])
  | @enlist t hstatus =>
    have hsize : s.size = 0 := h.empty t (Or.inr hstatus)
    have ht : t ∉ s.waiting := h.notMem_waiting (by simp [hstatus])
    have hmove : Inv { s with status := Function.update s.status t .asleep } := by
      refine h.move (fun hst => hst.elim) (by simp) (fun _ _ _ => hsize) ht (List.Sublist.refl _) ?_
      exact fun _ _ => .of_size_eq_zero hsize
    refine ⟨hmove.unique, hmove.empty, ?_, ?_, Or.inr (.of_size_eq_zero hsize)⟩
    · intro u hu
      rcases List.mem_append.1 hu with hu | hu
      · exact hmove.listed u hu
      · rw [List.mem_singleton.1 hu]
        exact Function.update_self _ _ _
    · exact h.nodup.append (List.nodup_singleton t) (by simpa using ht)

end BlockingQueue
