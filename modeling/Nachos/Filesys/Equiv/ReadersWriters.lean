import Nachos.Filesys.ReadersWriters
import Nachos.Threads.Equiv.Semaphore

/-!
## Safety and progress of the readers/writers protocol

The invariant counts threads at control points.

* `readerLock` has at most one holder, and `heldthread` names it between the two halves of
  `Acquire` and of `Release`, so that every `Release` passes its test.
* `readerNum[s]` counts the readers that have made the increment and not the decrement.
* The readers of `s` hold the semaphore of `s` as a group (`Group`): from the moment the first one
  is past its `P` (`Entering` ends) until the last one has done its `V` (`Leaving` ends).  The
  value, the writers inside and the group add up to `1`.

A reader can sleep on the semaphore of a sector while holding the lock of all sectors.  That cannot
deadlock: the semaphore it sleeps on is then held by a writer, and a writer needs no lock to leave
(`exists_run`).
-/
namespace Nachos.ReadersWriters

open Control Semaphore

variable {τ κ : Type} {p : Point κ}

/-! ### Classes of control points

What a part of the invariant depends on is a view of the points: it is kept by a step that no thread
looks different after. -/

/-- Asleep on the semaphore inside `readerLock`. -/
def Point.lockAsleep : Point κ → Bool
  | .lockWait _ .asleep _ => true
  | _ => false

/-- Woken from the semaphore inside `readerLock`. -/
def Point.lockWoken : Point κ → Bool
  | .lockWait _ .woken _ => true
  | _ => false

/-- Past the `P` of `Acquire` and before the `V` of `Release`. -/
def Point.holdsLock : Point κ → Bool
  | .locked .. | .update .. | .check .. | .semWait .. | .semV .. | .release .. | .clear ..
  | .unlock .. => true
  | _ => false

/-- Holding the lock with `heldthread` assigned. -/
def Point.recorded : Point κ → Bool
  | .update .. | .check .. | .semWait .. | .semV .. | .release .. | .clear .. => true
  | _ => false

/-- What the lock sees of a thread. -/
def Point.lockView (p : Point κ) : Bool × Bool × Bool × Bool :=
  (p.lockAsleep, p.lockWoken, p.holdsLock, p.recorded)

/-- The points at which a thread is asleep on the lock. -/
theorem Point.eq_of_lockAsleep (h : p.lockAsleep) : ∃ ph s, p = .lockWait ph .asleep s := by
  cases p with
  | lockWait ph w s =>
    cases w with
    | asleep => exact ⟨ph, s, rfl⟩
    | _ => cases h
  | _ => cases h

theorem Point.holdsLock_of_recorded (h : p.recorded) : p.holdsLock := by
  cases p <;> first | rfl | cases h

theorem Point.not_waiting_of_holdsLock (h : p.holdsLock) :
    p.lockAsleep = false ∧ p.lockWoken = false := by
  cases p <;> first | exact ⟨rfl, rfl⟩ | cases h

/-- A point is one of the three that `wake` changes, or is left as it is. -/
@[elab_as_elim]
theorem Point.wake_induction {motive : Point κ → Prop}
    (lock : ∀ ph s, motive (.lockWait ph .asleep s)) (reader : ∀ s, motive (.semWait .asleep s))
    (writer : ∀ s, motive (.writeWait .asleep s)) (other : ∀ p, p.wake = p → motive p)
    (p : Point κ) : motive p := by
  cases p with
  | lockWait ph w s =>
    cases w with
    | asleep => exact lock ph s
    | _ => exact other _ rfl
  | semWait w s =>
    cases w with
    | asleep => exact reader s
    | _ => exact other _ rfl
  | writeWait w s =>
    cases w with
    | asleep => exact writer s
    | _ => exact other _ rfl
  | _ => exact other _ rfl

theorem Point.holder_wake (p : Point κ) :
    (p.wake.holdsLock, p.wake.recorded) = (p.holdsLock, p.recorded) := by
  induction p using Point.wake_induction with
  | lock | reader | writer => rfl
  | other p h => rw [h]

/-- What `wake` does to a thread asleep on the lock. -/
theorem Point.lockAsleep_wake (h : p.lockAsleep) :
    p.wake.lockAsleep = false ∧ p.lockWoken = false ∧ p.wake.lockWoken = true := by
  obtain ⟨ph, s, rfl⟩ := Point.eq_of_lockAsleep h
  exact ⟨rfl, rfl, rfl⟩

section Semaphore

variable [DecidableEq κ] {s : κ}

/-- Asleep on the semaphore of `s`. -/
def Point.semAsleep (s : κ) : Point κ → Bool
  | .semWait .asleep s' => s' = s
  | .writeWait .asleep s' => s' = s
  | _ => false

/-- Woken from the semaphore of `s`. -/
def Point.semWoken (s : κ) : Point κ → Bool
  | .semWait .woken s' => s' = s
  | .writeWait .woken s' => s' = s
  | _ => false

/-- Past the increment of `readerNum[s]` and before the decrement. -/
def Point.counted (s : κ) : Point κ → Bool
  | .check .start s' | .semWait _ s' | .release .start s' | .clear .start s' | .unlock .start s'
  | .reading s' | .lockWait .exit _ s' | .locked .exit s' | .update .exit s' => s' = s
  | _ => false

/-- `SynchReaderStart(s)` has been completed and the decrement in `SynchReaderExit(s)` has not. -/
def Point.insideRead (s : κ) : Point κ → Bool
  | .reading s' | .lockWait .exit _ s' | .locked .exit s' | .update .exit s' => s' = s
  | _ => false

/-- `SynchWriterStart(s)` has been completed and `SynchWriterExit(s)` has not. -/
def Point.insideWrite (s : κ) : Point κ → Bool
  | .writing s' => s' = s
  | _ => false

/-- The first reader, with the increment made and the `P` not completed (`n` is `readerNum[s]`). -/
def Point.entering (n : ℤ) (s : κ) : Point κ → Bool
  | .check .start s' => s' = s ∧ n = 1
  | .semWait _ s' => s' = s
  | _ => false

/-- The last reader, with the decrement made and the `V` not executed. -/
def Point.leaving (n : ℤ) (s : κ) : Point κ → Bool
  | .check .exit s' => s' = s ∧ n = 0
  | .semV s' => s' = s
  | _ => false

/-- The first reader, in the `P` of the semaphore of `s`. -/
def Point.atSem (s : κ) : Point κ → Bool
  | .semWait _ s' => s' = s
  | _ => false

/-- The last reader, at the `V` of the semaphore of `s`. -/
def Point.atSemV (s : κ) : Point κ → Bool
  | .semV s' => s' = s
  | _ => false

/-- What the count of the readers of `s` sees of a thread. -/
def Point.countView (s : κ) (p : Point κ) : Bool × Bool × Bool := (p.counted s, p.atSem s, p.atSemV s)

/-- What the queue and the writers of the semaphore of `s` see of a thread. -/
def Point.waitView (s : κ) (p : Point κ) : Bool × Bool × Bool :=
  (p.semAsleep s, p.semWoken s, p.insideWrite s)

/-- What the readers of `s` as a group see of a thread, when there are `n`. -/
def Point.groupView (n : ℤ) (s : κ) (p : Point κ) : Bool × Bool := (p.entering n s, p.leaving n s)

/-- The points at which a thread is asleep on the semaphore of `s`. -/
theorem Point.eq_of_semAsleep (h : p.semAsleep s) :
    p = .semWait .asleep s ∨ p = .writeWait .asleep s := by
  cases p with
  | semWait w s' =>
    cases w with
    | asleep =>
      rw [of_decide_eq_true h]
      exact Or.inl rfl
    | _ => cases h
  | writeWait w s' =>
    cases w with
    | asleep =>
      rw [of_decide_eq_true h]
      exact Or.inr rfl
    | _ => cases h
  | _ => cases h

theorem Point.holdsLock_of_groupView {n : ℤ} (h : p.entering n s ∨ p.leaving n s) : p.holdsLock := by
  rcases h with h | h <;> cases p <;> first | rfl | cases h

theorem Point.holdsLock_of_atSem (h : p.atSem s ∨ p.atSemV s) : p.holdsLock := by
  rcases h with h | h <;> cases p <;> first | rfl | cases h

/-! Waking a thread up changes none of the views except that of the semaphore it slept on. -/

theorem Point.countView_wake (s : κ) (p : Point κ) : p.wake.countView s = p.countView s := by
  induction p using Point.wake_induction with
  | lock ph s' => cases ph <;> rfl
  | reader | writer => rfl
  | other p h => rw [h]

theorem Point.groupView_wake (n : ℤ) (s : κ) (p : Point κ) :
    p.wake.groupView n s = p.groupView n s := by
  induction p using Point.wake_induction with
  | lock | reader | writer => rfl
  | other p h => rw [h]

theorem Point.insideWrite_wake (s : κ) (p : Point κ) : p.wake.insideWrite s = p.insideWrite s := by
  induction p using Point.wake_induction with
  | lock | reader | writer => rfl
  | other p h => rw [h]

theorem Point.waitView_wake_of_lock (h : p.lockAsleep) (s : κ) : p.wake.waitView s = p.waitView s := by
  obtain ⟨ph, s', rfl⟩ := Point.eq_of_lockAsleep h
  rfl

/-- What `wake` does to a thread asleep on the semaphore of `s`. -/
theorem Point.semAsleep_wake (h : p.semAsleep s) :
    p.wake.semAsleep s = false ∧ p.semWoken s = false ∧ p.wake.semWoken s = true := by
  rcases Point.eq_of_semAsleep h with rfl | rfl
  · exact ⟨rfl, rfl, decide_eq_true rfl⟩
  · exact ⟨rfl, rfl, decide_eq_true rfl⟩

theorem Point.lockView_wake_of_sem (h : p.semAsleep s) : p.wake.lockView = p.lockView := by
  rcases Point.eq_of_semAsleep h with rfl | rfl <;> rfl

theorem Point.waitView_wake_of_ne {s' : κ} (hs : s' ≠ s) (h : p.semAsleep s) :
    p.wake.waitView s' = p.waitView s' := by
  rcases Point.eq_of_semAsleep h with rfl | rfl <;>
    simp [Point.wake, Point.waitView, Point.semAsleep, Point.semWoken, Point.insideWrite, hs.symm]

theorem Point.counted_of_insideRead (h : p.insideRead s) : p.counted s := by
  unfold Point.insideRead at h
  split at h
  all_goals first
    | exact h
    | cases h

/-- The counted readers that are not inside hold the lock. -/
theorem Point.insideRead_of_counted (h : p.counted s) (hh : p.holdsLock = false) : p.insideRead s := by
  unfold Point.counted at h
  split at h <;> simp_all [Point.holdsLock, Point.insideRead]

/-- Of the readers that hold the semaphore, one that cannot take a step sleeps on the lock. -/
theorem Point.lockAsleep_of_counted {s' : κ} (hc : p.counted s) (hh : p.holdsLock = false)
    (ha : p.lockAsleep ∨ p.semAsleep s') : p.lockAsleep := by
  cases p <;> simp_all [Point.counted, Point.holdsLock, Point.lockAsleep, Point.semAsleep]

end Semaphore

/-! ### The invariant -/

section Invariant

variable {st st' : State τ κ} {t u : τ} {s : κ}

/-- The readers of `s` hold its semaphore. -/
def State.Group [DecidableEq κ] (st : State τ κ) (s : κ) : Prop :=
  (0 < st.readerNum s ∧ ∀ t, ¬ (st.point t).entering (st.readerNum s) s) ∨
    ∃ t, (st.point t).leaving (st.readerNum s) s

theorem group_congr [DecidableEq κ] (hn : st'.readerNum s = st.readerNum s)
    (hview : ∀ u, (st'.point u).groupView (st.readerNum s) s = (st.point u).groupView (st.readerNum s) s) :
    st'.Group s ↔ st.Group s := by
  simp only [Point.groupView, Prod.mk.injEq] at hview
  unfold State.Group
  simp only [hn, hview]

/-- Only the holder of the lock can be entering or leaving. -/
theorem group_iff_of_holder [DecidableEq κ] (huniq : ∀ u, (st.point u).holdsLock → u = t) (s : κ) :
    st.Group s ↔ (0 < st.readerNum s ∧ ¬ (st.point t).entering (st.readerNum s) s) ∨
      (st.point t).leaving (st.readerNum s) s := by
  unfold State.Group
  constructor
  · rintro (⟨hpos, hnone⟩ | ⟨u, hu⟩)
    · exact Or.inl ⟨hpos, hnone t⟩
    · rw [huniq u (Point.holdsLock_of_groupView (Or.inr hu))] at hu
      exact Or.inr hu
  · rintro (⟨hpos, hnot⟩ | hl)
    · refine Or.inl ⟨hpos, fun u hu => ?_⟩
      rw [huniq u (Point.holdsLock_of_groupView (Or.inl hu))] at hu
      exact hnot hu
    · exact Or.inr ⟨t, hl⟩

variable [Fintype τ]

/-- `readerLock` has one holder or none, and `heldthread` names it. -/
structure State.LockInv (st : State τ κ) : Prop where
  queue : WaitInv st.readerLock.lock (procs (fun p => p.lockAsleep) st.point)
    (procs (fun p => p.lockWoken) st.point)
  value : st.readerLock.lock.value + (procs (fun p => p.holdsLock) st.point).card = 1
  held : ∀ t, (st.point t).recorded → st.readerLock.heldthread = some t

theorem State.LockInv.congr (h : st.LockInv) (hl : st'.readerLock = st.readerLock)
    (hview : ∀ u, (st'.point u).lockView = (st.point u).lockView) : st'.LockInv := by
  simp only [Point.lockView, Prod.mk.injEq] at hview
  constructor
  · rw [hl, procs_class _ fun u => (hview u).1, procs_class _ fun u => (hview u).2.1]
    exact h.queue
  · rw [hl, procs_class _ fun u => (hview u).2.2.1]
    exact h.value
  · intro t ht
    rw [hl]
    exact h.held t (by rwa [← (hview t).2.2.2])

theorem State.LockInv.unique (h : st.LockInv) (ht : (st.point t).holdsLock)
    (hu : (st.point u).holdsLock) : u = t := by
  have hcard : (procs (fun p => p.holdsLock) st.point).card ≤ 1 := by
    have h1 := h.value
    have h2 := h.queue.nonneg
    omega
  exact Finset.card_le_one.mp hcard u (mem_procs.mpr hu) t (mem_procs.mpr ht)

variable [DecidableEq κ]

/-- `readerNum` counts the readers. -/
structure State.CountInv (st : State τ κ) : Prop where
  readers : ∀ s, st.readerNum s = (procs (fun p => p.counted s) st.point).card
  first : ∀ t s, (st.point t).atSem s → st.readerNum s = 1
  last : ∀ t s, (st.point t).atSemV s → st.readerNum s = 0

/-- The semaphore of `s` is free, held by one writer or held by the readers of `s`. -/
structure State.SemInv (st : State τ κ) (s : κ) : Prop where
  queue : WaitInv (st.readerWtiterSemap s) (procs (fun p => p.semAsleep s) st.point)
    (procs (fun p => p.semWoken s) st.point)
  shared : st.Group s → (st.readerWtiterSemap s).value = 0 ∧
    (procs (fun p => p.insideWrite s) st.point).card = 0
  exclusive : ¬ st.Group s → (st.readerWtiterSemap s).value +
    (procs (fun p => p.insideWrite s) st.point).card = 1

structure State.Inv (st : State τ κ) : Prop where
  lock : st.LockInv
  count : st.CountInv
  sem : ∀ s, st.SemInv s

theorem State.CountInv.congr (h : st.CountInv) (hn : st'.readerNum = st.readerNum)
    (hview : ∀ s u, (st'.point u).countView s = (st.point u).countView s) : st'.CountInv := by
  simp only [Point.countView, Prod.mk.injEq] at hview
  constructor
  · intro s
    rw [hn, procs_class _ fun u => (hview s u).1]
    exact h.readers s
  · intro t s ht
    rw [hn]
    exact h.first t s (by rwa [← (hview s t).2.1])
  · intro t s ht
    rw [hn]
    exact h.last t s (by rwa [← (hview s t).2.2])

theorem State.SemInv.congr (h : st.SemInv s)
    (hs : st'.readerWtiterSemap s = st.readerWtiterSemap s) (hg : st'.Group s ↔ st.Group s)
    (hview : ∀ u, (st'.point u).waitView s = (st.point u).waitView s) : st'.SemInv s := by
  simp only [Point.waitView, Prod.mk.injEq] at hview
  have hwrite := procs_class _ fun u => (hview u).2.2
  constructor
  · rw [hs, procs_class _ fun u => (hview u).1, procs_class _ fun u => (hview u).2.1]
    exact h.queue
  · intro hgs
    rw [hs, hwrite]
    exact h.shared (hg.mp hgs)
  · intro hgs
    rw [hs, hwrite]
    exact h.exclusive (fun hgs' => hgs (hg.mpr hgs'))

theorem inv_init : (⟨Lock.new, fun _ => Semaphore.new 1, fun _ => 0, fun _ => .idle⟩ :
    State τ κ).Inv := by
  have hnone : ∀ f : Point κ → Bool, f .idle = false →
      procs (fun p => f p) (fun _ : τ => Point.idle) = ∅ := by
    intro f hf
    ext t
    simp [hf]
  have hgroup : ∀ s, ¬ (⟨Lock.new, fun _ => Semaphore.new 1, fun _ => 0, fun _ => .idle⟩ :
      State τ κ).Group s := by
    rintro s (⟨hpos, -⟩ | ⟨t, ht⟩)
    · exact absurd hpos (lt_irrefl 0)
    · cases ht
  refine ⟨⟨?_, ?_, fun _ hat => absurd hat Bool.false_ne_true⟩,
    ⟨?_, fun _ _ hat => absurd hat Bool.false_ne_true, fun _ _ hat => absurd hat Bool.false_ne_true⟩,
    fun s => ⟨?_, fun hg => absurd hg (hgroup s), ?_⟩⟩
  · show WaitInv _ (procs _ fun _ => Point.idle) (procs _ fun _ => Point.idle)
    rw [hnone _ rfl, hnone _ rfl]
    exact waitInv_new (by decide)
  · show (1 : ℤ) + ((procs _ fun _ => Point.idle).card : ℤ) = 1
    rw [hnone _ rfl]
    rfl
  · intro s
    show (0 : ℤ) = ((procs _ fun _ => Point.idle).card : ℤ)
    rw [hnone _ rfl]
    rfl
  · show WaitInv _ (procs _ fun _ => Point.idle) (procs _ fun _ => Point.idle)
    rw [hnone _ rfl, hnone _ rfl]
    exact waitInv_new (by decide)
  · intro
    show (1 : ℤ) + ((procs _ fun _ => Point.idle).card : ℤ) = 1
    rw [hnone _ rfl]
    rfl

theorem State.Inv.semValue (h : st.Inv) (s : κ) :
    (st.readerWtiterSemap s).value = 0 ∨ (st.readerWtiterSemap s).value = 1 := by
  by_cases hg : st.Group s
  · exact Or.inl ((h.sem s).shared hg).1
  · have hexcl := (h.sem s).exclusive hg
    have hnonneg := (h.sem s).queue.nonneg
    omega

theorem State.Inv.insideWrite_unique (h : st.Inv) (ht : (st.point t).insideWrite s)
    (hu : (st.point u).insideWrite s) : t = u := by
  have hle : (procs (fun p => Point.insideWrite s p) st.point).card ≤ 1 := by
    by_cases hg : st.Group s
    · exact ((h.sem s).shared hg).2.le.trans (Nat.zero_le 1)
    · have hexcl := (h.sem s).exclusive hg
      have hnonneg := (h.sem s).queue.nonneg
      omega
  exact Finset.card_le_one.mp hle t (mem_procs.mpr ht) u (mem_procs.mpr hu)

/-- A reader inside keeps every writer out: the first reader is past its `P`, or else it would be
the only reader counted. -/
theorem State.Inv.group_of_insideRead (h : st.Inv) (ht : (st.point t).insideRead s) : st.Group s := by
  have hc := Point.counted_of_insideRead ht
  have hreaders := h.count.readers s
  have hpos := card_procs_pos (P := fun p => Point.counted s p = true).mpr ⟨t, hc⟩
  refine Or.inl ⟨by omega, fun u hu => ?_⟩
  -- the entering reader is counted too, and `readerNum[s]` is `1`
  have hu1 : (st.point u).counted s ∧ st.readerNum s = 1 := by
    cases hp : st.point u with
    | check ph s' =>
      cases ph with
      | start =>
        rw [hp] at hu
        obtain ⟨rfl, hn⟩ := of_decide_eq_true hu
        exact ⟨decide_eq_true rfl, hn⟩
      | exit =>
        rw [hp] at hu
        cases hu
    | semWait w s' =>
      rw [hp] at hu
      obtain rfl := of_decide_eq_true hu
      exact ⟨decide_eq_true rfl, h.count.first u s' (by rw [hp]; exact decide_eq_true rfl)⟩
    | _ =>
      rw [hp] at hu
      cases hu
  have hle : (procs (fun p => Point.counted s p) st.point).card ≤ 1 := by omega
  have hut : u = t := Finset.card_le_one.mp hle u (mem_procs.mpr hu1.1) t (mem_procs.mpr hc)
  subst hut
  cases hp : st.point u <;> simp_all [Point.entering, Point.insideRead]

theorem State.Inv.readerNum_eq (h : st.Inv) (hfree : st.readerLock.lock.value = 1) (s : κ) :
    st.readerNum s = (procs (fun p => Point.insideRead s p) st.point).card := by
  rw [h.count.readers s]
  have hnone : ∀ t, (st.point t).holdsLock = false := by
    intro t
    by_contra hholds
    rw [Bool.not_eq_false] at hholds
    have hpos := card_procs_pos (P := fun p => Point.holdsLock p = true).mpr ⟨t, hholds⟩
    have hval := h.lock.value
    omega
  congr 2
  ext t
  rw [mem_procs, mem_procs]
  exact ⟨fun hc => Point.insideRead_of_counted hc (hnone t), Point.counted_of_insideRead⟩

/-! ### Progress -/

/-- In a state where every thread is idle or asleep, nobody is awake anywhere. -/
structure State.Stuck (st : State τ κ) : Prop where
  asleep : ∀ t, st.point t = .idle ∨ (st.point t).lockAsleep ∨ ∃ s, (st.point t).semAsleep s

namespace State.Stuck

theorem procs_eq_empty (h : st.Stuck) (f : Point κ → Bool) (hidle : f .idle = false)
    (hlock : ∀ ph s, f (.lockWait ph .asleep s) = false) (hreader : ∀ s, f (.semWait .asleep s) = false)
    (hwriter : ∀ s, f (.writeWait .asleep s) = false) : procs (fun p => f p) st.point = ∅ := by
  ext t
  have hnot : f (st.point t) = false := by
    rcases h.asleep t with ht | ht | ⟨s, ht⟩
    · rw [ht, hidle]
    · obtain ⟨ph, s, hp⟩ := Point.eq_of_lockAsleep ht
      rw [hp, hlock]
    · rcases Point.eq_of_semAsleep ht with hp | hp
      · rw [hp, hreader]
      · rw [hp, hwriter]
  simp [hnot]

theorem insideWrite (h : st.Stuck) (s : κ) : procs (fun p => Point.insideWrite s p) st.point = ∅ :=
  h.procs_eq_empty _ rfl (fun _ _ => rfl) (fun _ => rfl) fun _ => rfl

theorem lockWoken (h : st.Stuck) : procs (fun p => Point.lockWoken p) st.point = ∅ :=
  h.procs_eq_empty _ rfl (fun _ _ => rfl) (fun _ => rfl) fun _ => rfl

theorem semWoken (h : st.Stuck) (s : κ) : procs (fun p => Point.semWoken s p) st.point = ∅ :=
  h.procs_eq_empty _ rfl (fun _ _ => rfl) (fun _ => rfl) fun _ => rfl

/-- A reader asleep on the semaphore of `s` with the lock held waits for a writer, which is awake. -/
theorem no_holder (hstuck : st.Stuck) (h : st.Inv) (t : τ) : (st.point t).holdsLock = false := by
  by_contra hholds
  rw [Bool.not_eq_false] at hholds
  obtain ⟨s, hs⟩ : ∃ s, st.point t = .semWait .asleep s := by
    rcases hstuck.asleep t with ht | ht | ⟨s, ht⟩
    · rw [ht] at hholds
      cases hholds
    · rw [(Point.not_waiting_of_holdsLock hholds).1] at ht
      cases ht
    · rcases Point.eq_of_semAsleep ht with hp | hp
      · exact ⟨s, hp⟩
      · rw [hp] at hholds
        cases hholds
  have hzero : (st.readerWtiterSemap s).value = 0 :=
    (h.sem s).queue.value_eq_zero (t := t)
      (mem_procs.mpr (by rw [hs]; exact decide_eq_true rfl)) (hstuck.semWoken s)
  have hfree : ¬ st.Group s := by
    rw [group_iff_of_holder (fun u hu => h.lock.unique hholds hu), hs]
    simp [Point.entering, Point.leaving]
  have hexcl := (h.sem s).exclusive hfree
  rw [hzero, hstuck.insideWrite s] at hexcl
  simp at hexcl

/-- Nobody sleeps on a lock that nobody holds. -/
theorem no_lockAsleep (hstuck : st.Stuck) (h : st.Inv) (t : τ) : (st.point t).lockAsleep = false := by
  by_contra hasleep
  rw [Bool.not_eq_false] at hasleep
  have hzero : st.readerLock.lock.value = 0 :=
    h.lock.queue.value_eq_zero (t := t) (mem_procs.mpr hasleep) hstuck.lockWoken
  have hnone : procs (fun p => Point.holdsLock p) st.point = ∅ := by
    ext u
    simp [hstuck.no_holder h u]
  have hval := h.lock.value
  rw [hzero, hnone] at hval
  simp at hval

/-- **No deadlock**: in a state that satisfies the invariant, if every thread is idle or asleep,
then every thread is idle. -/
theorem idle (hstuck : st.Stuck) (h : st.Inv) (t : τ) : st.point t = .idle := by
  rcases hstuck.asleep t with ht | ht | ⟨s, ht⟩
  · exact ht
  · rw [hstuck.no_lockAsleep h t] at ht
    cases ht
  -- `t` sleeps on the semaphore of `s`; whoever has it is awake
  exfalso
  have hzero : (st.readerWtiterSemap s).value = 0 :=
    (h.sem s).queue.value_eq_zero (t := t) (mem_procs.mpr ht) (hstuck.semWoken s)
  by_cases hgroup : st.Group s
  · rcases hgroup with ⟨hpos, -⟩ | ⟨u, hu⟩
    · -- the readers have it: a counted reader holds the lock or sleeps on it
      rw [h.count.readers s] at hpos
      obtain ⟨u, hu⟩ := card_procs_pos.mp (Int.natCast_pos.mp hpos)
      have hasleep : (st.point u).lockAsleep := by
        rcases hstuck.asleep u with hidle | hlock | ⟨s', hs'⟩
        · rw [hidle] at hu
          cases hu
        · exact hlock
        · exact Point.lockAsleep_of_counted hu (hstuck.no_holder h u) (Or.inr hs')
      rw [hstuck.no_lockAsleep h u] at hasleep
      cases hasleep
    · have hholds := Point.holdsLock_of_groupView (Or.inr hu)
      rw [hstuck.no_holder h u] at hholds
      cases hholds
  · have hexcl := (h.sem s).exclusive hgroup
    rw [hzero, hstuck.insideWrite s] at hexcl
    simp at hexcl

end State.Stuck

end Invariant

/-- A thread that cannot take a step is idle or asleep. -/
theorem idle_or_asleep_of_run_eq_none [DecidableEq τ] [DecidableEq κ] {st : State τ κ}
    {t : τ} (h : st.run t = none) :
    st.point t = .idle ∨ (st.point t).lockAsleep ∨ ∃ s, (st.point t).semAsleep s := by
  unfold State.run at h
  split at h
  all_goals simp_all [Point.lockAsleep, Point.semAsleep]

/-! ### Moves of one thread -/

section Move

variable [DecidableEq τ] {st st' : State τ κ} {t : τ} {s : κ} {q : Point κ}

theorem wakeUp_class_of {β : Type*} (f : Point κ → β) {point : τ → Point κ} {o : Option τ}
    (hf : ∀ w ∈ o, f (point w).wake = f (point w)) (u : τ) : f (wakeUp point o u) = f (point u) := by
  cases o with
  | none => rfl
  | some w => exact apply_update_eq f (hf w rfl) u

theorem wakeUp_class {β : Type*} (f : Point κ → β) (hf : ∀ p, f p.wake = f p)
    (point : τ → Point κ) (o : Option τ) (u : τ) : f (wakeUp point o u) = f (point u) :=
  wakeUp_class_of f (fun w _ => hf (point w)) u

variable [Fintype τ]

/-- `V` keeps its queue in order when `wake` moves sleepers (`A`) to woken threads (`W`). -/
theorem waitInv_wakeUp {sem : Semaphore τ} {A W : Point κ → Bool} {point : τ → Point κ}
    (h : WaitInv sem (procs (fun p => A p) point) (procs (fun p => W p) point))
    (hAW : ∀ {p}, A p → A p.wake = false ∧ W p = false ∧ W p.wake = true) :
    WaitInv sem.v.1 (procs (fun p => A p) (wakeUp point sem.v.2))
      (procs (fun p => W p) (wakeUp point sem.v.2)) := by
  cases hq : sem.queue with
  | nil =>
    have hv : sem.v.2 = none := congrArg Prod.snd (Semaphore.v_of_nil hq)
    rw [hv]
    exact h.v_nil hq
  | cons u q =>
    have hv : sem.v.2 = some u := congrArg Prod.snd (Semaphore.v_of_cons hq)
    have hu : A (point u) := by
      simpa using (h.mem_iff u).mp (by rw [hq]; exact List.mem_cons_self)
    obtain ⟨h1, h2, h3⟩ := hAW hu
    rw [hv]
    show WaitInv _ (procs _ (Function.update point u (point u).wake))
      (procs _ (Function.update point u (point u).wake))
    rw [procs_update_neg (P := fun p => A p = true) (by simp [h1]),
      procs_update_pos (P := fun p => W p = true) h3]
    exact h.v_cons hq (by simp [h2])

/-- A move of the holder that keeps it the holder, with `heldthread` as its new point requires. -/
theorem State.LockInv.move (h : st.LockInv) (ht : (st.point t).holdsLock) (hq : q.holdsLock)
    (hpt : st'.point = Function.update st.point t q)
    (hl : st'.readerLock.lock = st.readerLock.lock)
    (hheld : q.recorded → st'.readerLock.heldthread = some t) : st'.LockInv := by
  obtain ⟨hta, htw⟩ := Point.not_waiting_of_holdsLock ht
  obtain ⟨hqa, hqw⟩ := Point.not_waiting_of_holdsLock hq
  constructor
  · rw [hl, hpt, procs_class Point.lockAsleep (apply_update_eq _ (by rw [hqa, hta])),
      procs_class Point.lockWoken (apply_update_eq _ (by rw [hqw, htw]))]
    exact h.queue
  · rw [hl, hpt, procs_class Point.holdsLock (apply_update_eq _ (by rw [hq, ht]))]
    exact h.value
  · intro u hu
    rw [hpt] at hu
    by_cases hut : u = t
    · subst hut
      rw [Function.update_self] at hu
      exact hheld hu
    · rw [Function.update_of_ne hut] at hu
      exact absurd (h.unique ht (Point.holdsLock_of_recorded hu)) hut

variable [DecidableEq κ]

/-- A move between points that count alike, with `readerNum` as the new point requires. -/
theorem State.CountInv.move (h : st.CountInv) (hpt : st'.point = Function.update st.point t q)
    (hn : st'.readerNum = st.readerNum) (hc : ∀ s, q.counted s = (st.point t).counted s)
    (hf : ∀ s, q.atSem s → st.readerNum s = 1) (hl : ∀ s, q.atSemV s → st.readerNum s = 0) :
    st'.CountInv := by
  constructor
  · intro s
    rw [hn, hpt, procs_class (Point.counted s) (apply_update_eq _ (hc s))]
    exact h.readers s
  all_goals
    intro u s hu
    rw [hpt] at hu
    rw [hn]
    by_cases hut : u = t
    · rw [hut, Function.update_self] at hu
      first | exact hf s hu | exact hl s hu
    · rw [Function.update_of_ne hut] at hu
      first | exact h.first u s hu | exact h.last u s hu

/-- A move between points that the semaphore of `s` does not tell apart. -/
theorem State.SemInv.move (h : st.SemInv s) (hpt : st'.point = Function.update st.point t q)
    (hn : st'.readerNum s = st.readerNum s)
    (hs : st'.readerWtiterSemap s = st.readerWtiterSemap s)
    (hwait : q.waitView s = (st.point t).waitView s)
    (hgroup : q.groupView (st.readerNum s) s = (st.point t).groupView (st.readerNum s) s) :
    st'.SemInv s := by
  refine h.congr hs (group_congr hn ?_) ?_
  · rw [hpt]; exact apply_update_eq _ hgroup
  · rw [hpt]; exact apply_update_eq _ hwait

/-- The value `0` sends `t` to sleep on the semaphore of `s`. -/
theorem State.SemInv.sleep (h : ∀ s', st.SemInv s') (hv : (st.readerWtiterSemap s).value = 0)
    (hpt : st'.point = Function.update st.point t q) (hnum : st'.readerNum = st.readerNum)
    (hsem : st'.readerWtiterSemap =
      Function.update st.readerWtiterSemap s ((st.readerWtiterSemap s).p t).1)
    (hp : (st.point t).semAsleep s = false) (hq : q.semAsleep s) (hk : q.semWoken s = false)
    (hw : q.insideWrite s = (st.point t).insideWrite s)
    (hwait : ∀ s', s' ≠ s → q.waitView s' = (st.point t).waitView s')
    (hgroup : ∀ n s', q.groupView n s' = (st.point t).groupView n s') (s' : κ) : st'.SemInv s' := by
  by_cases hs : s' = s
  · subst hs
    have hgroup' : st'.Group s' ↔ st.Group s' :=
      group_congr (by rw [hnum]) (by rw [hpt]; exact apply_update_eq _ (hgroup _ s'))
    have hwrite : procs (fun p => Point.insideWrite s' p) st'.point
        = procs (fun p => Point.insideWrite s' p) st.point := by
      rw [hpt]
      exact procs_class _ (apply_update_eq _ hw)
    have hs' : st'.readerWtiterSemap s' = ((st.readerWtiterSemap s').p t).1 := by
      rw [hsem, Function.update_self]
    have hvalue : (st'.readerWtiterSemap s').value = (st.readerWtiterSemap s').value := by
      rw [hs', p_of_eq_zero t hv]
    refine ⟨?_, ?_, ?_⟩
    · rw [hs', hpt, procs_update_pos (P := fun p => Point.semAsleep s' p) hq,
        procs_update_neg (P := fun p => Point.semWoken s' p) (by simp [hk])]
      exact (h s').queue.p_sleep hv (by simp [hp])
    · intro hg
      rw [hvalue, hwrite]
      exact (h s').shared (hgroup'.mp hg)
    · intro hg
      rw [hvalue, hwrite]
      exact (h s').exclusive (fun hg' => hg (hgroup'.mpr hg'))
  · exact (h s').move hpt (by rw [hnum]) (by rw [hsem, Function.update_of_ne hs]) (hwait s' hs)
      (hgroup _ s')

/-- A positive value lets `t` past the `P` on the semaphore of `s`. -/
theorem State.SemInv.take (h : st.SemInv s) (hv : (st.readerWtiterSemap s).value ≠ 0)
    (hpt : st'.point = Function.update st.point t q)
    (hsem : st'.readerWtiterSemap =
      Function.update st.readerWtiterSemap s ((st.readerWtiterSemap s).p t).1)
    (hp : (st.point t).semAsleep s = false) (hq : q.semAsleep s = false)
    (hk : q.semWoken s = false) :
    WaitInv (st'.readerWtiterSemap s) (procs (fun p => p.semAsleep s) st'.point)
      (procs (fun p => p.semWoken s) st'.point) ∧
    (st'.readerWtiterSemap s).value = (st.readerWtiterSemap s).value - 1 := by
  have hs' : st'.readerWtiterSemap s = ((st.readerWtiterSemap s).p t).1 := by
    rw [hsem, Function.update_self]
  constructor
  · rw [hs', hpt, procs_update_neg (P := fun p => Point.semAsleep s p) (by simp [hq]),
      procs_update_neg (P := fun p => Point.semWoken s p) (by simp [hk]),
      Finset.erase_eq_of_notMem (by simp [hp])]
    exact h.queue.p_take hv
  · rw [hs', p_of_ne_zero t hv]

end Move

/-! ### One lemma for each kind of step -/

variable [DecidableEq τ] [Fintype τ] [DecidableEq κ]

namespace State.Inv

variable {st st' : State τ κ} {t : τ} {ph : Phase} {w : Wait} {s : κ} {q : Point κ}

/-- A call of one of the routines, before its first test. -/
theorem goto_like (h : st.Inv) (hlock : q.lockView = (st.point t).lockView)
    (hcount : ∀ s, q.countView s = (st.point t).countView s)
    (hwait : ∀ s, q.waitView s = (st.point t).waitView s)
    (hgroup : ∀ n s, q.groupView n s = (st.point t).groupView n s) : (st.goto t q).Inv where
  lock := h.lock.congr rfl (apply_update_eq _ hlock)
  count := h.count.congr rfl fun s => apply_update_eq _ (hcount s)
  sem s := (h.sem s).move rfl rfl rfl (hwait s) (hgroup _ s)

/-- A step of the holder of the lock between two parts of a routine. -/
theorem holder (h : st.Inv) (ht : (st.point t).holdsLock) (hq : q.holdsLock)
    (hpt : st'.point = Function.update st.point t q)
    (hl : st'.readerLock.lock = st.readerLock.lock)
    (hheld : q.recorded → st'.readerLock.heldthread = some t)
    (hn : st'.readerNum = st.readerNum) (hs : st'.readerWtiterSemap = st.readerWtiterSemap)
    (hc : ∀ s, q.counted s = (st.point t).counted s) (hf : ∀ s, q.atSem s → st.readerNum s = 1)
    (hv : ∀ s, q.atSemV s → st.readerNum s = 0)
    (hwait : ∀ s, q.waitView s = (st.point t).waitView s)
    (hgroup : ∀ s, q.groupView (st.readerNum s) s = (st.point t).groupView (st.readerNum s) s) :
    st'.Inv where
  lock := h.lock.move ht hq hpt hl hheld
  count := h.count.move hpt hn hc hf hv
  sem s := (h.sem s).move hpt (by rw [hn]) (by rw [hs]) (hwait s) (hgroup s)

/-- `heldthread = currentThread`. -/
theorem assign (h : st.Inv) (ht : st.point t = .locked ph s) :
    ({ st with readerLock := st.readerLock.assign t }.goto t (.update ph s)).Inv := by
  refine h.holder (by rw [ht]; rfl) rfl rfl rfl (fun _ => rfl) rfl rfl ?_ nofun nofun ?_ ?_
  all_goals rw [ht]; cases ph <;> exact fun _ => rfl

/-- The test of `Release` succeeds: the caller is the recorded holder. -/
theorem release (h : st.Inv) (ht : st.point t = .release ph s) : (st.goto t (.clear ph s)).Inv := by
  have hheld := h.lock.held t (by rw [ht]; rfl)
  refine h.holder (by rw [ht]; rfl) rfl rfl rfl (fun _ => hheld) rfl rfl ?_ nofun nofun ?_ ?_
  all_goals rw [ht]; cases ph <;> exact fun _ => rfl

/-- `heldthread = NULL`. -/
theorem clear (h : st.Inv) (ht : st.point t = .clear ph s) :
    ({ st with readerLock := st.readerLock.clear }.goto t (.unlock ph s)).Inv := by
  refine h.holder (by rw [ht]; rfl) rfl rfl rfl nofun rfl rfl ?_ nofun nofun ?_ ?_
  all_goals rw [ht]; cases ph <;> exact fun _ => rfl

/-- The tests of `readerNum` show whether the thread is the first to enter, or the last to leave. -/
theorem groupView_check (s : κ) (num : κ → ℤ) (s' : κ) :
    (if num s = 1 then Point.semWait .call s else .release .start s).groupView (num s') s' =
      (Point.check .start s).groupView (num s') s' ∧
    (if num s = 0 then Point.semV s else .release .exit s).groupView (num s') s' =
      (Point.check .exit s).groupView (num s') s' := by
  by_cases hs : s = s'
  · subst hs
    constructor <;> split_ifs with hn <;>
      simp [Point.groupView, Point.entering, Point.leaving, hn]
  · constructor <;> split_ifs <;> simp [Point.groupView, Point.entering, Point.leaving, hs]

/-- The test of `readerNum` in `SynchReaderStart`. -/
theorem checkStart (h : st.Inv) (ht : st.point t = .check .start s) :
    (st.goto t (if st.readerNum s = 1 then .semWait .call s else .release .start s)).Inv := by
  have hheld := h.lock.held t (by rw [ht]; rfl)
  have hgroup := fun s' => (groupView_check s st.readerNum s').1
  rw [← ht] at hgroup
  split_ifs at hgroup ⊢ with hn
  · refine h.holder (by rw [ht]; rfl) rfl rfl rfl (fun _ => hheld) rfl rfl ?_ ?_ nofun ?_ hgroup
    · rw [ht]; exact fun _ => rfl
    · intro s' hs'
      rw [← of_decide_eq_true hs']
      exact hn
    · rw [ht]; exact fun _ => rfl
  · refine h.holder (by rw [ht]; rfl) rfl rfl rfl (fun _ => hheld) rfl rfl ?_ nofun nofun ?_ hgroup
    all_goals rw [ht]; exact fun _ => rfl

/-- The test of `readerNum` in `SynchReaderExit`. -/
theorem checkExit (h : st.Inv) (ht : st.point t = .check .exit s) :
    (st.goto t (if st.readerNum s = 0 then .semV s else .release .exit s)).Inv := by
  have hheld := h.lock.held t (by rw [ht]; rfl)
  have hgroup := fun s' => (groupView_check s st.readerNum s').2
  rw [← ht] at hgroup
  split_ifs at hgroup ⊢ with hn
  · refine h.holder (by rw [ht]; rfl) rfl rfl rfl (fun _ => hheld) rfl rfl ?_ nofun ?_ ?_ hgroup
    · rw [ht]; exact fun _ => rfl
    · intro s' hs'
      rw [← of_decide_eq_true hs']
      exact hn
    · rw [ht]; exact fun _ => rfl
  · refine h.holder (by rw [ht]; rfl) rfl rfl rfl (fun _ => hheld) rfl rfl ?_ nofun nofun ?_ hgroup
    all_goals rw [ht]; exact fun _ => rfl

/-- `readerNum[s]++` and `readerNum[s]--`: the semaphore stays where it is, since the first reader
only starts entering and the last one only starts leaving. -/
theorem update (h : st.Inv) (ht : st.point t = .update ph s) {n : ℤ}
    (hn : n = if ph = .start then st.readerNum s + 1 else st.readerNum s - 1) :
    ({ st with readerNum := Function.update st.readerNum s n }.goto t (.check ph s)).Inv := by
  have hholds : (st.point t).holdsLock := by rw [ht]; rfl
  have hlock : ({ st with readerNum := Function.update st.readerNum s n }.goto t
      (.check ph s)).LockInv :=
    h.lock.move hholds rfl rfl rfl fun _ => h.lock.held t (by rw [ht]; rfl)
  -- the old and the new count, with the thread itself in the one or the other
  have hcount : n = (procs (fun p => Point.counted s p) (Function.update st.point t
      (.check ph s))).card ∧ (ph = .exit → 0 < st.readerNum s) := by
    have hreaders := h.count.readers s
    cases ph with
    | start =>
      have hcard := card_procs_enter st.point (.check .start s) (Point.counted s)
        (by rw [ht]; rfl) (decide_eq_true rfl)
      rw [hn, if_pos rfl]
      exact ⟨by omega, nofun⟩
    | exit =>
      have hcard := card_procs_leave st.point (.check .exit s) (Point.counted s)
        (by rw [ht]; exact decide_eq_true rfl) rfl
      rw [hn, if_neg nofun]
      exact ⟨by omega, fun _ => by omega⟩
  -- a thread at a semaphore would be a second holder of the lock
  have hnot : ∀ u s', ¬ ((Function.update st.point t (.check ph s) u).atSem s' ∨
      (Function.update st.point t (.check ph s) u).atSemV s') := by
    intro u s' hu
    by_cases hut : u = t
    · subst hut
      simp [Point.atSem, Point.atSemV] at hu
    · rw [Function.update_of_ne hut] at hu
      exact hut (h.lock.unique hholds (Point.holdsLock_of_atSem hu))
  refine ⟨hlock, ⟨?_, fun u s' hu => absurd (Or.inl hu) (hnot u s'),
    fun u s' hu => absurd (Or.inr hu) (hnot u s')⟩, fun s' => (h.sem s').congr rfl ?_
    (apply_update_eq _ (by rw [ht]; rfl))⟩
  · intro s'
    show Function.update st.readerNum s n s' = ((procs _ (Function.update st.point t _)).card : ℤ)
    by_cases hs : s' = s
    · rw [hs, Function.update_self]
      exact hcount.1
    · rw [Function.update_of_ne hs, procs_class (Point.counted s') (apply_update_eq _ ?_)]
      · exact h.count.readers s'
      · rw [ht]
        cases ph <;> simp [Point.counted, Ne.symm hs]
  · by_cases hs : s' = s
    · subst hs
      have hself : (Function.update st.point t (.check ph s') t).holdsLock := by
        rw [Function.update_self]
        rfl
      rw [group_iff_of_holder (fun u hu => hlock.unique (t := t) hself hu) s',
        group_iff_of_holder (fun u hu => h.lock.unique hholds hu) s', ht]
      have hpos := hcount.2
      cases ph with
      | start =>
        simp [State.goto, Point.entering, Point.leaving] at hn ⊢
        omega
      | exit =>
        simp [State.goto, Point.entering, Point.leaving] at hn hpos ⊢
        omega
    · refine group_congr (Function.update_of_ne hs _ _) (apply_update_eq _ ?_)
      rw [ht]
      cases ph <;> simp [Point.groupView, Point.entering, Point.leaving, Ne.symm hs]

/-- A round of the loop of `P` in `readerLock->Acquire()`. -/
theorem lockP (h : st.Inv) (ht : st.point t = .lockWait ph w s) (hw : w ≠ .asleep) :
    (st.lockP t ph s).Inv := by
  have htA : t ∉ procs (fun p => Point.lockAsleep p) st.point := by
    rw [mem_procs, ht]
    cases w <;> simp_all [Point.lockAsleep]
  -- nothing but the lock sees the difference
  have hother : ∀ q, (st.lockP t ph s).point = Function.update st.point t q →
      (∀ s', q.countView s' = (st.point t).countView s') →
      (∀ s', q.waitView s' = (st.point t).waitView s') →
      (∀ n s', q.groupView n s' = (st.point t).groupView n s') →
      (st.lockP t ph s).CountInv ∧ ∀ s', (st.lockP t ph s).SemInv s' := by
    intro q hpt hcount hwait hgroup
    refine ⟨h.count.congr rfl fun s' => ?_, fun s' => (h.sem s').move hpt rfl rfl (hwait s') (hgroup _ s')⟩
    rw [hpt]
    exact apply_update_eq _ (hcount s')
  by_cases hv : st.readerLock.lock.value = 0
  · -- the lock is taken: `t` goes to sleep
    have hp := p_of_eq_zero t hv
    have hpt : (st.lockP t ph s).point = Function.update st.point t (.lockWait ph .asleep s) := by
      simp [State.lockP, Lock.p, hp]
    obtain ⟨hcount, hsem⟩ := hother _ hpt (by rw [ht]; cases ph <;> exact fun _ => rfl)
      (by rw [ht]; exact fun _ => rfl) (by rw [ht]; exact fun _ _ => rfl)
    refine ⟨⟨?_, ?_, ?_⟩, hcount, hsem⟩
    · rw [hpt, procs_update_pos (P := fun p => Point.lockAsleep p) rfl,
        procs_update_neg (P := fun p => Point.lockWoken p) (by simp [Point.lockWoken])]
      exact h.lock.queue.p_sleep hv htA
    · rw [hpt, procs_class Point.holdsLock (apply_update_eq _ (by rw [ht]; rfl))]
      simpa [State.lockP, Lock.p, hp] using h.lock.value
    · intro u hu
      rw [hpt, apply_update_eq Point.recorded (by rw [ht]; rfl)] at hu
      exact h.lock.held u hu
  · -- the lock is free: `t` becomes its holder
    have hp := p_of_ne_zero t hv
    have hpt : (st.lockP t ph s).point = Function.update st.point t (.locked ph s) := by
      simp [State.lockP, Lock.p, hp]
    have hval := h.lock.value
    have hnone : (procs (fun p => Point.holdsLock p) st.point).card = 0 := by
      have hnonneg := h.lock.queue.nonneg
      omega
    obtain ⟨hcount, hsem⟩ := hother _ hpt (by rw [ht]; cases ph <;> exact fun _ => rfl)
      (by rw [ht]; exact fun _ => rfl) (by rw [ht]; exact fun _ _ => rfl)
    refine ⟨⟨?_, ?_, ?_⟩, hcount, hsem⟩
    · rw [hpt, procs_update_neg (P := fun p => Point.lockAsleep p) (by simp [Point.lockAsleep]),
        procs_update_neg (P := fun p => Point.lockWoken p) (by simp [Point.lockWoken]),
        Finset.erase_eq_of_notMem htA]
      exact h.lock.queue.p_take hv
    · rw [hpt, card_procs_enter st.point (.locked ph s) Point.holdsLock (by rw [ht]; rfl) rfl]
      simp only [State.lockP, Lock.p, hp]
      omega
    · intro u hu
      rw [hpt] at hu
      by_cases hut : u = t
      · subst hut
        simp [Point.recorded] at hu
      · rw [Function.update_of_ne hut] at hu
        have hpos := card_procs_pos (P := fun p => Point.holdsLock p = true).mpr
          ⟨u, Point.holdsLock_of_recorded hu⟩
        omega

/-- The `V` in `readerLock->Release()`. -/
theorem lockV (h : st.Inv) (ht : st.point t = .unlock ph s) : (st.lockV t (returnPoint s ph)).Inv := by
  have hholds : (st.point t).holdsLock := by rw [ht]; rfl
  set pc := Function.update st.point t (returnPoint s ph) with hpc
  have hqueue : WaitInv st.readerLock.lock (procs (fun p => Point.lockAsleep p) pc)
      (procs (fun p => Point.lockWoken p) pc) := by
    rw [procs_class Point.lockAsleep (apply_update_eq _ (by rw [ht]; cases ph <;> rfl)),
      procs_class Point.lockWoken (apply_update_eq _ (by rw [ht]; cases ph <;> rfl))]
    exact h.lock.queue
  have hholder : ∀ u, _ = _ := wakeUp_class (fun p : Point κ => (p.holdsLock, p.recorded))
    Point.holder_wake pc st.readerLock.v.2
  refine ⟨⟨waitInv_wakeUp hqueue Point.lockAsleep_wake, ?_, ?_⟩, h.count.congr rfl ?_,
    fun s' => (h.sem s').congr rfl (group_congr rfl ?_) ?_⟩
  · have hval := h.lock.value
    show st.readerLock.lock.value + 1 + ((procs _ (wakeUp pc _)).card : ℤ) = 1
    have hcard := card_procs_leave st.point (returnPoint s ph) Point.holdsLock hholds
      (by cases ph <;> rfl)
    rw [← hpc] at hcard
    rw [procs_class Point.holdsLock fun u => congrArg Prod.fst (hholder u)]
    omega
  · intro u hu
    have hu' : (pc u).recorded := (congrArg Prod.snd (hholder u)).symm.trans hu
    by_cases hut : u = t
    · rw [hpc, hut, Function.update_self] at hu'
      cases ph <;> cases hu'
    · rw [hpc, Function.update_of_ne hut] at hu'
      exact absurd (h.lock.unique hholds (Point.holdsLock_of_recorded hu')) hut
  · intro s' u
    refine (wakeUp_class _ (Point.countView_wake s') pc _ u).trans (apply_update_eq _ ?_ u)
    rw [ht]
    cases ph <;> rfl
  · intro u
    refine (wakeUp_class _ (Point.groupView_wake _ s') pc _ u).trans (apply_update_eq _ ?_ u)
    rw [ht]
    cases ph <;> rfl
  · -- the thread taken off the queue slept on the lock, so the semaphores do not see it wake
    intro u
    refine (wakeUp_class_of (Point.waitView s') (fun w hw => ?_) u).trans (apply_update_eq _ ?_ u)
    · exact Point.waitView_wake_of_lock
        (mem_procs.mp ((hqueue.mem_iff w).mp (List.mem_of_mem_head? hw))) s'
    · rw [ht]
      cases ph <;> rfl

/-- The awake thread in a `P` of the semaphore of `s` is not seen by those of the other sectors. -/
theorem waitView_semP (hp : p = .semWait w s ∨ p = .writeWait w s) (hw : w ≠ .asleep) :
    p.semAsleep s = false ∧ ∀ s', s' ≠ s → p.waitView s' = (false, false, false) := by
  rcases hp with rfl | rfl
  all_goals
    refine ⟨by cases w <;> simp_all [Point.semAsleep], fun s' hs => ?_⟩
    cases w <;> simp [Point.waitView, Point.semAsleep, Point.semWoken, Point.insideWrite, Ne.symm hs]

/-- A round of the loop of `P` by the first reader of `s`. -/
theorem semP_reader (h : st.Inv) (ht : st.point t = .semWait w s) (hw : w ≠ .asleep) :
    (st.semP t s (.release .start s) (.semWait .asleep s)).Inv := by
  have hheld := h.lock.held t (by rw [ht]; rfl)
  have hholds : (st.point t).holdsLock := by rw [ht]; rfl
  have hone := h.count.first t s (by rw [ht]; exact decide_eq_true rfl)
  obtain ⟨hawake, hwait⟩ := waitView_semP (Or.inl ht) hw
  by_cases hv : (st.readerWtiterSemap s).value = 0
  · have hpt : (st.semP t s (.release .start s) (.semWait .asleep s)).point
        = Function.update st.point t (.semWait .asleep s) := by simp [State.semP, p_of_eq_zero t hv]
    refine ⟨h.lock.move hholds rfl hpt rfl fun _ => hheld,
      h.count.move hpt rfl (by rw [ht]; exact fun _ => rfl) ?_ nofun,
      State.SemInv.sleep h.sem hv hpt rfl rfl hawake (decide_eq_true rfl) rfl (by rw [ht]; rfl) ?_
        (by rw [ht]; exact fun _ _ => rfl)⟩
    · intro s' hs'
      rw [← of_decide_eq_true hs']
      exact hone
    · intro s' hs
      rw [hwait s' hs]
      simp [Point.waitView, Point.semAsleep, Point.semWoken, Point.insideWrite, Ne.symm hs]
  · -- past the `P`, the readers of `s` hold the semaphore
    have hpt : (st.semP t s (.release .start s) (.semWait .asleep s)).point
        = Function.update st.point t (.release .start s) := by simp [State.semP, p_of_ne_zero t hv]
    have hlock : (st.semP t s (.release .start s) (.semWait .asleep s)).LockInv :=
      h.lock.move hholds rfl hpt rfl fun _ => hheld
    refine ⟨hlock, h.count.move hpt rfl (by rw [ht]; exact fun _ => rfl) nofun nofun, ?_⟩
    intro s'
    by_cases hs : s' = s
    · subst hs
      have hnot : ¬ st.Group s' := by
        rw [group_iff_of_holder (fun u hu => h.lock.unique hholds hu), ht]
        simp [Point.entering, Point.leaving]
      have hexcl := (h.sem s').exclusive hnot
      have hnonneg := (h.sem s').queue.nonneg
      obtain ⟨hqueue, hvalue⟩ := (h.sem s').take hv hpt rfl hawake rfl rfl
      have hself : ((st.semP t s' (.release .start s') (.semWait .asleep s')).point t).holdsLock := by
        rw [hpt, Function.update_self]
        rfl
      have hgroup : (st.semP t s' (.release .start s') (.semWait .asleep s')).Group s' := by
        rw [group_iff_of_holder (fun u hu => hlock.unique hself hu), hpt, Function.update_self]
        refine Or.inl ⟨?_, by simp [Point.entering]⟩
        show 0 < st.readerNum s'
        omega
      refine ⟨hqueue, fun _ => ?_, fun hg => absurd hgroup hg⟩
      rw [hvalue, hpt, procs_class (Point.insideWrite s') (apply_update_eq _ (by rw [ht]; rfl))]
      omega
    · refine (h.sem s').move hpt rfl (Function.update_of_ne hs _ _) (hwait s' hs).symm ?_
      rw [ht]
      simp [Point.groupView, Point.entering, Point.leaving, Ne.symm hs]

/-- A round of the loop of `P` by a writer of `s`. -/
theorem semP_writer (h : st.Inv) (ht : st.point t = .writeWait w s) (hw : w ≠ .asleep) :
    (st.semP t s (.writing s) (.writeWait .asleep s)).Inv := by
  obtain ⟨hawake, hwait⟩ := waitView_semP (Or.inr ht) hw
  -- a writer does not use the lock, and is not counted
  have hother : ∀ q, (st.semP t s (.writing s) (.writeWait .asleep s)).point =
      Function.update st.point t q → q.lockView = (st.point t).lockView →
      (∀ s', q.countView s' = (st.point t).countView s') →
      (st.semP t s (.writing s) (.writeWait .asleep s)).LockInv ∧
        (st.semP t s (.writing s) (.writeWait .asleep s)).CountInv := by
    intro q hpt hlock hcount
    refine ⟨h.lock.congr rfl ?_, h.count.congr rfl fun s' => ?_⟩
    · rw [hpt]; exact apply_update_eq _ hlock
    · rw [hpt]; exact apply_update_eq _ (hcount s')
  by_cases hv : (st.readerWtiterSemap s).value = 0
  · have hpt : (st.semP t s (.writing s) (.writeWait .asleep s)).point
        = Function.update st.point t (.writeWait .asleep s) := by simp [State.semP, p_of_eq_zero t hv]
    obtain ⟨hlock, hcount⟩ := hother _ hpt (by rw [ht]; rfl) (by rw [ht]; exact fun _ => rfl)
    refine ⟨hlock, hcount, State.SemInv.sleep h.sem hv hpt rfl rfl hawake (decide_eq_true rfl) rfl
      (by rw [ht]; rfl) ?_ (by rw [ht]; exact fun _ _ => rfl)⟩
    intro s' hs
    rw [hwait s' hs]
    simp [Point.waitView, Point.semAsleep, Point.semWoken, Point.insideWrite, Ne.symm hs]
  · -- the unit moves from the semaphore to the writer
    have hpt : (st.semP t s (.writing s) (.writeWait .asleep s)).point
        = Function.update st.point t (.writing s) := by simp [State.semP, p_of_ne_zero t hv]
    obtain ⟨hlock, hcount⟩ := hother _ hpt (by rw [ht]; rfl) (by rw [ht]; exact fun _ => rfl)
    refine ⟨hlock, hcount, fun s' => ?_⟩
    by_cases hs : s' = s
    · subst hs
      have hgroup : (st.semP t s' (.writing s') (.writeWait .asleep s')).Group s' ↔ st.Group s' :=
        group_congr rfl (by rw [hpt]; exact apply_update_eq _ (by rw [ht]; rfl))
      have hnot : ¬ st.Group s' := fun hg => hv ((h.sem s').shared hg).1
      have hexcl := (h.sem s').exclusive hnot
      obtain ⟨hqueue, hvalue⟩ := (h.sem s').take hv hpt rfl hawake rfl rfl
      refine ⟨hqueue, fun hg => absurd (hgroup.mp hg) hnot, fun _ => ?_⟩
      have hcard := card_procs_enter st.point (.writing s') (Point.insideWrite s')
        (by rw [ht]; rfl) (decide_eq_true rfl)
      rw [hvalue, hpt]
      omega
    · refine (h.sem s').move hpt rfl (Function.update_of_ne hs _ _) ?_ (by rw [ht]; rfl)
      rw [hwait s' hs]
      simp [Point.waitView, Point.semAsleep, Point.semWoken, Point.insideWrite, Ne.symm hs]

/-- The `V` on the semaphore of `s` wakes a thread that slept on it.  So it leaves the lock, and the
semaphores of the other sectors, as they are. -/
theorem semV_frame (h : st.Inv) (hlock : q.lockView = (st.point t).lockView)
    (hqueue : q.semAsleep s = (st.point t).semAsleep s ∧ q.semWoken s = (st.point t).semWoken s)
    (hwait : ∀ s', s' ≠ s → q.waitView s' = (st.point t).waitView s')
    (hgroup : ∀ n s', s' ≠ s → q.groupView n s' = (st.point t).groupView n s') :
    (st.semV t s q).LockInv ∧ (∀ s', s' ≠ s → (st.semV t s q).SemInv s') ∧
      WaitInv ((st.semV t s q).readerWtiterSemap s)
        (procs (fun p => Point.semAsleep s p) (st.semV t s q).point)
        (procs (fun p => Point.semWoken s p) (st.semV t s q).point) ∧
      ((st.semV t s q).readerWtiterSemap s).value = (st.readerWtiterSemap s).value + 1 := by
  have hasleep : ∀ w ∈ (st.readerWtiterSemap s).v.2, (Function.update st.point t q w).semAsleep s := by
    intro w hw
    rw [apply_update_eq (Point.semAsleep s) hqueue.1]
    exact mem_procs.mp (((h.sem s).queue.mem_iff w).mp (List.mem_of_mem_head? hw))
  refine ⟨h.lock.congr rfl fun u => ?_, fun s' hs => (h.sem s').congr (Function.update_of_ne hs _ _)
    (group_congr rfl fun u => ?_) fun u => ?_, ?_, by simp [State.semV, Semaphore.v]⟩
  · exact (wakeUp_class_of _ (fun w hw => Point.lockView_wake_of_sem (hasleep w hw)) u).trans
      (apply_update_eq _ hlock u)
  · exact (wakeUp_class _ (Point.groupView_wake _ s') _ _ u).trans
      (apply_update_eq _ (hgroup _ s' hs) u)
  · exact (wakeUp_class_of _ (fun w hw => Point.waitView_wake_of_ne hs (hasleep w hw)) u).trans
      (apply_update_eq _ (hwait s' hs) u)
  · have hqueue' : WaitInv (st.readerWtiterSemap s)
        (procs (fun p => Point.semAsleep s p) (Function.update st.point t q))
        (procs (fun p => Point.semWoken s p) (Function.update st.point t q)) := by
      rw [procs_class (Point.semAsleep s) (apply_update_eq _ hqueue.1),
        procs_class (Point.semWoken s) (apply_update_eq _ hqueue.2)]
      exact (h.sem s).queue
    simp only [State.semV, Function.update_self]
    exact waitInv_wakeUp hqueue' Point.semAsleep_wake

theorem card_insideWrite_semV : (procs (fun p => Point.insideWrite s p) (st.semV t s q).point).card =
    (procs (fun p => Point.insideWrite s p) (Function.update st.point t q)).card :=
  congrArg _ (procs_class _ (wakeUp_class _ (Point.insideWrite_wake s) _ _))

theorem countInv_semV (h : st.Inv) (hc : ∀ s', q.counted s' = (st.point t).counted s')
    (hq : ∀ s', q.atSem s' = false ∧ q.atSemV s' = false) : (st.semV t s q).CountInv := by
  have hmove : (st.goto t q).CountInv := h.count.move rfl rfl hc
    (fun s' hat => by simp [hq s'] at hat) fun s' hat => by simp [hq s'] at hat
  exact hmove.congr rfl fun s' => wakeUp_class _ (Point.countView_wake s') _ _

/-- The last reader of `s` gives the semaphore back. -/
theorem semV_reader (h : st.Inv) (ht : st.point t = .semV s) :
    (st.semV t s (.release .exit s)).Inv := by
  have hholds : (st.point t).holdsLock := by rw [ht]; rfl
  have hzero := h.count.last t s (by rw [ht]; exact decide_eq_true rfl)
  obtain ⟨hlock, hother, hqueue, hvalue⟩ := h.semV_frame (s := s) (q := .release .exit s)
    (by rw [ht]; rfl) (by rw [ht]; exact ⟨rfl, rfl⟩) (by rw [ht]; exact fun _ _ => rfl)
    (by rw [ht]; intro n s' hs; simp [Point.groupView, Point.entering, Point.leaving, Ne.symm hs])
  have hshared := (h.sem s).shared (Or.inr ⟨t, by rw [ht]; exact decide_eq_true rfl⟩)
  -- nobody else can be leaving, and no reader is counted any more
  have hfree : ¬ (st.semV t s (.release .exit s)).Group s := by
    rintro (⟨hpos, -⟩ | ⟨u, hu⟩)
    · exact absurd hzero (ne_of_gt hpos)
    · have hu' : (Function.update st.point t (.release .exit s) u).leaving (st.readerNum s) s :=
        (congrArg Prod.snd (wakeUp_class _ (Point.groupView_wake _ s) _ _ u)).symm.trans hu
      by_cases hut : u = t
      · rw [hut, Function.update_self] at hu'
        cases hu'
      · rw [Function.update_of_ne hut] at hu'
        exact hut (h.lock.unique hholds (Point.holdsLock_of_groupView (Or.inr hu')))
  refine ⟨hlock, h.countInv_semV (by rw [ht]; exact fun _ => rfl) fun _ => ⟨rfl, rfl⟩, fun s' => ?_⟩
  by_cases hs : s' = s
  · subst hs
    refine ⟨hqueue, fun hg => absurd hg hfree, fun _ => ?_⟩
    rw [hvalue, card_insideWrite_semV,
      procs_class (Point.insideWrite s') (apply_update_eq _ (by rw [ht]; rfl))]
    omega
  · exact hother s' hs

/-- A writer of `s` gives the semaphore back. -/
theorem semV_writer (h : st.Inv) (ht : st.point t = .writing s) : (st.semV t s .idle).Inv := by
  obtain ⟨hlock, hother, hqueue, hvalue⟩ := h.semV_frame (s := s) (q := .idle)
    (by rw [ht]; rfl) (by rw [ht]; exact ⟨rfl, rfl⟩)
    (by rw [ht]; intro s' hs; simp [Point.waitView, Point.semAsleep, Point.semWoken,
      Point.insideWrite, Ne.symm hs]) (by rw [ht]; exact fun _ _ _ => rfl)
  have hinside : (st.point t).insideWrite s := by rw [ht]; exact decide_eq_true rfl
  -- with a writer inside, the readers do not hold the semaphore
  have hfree : ¬ st.Group s := fun hg => by
    have hpos := card_procs_pos (P := fun p => Point.insideWrite s p = true).mpr ⟨t, hinside⟩
    have hnone := ((h.sem s).shared hg).2
    omega
  have hgroup : (st.semV t s .idle).Group s ↔ st.Group s :=
    group_congr rfl fun u => (wakeUp_class _ (Point.groupView_wake _ s) _ _ u).trans
      (apply_update_eq _ (by rw [ht]; rfl) u)
  have hexcl := (h.sem s).exclusive hfree
  refine ⟨hlock, h.countInv_semV (by rw [ht]; exact fun _ => rfl) fun _ => ⟨rfl, rfl⟩, fun s' => ?_⟩
  by_cases hs : s' = s
  · subst hs
    refine ⟨hqueue, fun hg => absurd (hgroup.mp hg) hfree, fun _ => ?_⟩
    have hcard := card_procs_leave st.point .idle (Point.insideWrite s') hinside rfl
    rw [hvalue, card_insideWrite_semV]
    omega
  · exact hother s' hs

/-- One case per control point. -/
theorem run {st' : State τ κ} (h : st.Inv) (hrun : st.run t = some st') : st'.Inv := by
  unfold State.run at hrun
  split at hrun
  all_goals cases hrun
  case h_2 ph s ht => exact h.lockP ht nofun
  case h_4 ph s ht => exact h.lockP ht nofun
  case h_5 ph s ht => exact h.assign ht
  case h_6 s ht => exact h.update ht rfl
  case h_7 s ht => exact h.update ht rfl
  case h_8 s ht => exact h.checkStart ht
  case h_9 s ht => exact h.checkExit ht
  case h_10 s ht => exact h.semP_reader ht nofun
  case h_12 s ht => exact h.semP_reader ht nofun
  case h_13 s ht => exact h.semV_reader ht
  case h_14 ph s ht =>
    have hheld : st.readerLock.isHeldBy t := by
      simp [Lock.isHeldBy, h.lock.held t (by rw [ht]; rfl)]
    rw [if_pos hheld]
    exact h.release ht
  case h_15 ph s ht => exact h.clear ht
  case h_16 ph s ht => exact h.lockV ht
  case h_17 s ht =>
    refine h.goto_like ?_ ?_ ?_ ?_
    all_goals rw [ht]; intros; rfl
  case h_18 s ht => exact h.semP_writer ht nofun
  case h_20 s ht => exact h.semP_writer ht nofun
  case h_21 s ht => exact h.semV_writer ht

theorem step {st' : State τ κ} (h : st.Inv) {a : Action τ κ} (hstep : st.step a = some st') :
    st'.Inv := by
  cases a with
  | startReader t s =>
    obtain ⟨ht, hs⟩ := Option.ite_none_right_eq_some.mp hstep
    obtain rfl := Option.some.inj hs
    refine h.goto_like ?_ ?_ ?_ ?_
    all_goals rw [ht]; intros; rfl
  | startWriter t s =>
    obtain ⟨ht, hs⟩ := Option.ite_none_right_eq_some.mp hstep
    obtain rfl := Option.some.inj hs
    refine h.goto_like ?_ ?_ ?_ ?_
    all_goals rw [ht]; intros; rfl
  | run t => exact h.run hstep

end State.Inv

theorem reachable_inv {st : State τ κ} (h : (system τ κ).Reachable st) : st.Inv := by
  refine h.invariant ?_ (fun _ _ _ hinv hstep => hinv.step hstep)
  rintro _ rfl
  exact inv_init

theorem exists_run {st : State τ κ} (h : st.Inv) {t : τ} (ht : st.point t ≠ .idle) :
    ∃ u st', st.point u ≠ .idle ∧ st.run u = some st' := by
  by_contra hnone
  push Not at hnone
  refine ht (State.Stuck.idle ⟨fun u => ?_⟩ h t)
  by_cases hu : st.point u = .idle
  · exact Or.inl hu
  · exact idle_or_asleep_of_run_eq_none (Option.eq_none_iff_forall_not_mem.mpr
      fun st' hst' => hnone u st' hu hst')

/-! ### The protocol -/

/-- **Readers and writers**, in every reachable state.  A writer excludes other writers and the
readers of its sector, and the semaphore of a sector is `0` or `1`; when `readerLock` is free,
`readerNum[s]` is the number of readers inside; and as long as a thread is inside a pair of calls,
some such thread can take a step. -/
theorem readers_writers {st : State τ κ} (h : (system τ κ).Reachable st) :
    (∀ s t, (st.point t).insideWrite s →
      ∀ u, u ≠ t → ¬ (st.point u).insideWrite s ∧ ¬ (st.point u).insideRead s) ∧
    (∀ s, (st.readerWtiterSemap s).value = 0 ∨ (st.readerWtiterSemap s).value = 1) ∧
    (st.readerLock.lock.value = 1 →
      ∀ s, st.readerNum s = (procs (fun p => Point.insideRead s p) st.point).card) ∧
    ((∃ t, st.point t ≠ .idle) →
      ∃ t st', st.point t ≠ .idle ∧ st.step (.run t) = some st') := by
  have hinv := reachable_inv h
  refine ⟨?_, hinv.semValue, hinv.readerNum_eq, ?_⟩
  · intro s t ht u hut
    refine ⟨fun hu => hut (hinv.insideWrite_unique hu ht), fun hu => ?_⟩
    have hpos := card_procs_pos (P := fun p => Point.insideWrite s p = true).mpr ⟨t, ht⟩
    have hnone := ((hinv.sem s).shared (hinv.group_of_insideRead hu)).2
    omega
  · rintro ⟨t, ht⟩
    exact exists_run hinv ht

/-- Thread `0` writes sector `0`, thread `1` sleeps on that sector's semaphore with the lock held,
and thread `2`, a reader of sector `1`, sleeps on the lock: the writer can go on. -/
theorem readers_writers_coupled :
    ∃ st : State (Fin 3) (Fin 2), (system (Fin 3) (Fin 2)).Reachable st ∧
      st.point 0 = .writing 0 ∧ st.point 1 = .semWait .asleep 0 ∧
      st.point 2 = .lockWait .start .asleep 1 ∧
      ∃ t st', st.point t ≠ .idle ∧ st.step (.run t) = some st' := by
  have h0 : (system (Fin 3) (Fin 2)).Reachable
      ⟨Lock.new, fun _ => Semaphore.new 1, fun _ => 0, fun _ => .idle⟩ := .of_init rfl
  have h1 := h0.tail (a := .startWriter 0 0) (show State.step _ _ = some _ from rfl)
  have h2 := h1.tail (a := .run 0) (show State.step _ _ = some _ from rfl)
  have h3 := h2.tail (a := .startReader 1 0) (show State.step _ _ = some _ from rfl)
  have h4 := h3.tail (a := .run 1) (show State.step _ _ = some _ from rfl)
  have h5 := h4.tail (a := .run 1) (show State.step _ _ = some _ from rfl)
  have h6 := h5.tail (a := .run 1) (show State.step _ _ = some _ from rfl)
  have h7 := h6.tail (a := .run 1) (show State.step _ _ = some _ from rfl)
  have h8 := h7.tail (a := .run 1) (show State.step _ _ = some _ from rfl)
  have h9 := h8.tail (a := .startReader 2 1) (show State.step _ _ = some _ from rfl)
  have h10 := h9.tail (a := .run 2) (show State.step _ _ = some _ from rfl)
  exact ⟨_, h10, rfl, rfl, rfl, (readers_writers h10).2.2.2 ⟨0, nofun⟩⟩

end Nachos.ReadersWriters
