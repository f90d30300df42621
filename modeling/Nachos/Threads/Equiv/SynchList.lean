import Nachos.Threads.Equiv.SynchListStage

/-!
# Synchronized lists are blocking queues

`Pictured i s p` says that `p`, a state of `BlockingQueue`, is the picture of the list `i` in the
state `s`: the threads stand where `p` says, those that have the lock in `p` have it in `s`, and the
waiting list and the number of items are the same.  Every step of the kernel is a step of the picture,
or changes nothing of it, and so no wake-up is lost.
-/

namespace Nachos.SynchList

open Kernel
open BlockingQueue (Status)

variable {τ σ μ κ ι α ξ δ : Type} [DecidableEq ι]

/-! ### The picture of a list -/

variable [DecidableEq τ] [DecidableEq σ] [DecidableEq μ] [DecidableEq κ] {C : Client τ σ μ κ ι α ξ δ}
  {i : ι} {s s' : State τ σ (ι ⊕ μ) (ι ⊕ κ) (Code ι α ξ) (Data ι α δ)} {p : BlockingQueue.State τ}
  {st : Status}

/-- `p` is the picture of the list `i` in the state `s`. -/
structure Pictured (i : ι) (s : State τ σ (ι ⊕ μ) (ι ⊕ κ) (Code ι α ξ) (Data ι α δ))
    (p : BlockingQueue.State τ) : Prop where
  stage : ∀ t, Stage i (p.status t) (residue i (s.kernel t)) (s.program t)
  has : ∀ t, (p.status t).holds → s.Has (.inl i) t
  waiting : p.waiting = s.waitinglist (.inl i)
  size : p.size = (s.data.list i).length
  /-- A thread that has not been forked is outside. -/
  fresh : ∀ t, s.status t = .justCreated → residue i (s.kernel t) = [] ∧ Script i (s.program t)

/-- The step from `s` to `s'` leaves the threads other than the current one where they are. -/
structure Frame (i : ι) (s s' : State τ σ (ι ⊕ μ) (ι ⊕ κ) (Code ι α ξ) (Data ι α δ)) : Prop where
  other : ∀ t, t ≠ s.currentThread →
    residue i (s'.kernel t) = residue i (s.kernel t) ∧ s'.program t = s.program t
  keep : ∀ t, t ≠ s.currentThread → s.Has (.inl i) t → s'.Has (.inl i) t
  fresh : ∀ t, s'.status t = .justCreated → s.status t = .justCreated ∧ t ≠ s.currentThread

/-- The step from `s` to `s'` is one of the queue, or changes nothing of it. -/
def Refined (i : ι) (s' : State τ σ (ι ⊕ μ) (ι ⊕ κ) (Code ι α ξ) (Data ι α δ))
    (p : BlockingQueue.State τ) : Prop :=
  ∃ p', Pictured i s' p' ∧ (p' = p ∨ BlockingQueue.Step p p')

omit [DecidableEq τ] [DecidableEq σ] [DecidableEq κ] in
theorem has_iff {t : τ} : s.Has (.inl i) t ↔
    s.heldthread (.inl i) = some t ∨ inside (.inl i) (residue i (s.kernel t)) = true := by
  rw [State.Has, inside_residue]

omit [DecidableEq τ] [DecidableEq σ] [DecidableEq κ] in
theorem has_of_inside {t : τ} (h : s.Has (.inl i) t)
    (hheld : s'.heldthread (.inl i) = s.heldthread (.inl i))
    (hin : inside (.inl i) (residue i (s'.kernel t)) = inside (.inl i) (residue i (s.kernel t))) :
    s'.Has (.inl i) t := by
  rw [has_iff] at h ⊢
  rwa [hheld, hin]

namespace Pictured

omit [DecidableEq σ] [DecidableEq κ] in
/-- The current thread moves to another stage. -/
theorem move (h : Pictured i s p) (hframe : Frame i s s')
    (hstage : Stage i st (residue i (s'.kernel s.currentThread)) (s'.program s.currentThread))
    (hhas : st.holds → s'.Has (.inl i) s.currentThread) :
    Pictured i s' ⟨Function.update p.status s.currentThread st, s'.waitinglist (.inl i),
      (s'.data.list i).length⟩ := by
  refine ⟨?_, ?_, rfl, rfl, ?_⟩
  · intro t
    show Stage i (Function.update p.status s.currentThread st t) _ _
    by_cases ht : t = s.currentThread
    · subst ht
      rw [Function.update_self]
      exact hstage
    · obtain ⟨hresidue, hprogram⟩ := hframe.other t ht
      rw [Function.update_of_ne ht, hresidue, hprogram]
      exact h.stage t
  · intro t (hholds : (Function.update p.status s.currentThread st t).holds)
    by_cases ht : t = s.currentThread
    · subst ht
      rw [Function.update_self] at hholds
      exact hhas hholds
    · rw [Function.update_of_ne ht] at hholds
      exact hframe.keep t ht (h.has t hholds)
  · intro t hstatus
    obtain ⟨hbefore, ht⟩ := hframe.fresh t hstatus
    obtain ⟨hresidue, hprogram⟩ := hframe.other t ht
    rw [hresidue, hprogram]
    exact h.fresh t hbefore

omit [DecidableEq σ] [DecidableEq κ] in
/-- A step that changes nothing of the queue. -/
theorem silent (h : Pictured i s p) (hframe : Frame i s s')
    (hstage : Stage i (p.status s.currentThread) (residue i (s'.kernel s.currentThread))
      (s'.program s.currentThread))
    (hhas : (p.status s.currentThread).holds → s'.Has (.inl i) s.currentThread)
    (hwaiting : s'.waitinglist (.inl i) = s.waitinglist (.inl i))
    (hlist : s'.data.list i = s.data.list i) : Refined i s' p := by
  refine ⟨_, h.move hframe hstage hhas, Or.inl ?_⟩
  rw [Function.update_eq_self, hwaiting, hlist, ← h.waiting, ← h.size]

omit [DecidableEq σ] [DecidableEq κ] in
/-- A step of the queue. -/
theorem active (h : Pictured i s p) (hframe : Frame i s s')
    (hstage : Stage i st (residue i (s'.kernel s.currentThread)) (s'.program s.currentThread))
    (hhas : st.holds → s'.Has (.inl i) s.currentThread)
    (hstep : BlockingQueue.Step p ⟨Function.update p.status s.currentThread st,
      s'.waitinglist (.inl i), (s'.data.list i).length⟩) : Refined i s' p :=
  ⟨_, h.move hframe hstage hhas, Or.inr hstep⟩

variable {j : Instr τ σ (ι ⊕ μ) (ι ⊕ κ) (Code ι α ξ)}
  {k : List (Instr τ σ (ι ⊕ μ) (ι ⊕ κ) (Code ι α ξ))} {due : List (Code ι α ξ)} {timer : Bool}

/-- A statement that has nothing to do with the list. -/
theorem exec_of_not (h : Pictured i s p) (hframe : Frame i s s') (hj : touches i j = false)
    (hcode : s.code = j :: k) (hexec : s.exec due timer k j = some s') : Refined i s' p := by
  obtain ⟨k₀, hk₀, hkernel⟩ := exec_front hexec
  have hfoot := exec_footprint hexec
  have hself : residue i (s'.kernel s.currentThread) = residue i (s.kernel s.currentThread) := by
    rw [hkernel, Function.update_self, residue_append, residue_front hj hk₀,
      show s.kernel s.currentThread = j :: k from hcode, residue_cons_of_not hj, List.nil_append]
  have hne : ∀ j' : Instr τ σ (ι ⊕ μ) (ι ⊕ κ) (Code ι α ξ), touches i j' = true → j ≠ j' := by
    rintro j' hj' rfl
    rw [hj] at hj'
    cases hj'
  apply h.silent hframe
  · rw [hself, hfoot.program]
    exact h.stage _
  · intro hholds
    refine has_of_inside (h.has _ hholds) ?_ (by rw [hself])
    exact heldthread_exec hexec (hne _ (by simp [touches])) (hne _ (by simp [touches]))
  · exact waitinglist_exec hexec (hne _ (by simp [touches])) (hne _ (by simp [touches]))
  · rw [hfoot.data]

omit [DecidableEq τ] [DecidableEq σ] [DecidableEq κ] in
/-- The stage of the current thread, whose next statement works on the list. -/
theorem stage_current (h : Pictured i s p) (hj : touches i j = true) (hcode : s.code = j :: k) :
    Stage i (p.status s.currentThread) (j :: residue i k) (s.program s.currentThread) := by
  have hstage := h.stage s.currentThread
  rwa [show s.kernel s.currentThread = j :: k from hcode, residue_cons_of_touches hj] at hstage

/-- The `P` of `Acquire`. -/
theorem exec_p (h : Pictured i s p) (hlocked : Locked s) (hframe : Frame i s s')
    (hcode : s.code = .p (.inr (.inl i)) :: k)
    (hexec : s.exec due timer k (.p (.inr (.inl i))) = some s') : Refined i s' p := by
  have hj : touches i (.p (.inr (.inl i)) : Instr τ σ (ι ⊕ μ) (ι ⊕ κ) (Code ι α ξ)) = true := by
    simp [touches]
  have hstage := h.stage_current hj hcode
  cases hexec
  have hkernel := semP_kernel s (.inr (.inl i)) k
  split_ifs at hkernel with hvalue
  · -- asleep, and no further
    apply h.silent hframe
    · rw [hkernel, residue_append, residue_cons_of_touches hj]
      exact hstage
    · intro hholds
      rcases hstage.of_p.2 with ⟨hst, -⟩ | ⟨hst, -⟩ <;> rw [hst] at hholds <;> exact hholds.elim
    · rfl
    · rfl
  · have hfree : ∀ u, ¬ (p.status u).holds :=
      fun u hu => hvalue (hlocked.value_eq_zero (h.has u hu))
    have hhas : (s.semP (.inr (.inl i)) k).Has (.inl i) s.currentThread := by
      rw [has_iff, hkernel]
      exact Or.inr hstage.of_p.1
    rcases hstage.of_p.2 with ⟨hst, st, hnew, hnext⟩ | ⟨hst, hnext⟩
    · apply h.active hframe (hkernel ▸ hnext) (fun _ => hhas)
      show BlockingQueue.Step p ⟨_, s.waitinglist (.inl i), (s.data.list i).length⟩
      rw [← h.waiting, ← h.size]
      exact .enter hst hfree hnew
    · apply h.active hframe (hkernel ▸ hnext) (fun _ => hhas)
      show BlockingQueue.Step p ⟨_, s.waitinglist (.inl i), (s.data.list i).length⟩
      rw [← h.waiting, ← h.size]
      refine .resume hst ?_ hfree
      rw [h.waiting]
      apply notMem_waitinglist hlocked
      rw [hcode]
      rfl

/-- `heldthread = NULL` in `Release`: the thread has the lock until the `V`. -/
theorem exec_release (h : Pictured i s p) (hframe : Frame i s s')
    (hcode : s.code = .release (.inl i) :: k)
    (hexec : s.exec due timer k (.release (.inl i)) = some s') : Refined i s' p := by
  obtain ⟨hholds, hnext⟩ := (h.stage_current (by simp [touches]) hcode).of_release
  have hheld : s.heldthread (.inl i) = some s.currentThread := by
    rcases h.has _ hholds with hheld | hin
    · exact hheld
    · rw [show s.kernel s.currentThread = _ from hcode, inside, if_pos rfl] at hin
      cases hin
  have hkernel : s'.kernel s.currentThread = Instr.semaphoreV (.inr (.inl i)) ++ k := by
    cases hexec
    rw [if_pos hheld]
    exact Function.update_self _ _ _
  have hself : residue i (s'.kernel s.currentThread) = .v (.inr (.inl i)) :: residue i k := by
    rw [hkernel, residue_append]
    simp [Instr.semaphoreV, residue, touches]
  have hfoot := exec_footprint hexec
  apply h.silent hframe
  · rw [hself, hfoot.program]
    exact hnext
  · intro _
    rw [has_iff, hself]
    exact Or.inr (if_pos rfl)
  · exact waitinglist_exec hexec (by simp) (by simp)
  · rw [hfoot.data]

/-- The `V` of `Release`. -/
theorem exec_v (h : Pictured i s p) (hframe : Frame i s s')
    (hcode : s.code = .v (.inr (.inl i)) :: k)
    (hexec : s.exec due timer k (.v (.inr (.inl i))) = some s') : Refined i s' p := by
  obtain ⟨k₀, hk₀, hkernel⟩ := exec_front hexec
  obtain rfl := List.mem_singleton.1 hk₀
  have hself : residue i (s'.kernel s.currentThread) = residue i k := by
    rw [hkernel, Function.update_self, List.nil_append]
  have hfoot := exec_footprint hexec
  have hwaiting : s'.waitinglist (.inl i) = p.waiting :=
    (waitinglist_exec hexec (by simp) (by simp)).trans h.waiting.symm
  have hsize : (s'.data.list i).length = p.size := by rw [hfoot.data, h.size]
  rcases (h.stage_current (by simp [touches]) hcode).of_v with ⟨hst, hnext⟩ | ⟨hst, hnext⟩
  · rw [← hself, ← hfoot.program] at hnext
    apply h.active hframe hnext (fun hholds => hholds.elim)
    rw [hwaiting, hsize]
    exact .leave hst
  · rw [← hself, ← hfoot.program] at hnext
    apply h.active hframe hnext (fun hholds => hholds.elim)
    rw [hwaiting, hsize]
    exact .unlock hst

/-- `heldthread = currentThread` in `Acquire`. -/
theorem exec_assign (h : Pictured i s p) (hframe : Frame i s s')
    (hcode : s.code = .assign (.inl i) :: k)
    (hexec : s.exec due timer k (.assign (.inl i)) = some s') : Refined i s' p := by
  have hnext := (h.stage_current (by simp [touches]) hcode).of_assign
  cases hexec
  have hself : (s.goto k).kernel s.currentThread = k := Function.update_self _ _ _
  apply h.silent hframe
  · rw [← hself] at hnext
    exact hnext
  · exact fun _ => Or.inl (Function.update_self _ _ _)
  · rfl
  · rfl

/-- The thread goes onto the waiting list. -/
theorem exec_append (h : Pictured i s p) (hframe : Frame i s s')
    (hcode : s.code = .append (.inl i) :: k)
    (hexec : s.exec due timer k (.append (.inl i)) = some s') : Refined i s' p := by
  obtain ⟨hst, hnext⟩ := (h.stage_current (by simp [touches]) hcode).of_append
  cases hexec
  have hself : ((s.doAppend (.inl i)).goto k).kernel s.currentThread = k := Function.update_self _ _ _
  have hwaiting : ((s.doAppend (.inl i)).goto k).waitinglist (.inl i) =
      p.waiting ++ [s.currentThread] := by
    rw [h.waiting]
    exact Function.update_self _ _ _
  rw [← hself] at hnext
  apply h.active hframe hnext (fun hholds => hholds.elim)
  rw [hwaiting, show ((s.doAppend (.inl i)).goto k).data = s.data from rfl, ← h.size]
  exact .enlist hst

/-- `Wait` returns. -/
theorem exec_returnWait (h : Pictured i s p) (hframe : Frame i s s')
    (hcode : s.code = .returnWait (.inl i) :: k)
    (hexec : s.exec due timer k (.returnWait (.inl i)) = some s') : Refined i s' p := by
  have hj : touches i (.returnWait (.inl i) : Instr τ σ (ι ⊕ μ) (ι ⊕ κ) (Code ι α ξ)) = true := by
    simp [touches]
  obtain ⟨hnil, hnext⟩ := (h.stage_current hj hcode).of_returnWait
  have hfoot := exec_footprint hexec
  obtain ⟨k₀, hk₀, hkernel⟩ := exec_front hexec
  have hself : residue i (s'.kernel s.currentThread) = residue i k := by
    have hfront : residue i k₀ = [] := residue_front (j := .enable) rfl hk₀
    rw [hkernel, Function.update_self, residue_append, hfront, List.nil_append]
  apply h.silent hframe
  · rw [hself, hfoot.program]
    exact hnext
  · intro hholds
    refine has_of_inside (h.has _ hholds) (heldthread_exec hexec (by simp) (by simp)) ?_
    rw [hself, show s.kernel s.currentThread = _ from hcode, residue_cons_of_touches hj, hnil]
    rfl
  · exact waitinglist_exec hexec (by simp) (by simp)
  · rw [hfoot.data]

/-- The body of `Signal`. -/
theorem exec_signal (h : Pictured i s p) (hframe : Frame i s s')
    (hcode : s.code = .signal (.inl i) :: k)
    (hexec : s.exec due timer k (.signal (.inl i)) = some s') : Refined i s' p := by
  have hj : touches i (.signal (.inl i) : Instr τ σ (ι ⊕ μ) (ι ⊕ κ) (Code ι α ξ)) = true := by
    simp [touches]
  obtain ⟨hst, hnil, hnext⟩ := (h.stage_current hj hcode).of_signal
  have hfoot := exec_footprint hexec
  have hwaiting : s'.waitinglist (.inl i) = p.waiting.tail := by
    rw [h.waiting]
    cases hexec
    show (s.doSignal (.inl i)).waitinglist (.inl i) = _
    unfold State.doSignal
    split
    · rename_i hlist
      rw [hlist]
      rfl
    · rename_i next rest hlist
      rw [hlist]
      exact Function.update_self _ _ _
  obtain ⟨k₀, hk₀, hkernel⟩ := exec_front hexec
  obtain rfl := List.mem_singleton.1 hk₀
  have hself : s'.kernel s.currentThread = k := by
    rw [hkernel, Function.update_self, List.nil_append]
  have hhas : s'.Has (.inl i) s.currentThread := by
    refine has_of_inside (h.has _ (by rw [hst]; trivial)) (heldthread_exec hexec (by simp) (by simp)) ?_
    rw [hself, show s.kernel s.currentThread = _ from hcode, residue_cons_of_touches hj, hnil]
    rfl
  rw [← hself, ← hfoot.program] at hnext
  apply h.active hframe hnext (fun _ => hhas)
  rw [hwaiting, hfoot.data, ← h.size]
  exact .wake hst

theorem exec (h : Pictured i s p) (hlocked : Locked s) (hframe : Frame i s s')
    (hcode : s.code = j :: k) (hexec : s.exec due timer k j = some s') : Refined i s' p := by
  by_cases hj : touches i j = true
  swap
  · rw [Bool.not_eq_true] at hj
    exact h.exec_of_not hframe hj hcode hexec
  cases j with
  | p x =>
    rcases x with x | i' | l
    · cases hj
    · obtain rfl : i' = i := of_decide_eq_true hj
      exact h.exec_p hlocked hframe hcode hexec
    · cases hj
  | v x =>
    rcases x with x | i' | l
    · cases hj
    · obtain rfl : i' = i := of_decide_eq_true hj
      exact h.exec_v hframe hcode hexec
    · cases hj
  | assign l =>
    rcases l with i' | l
    · obtain rfl : i' = i := of_decide_eq_true hj
      exact h.exec_assign hframe hcode hexec
    · cases hj
  | release l =>
    rcases l with i' | l
    · obtain rfl : i' = i := of_decide_eq_true hj
      exact h.exec_release hframe hcode hexec
    · cases hj
  | append c =>
    rcases c with i' | c
    · obtain rfl : i' = i := of_decide_eq_true hj
      exact h.exec_append hframe hcode hexec
    · cases hj
  | returnWait c =>
    rcases c with i' | c
    · obtain rfl : i' = i := of_decide_eq_true hj
      exact h.exec_returnWait hframe hcode hexec
    · cases hj
  | signal c =>
    rcases c with i' | c
    · obtain rfl : i' = i := of_decide_eq_true hj
      exact h.exec_signal hframe hcode hexec
    · cases hj
  | broadcast c => exact ((h.stage_current hj hcode).not_broadcast rfl).elim
  | _ => cases hj

omit [DecidableEq σ] [DecidableEq κ] in
/-- An interrupt handler. -/
theorem handle {x : Code ι α ξ} {vs : List σ} {d : δ} (h : Pictured i s p)
    (hcode : s.code = .handle x :: k)
    (hfresh : ∀ t, s.status t = .justCreated → t ≠ s.currentThread) :
    Refined i { s.goto (vs.flatMap (fun x => Instr.semaphoreV (.inl x)) ++ k) with
      data := { s.data with client := d } } p := by
  have hkernel : ∀ t, residue i ((s.goto
      (vs.flatMap (fun x => Instr.semaphoreV (.inl x)) ++ k)).kernel t) = residue i (s.kernel t) := by
    intro t
    by_cases ht : t = s.currentThread
    · subst ht
      have hvs : residue i (vs.flatMap fun x =>
          (Instr.semaphoreV (.inl x) : List (Instr τ σ (ι ⊕ μ) (ι ⊕ κ) (Code ι α ξ)))) = [] :=
        residue_eq_nil (forall_mem_flatMap rfl (fun _ => rfl) rfl)
      rw [show s.kernel s.currentThread = _ from hcode, residue_cons_of_not rfl]
      show residue i (Function.update s.kernel s.currentThread _ _) = _
      rw [Function.update_self, residue_append, hvs, List.nil_append]
    · exact congrArg (residue i) (Function.update_of_ne ht _ _)
  have hframe : Frame i s { s.goto (vs.flatMap (fun x => Instr.semaphoreV (.inl x)) ++ k) with
      data := { s.data with client := d } } := by
    refine ⟨fun t _ => ⟨hkernel t, rfl⟩, ?_, fun t ht => ⟨ht, hfresh t ht⟩⟩
    exact fun t _ hhas => has_of_inside hhas rfl (congrArg _ (hkernel t))
  apply h.silent hframe
  · rw [hkernel]
    exact h.stage _
  · exact fun hholds => has_of_inside (h.has _ hholds) rfl (congrArg _ (hkernel _))
  · rfl
  · rfl

end Pictured

/-! ### Steps outside the kernel -/

section

variable {d d' : Data ι α δ} {receive : α → ξ}
  {more : List (Op τ σ (ι ⊕ μ) (ι ⊕ κ) (Code ι α ξ))}

omit [DecidableEq τ] [DecidableEq σ] [DecidableEq μ] [DecidableEq κ] in
theorem exec_loop (h : exec d (.loop i receive) = some (d', more)) :
    (d.list i = [] ∧ d' = d ∧ more = [.wait (.inl i) (.inl i), .own (.loop i receive)]) ∨
      ∃ x rest, d.list i = some x :: rest ∧ d' = (d.remove i rest).logRemove i (some x) ∧
        more = [.release (.inl i), .own (.client (receive x))] := by
  simp only [exec] at h
  split at h
  · cases h
    exact Or.inl ⟨by assumption, rfl, rfl⟩
  · cases h
    exact Or.inr ⟨_, _, by assumption, rfl, rfl⟩
  · cases h

variable {op : Op τ σ (ι ⊕ μ) (ι ⊕ κ) (Code ι α ξ)} {due : List (Code ι α ξ)} {timer : Bool}

omit [DecidableEq τ] [DecidableEq σ] [DecidableEq μ] [DecidableEq κ] in
theorem residue_routine (hop : Plain i op) : residue i (op.routine due timer) = [] := by
  cases op with
  | acquire l =>
    rcases l with j | l <;>
      simp_all [Plain, Op.routine, Instr.lockAcquire, Instr.semaphoreP, residue, touches]
  | release l => rcases l with j | l <;> simp_all [Plain, Op.routine, residue, touches]
  | wait c l =>
    rcases c with j | c <;> rcases l with j' | l <;>
      simp_all [Plain, Op.routine, Instr.conditionWait, Instr.threadSleep, Instr.lockAcquire,
        Instr.semaphoreP, residue, touches]
  | signal c =>
    rcases c with j | c <;> simp_all [Plain, Op.routine, Instr.conditionSignal, residue, touches]
  | broadcast c =>
    rcases c with j | c <;> simp_all [Plain, Op.routine, Instr.conditionBroadcast, residue, touches]
  | oneTick =>
    exact residue_front (j := .enable) rfl (List.mem_cons_of_mem _ (List.mem_singleton_self _))
  | _ => rfl

end

namespace Pictured

variable {ops more : List (Op τ σ (ι ⊕ μ) (ι ⊕ κ) (Code ι α ξ))} {d : Data ι α δ} {x : Code ι α ξ}

omit [DecidableEq τ] [DecidableEq σ] [DecidableEq κ] in
theorem stage_of_code_eq_nil (h : Pictured i s p) (hcode : s.code = []) :
    Stage i (p.status s.currentThread) [] (s.program s.currentThread) := by
  have hstage := h.stage s.currentThread
  rwa [show s.kernel s.currentThread = [] from hcode] at hstage

omit [DecidableEq τ] [DecidableEq σ] [DecidableEq κ] in
/-- Outside the kernel, nobody is on the way onto the waiting list. -/
theorem not_unlisted (h : Pictured i s p) (hwell : WellFormed s) (hcode : s.code = []) (t : τ) :
    p.status t ≠ .unlisted := by
  intro ht
  have hstage := h.stage t
  rw [ht] at hstage
  have happend : .append (.inl i) ∈ residue i (s.kernel t) := by
    generalize residue i (s.kernel t) = r at hstage ⊢
    generalize s.program t = ops at hstage
    cases hstage
    exact List.mem_cons_self
  have hmem : .append (.inl i) ∈ s.kernel t := List.mem_of_mem_filter happend
  by_cases htc : t = s.currentThread
  · rw [htc, show s.kernel s.currentThread = [] from hcode] at hmem
    cases hmem
  · cases (hwell.other t htc).2.2 _ hmem

omit [DecidableEq σ] [DecidableEq κ] in
/-- The current thread's own code moves it to another stage. -/
theorem proceed (h : Pictured i s p) (hframe : Frame i s { s.proceed ops with data := d })
    (hcode : s.code = []) (hstage : Stage i st [] ops)
    (hholds : st.holds → (p.status s.currentThread).holds) :
    Pictured i { s.proceed ops with data := d }
      ⟨Function.update p.status s.currentThread st, p.waiting, (d.list i).length⟩ := by
  rw [h.waiting]
  apply h.move hframe
  · show Stage i st (residue i (s.kernel s.currentThread))
      (Function.update s.program s.currentThread ops s.currentThread)
    rw [show s.kernel s.currentThread = [] from hcode, Function.update_self]
    exact hstage
  · exact fun hst => h.has _ (hholds hst)

omit [DecidableEq σ] [DecidableEq κ] in
/-- Code that has nothing to do with the list. -/
theorem own_of_script (h : Pictured i s p) (hframe : Frame i s { s.proceed ops with data := d })
    (hcode : s.code = []) (hst : p.status s.currentThread = .outside) (hops : Script i ops)
    (hlist : d.list i = s.data.list i) : Refined i { s.proceed ops with data := d } p := by
  refine ⟨_, h.proceed hframe hcode (.away hops) fun hholds => hholds.elim, Or.inl ?_⟩
  rw [← hst, Function.update_eq_self, hlist, ← h.size]

omit [DecidableEq σ] [DecidableEq κ] in
theorem own (h : Pictured i s p) (hC : C.NonNull) (hwell : WellFormed s)
    (hframe : Frame i s { s.proceed (more ++ ops) with data := d }) (hcode : s.code = [])
    (hprogram : s.program s.currentThread = .own x :: ops)
    (hexec : (program C).exec s.currentThread x s.data d more) :
    Refined i { s.proceed (more ++ ops) with data := d } p := by
  have hstage := h.stage_of_code_eq_nil hcode
  rw [hprogram] at hstage
  generalize hst : p.status s.currentThread = st at hstage
  cases hstage with
  | away hscript =>
    cases hscript with
    | plain hop hops =>
      cases x with
      | client y =>
        obtain ⟨d₀, calls, hcalls, rfl, rfl⟩ := hexec
        refine h.own_of_script hframe hcode hst ?_ rfl
        exact (Script.flatMap_expand fun j => hC _ _ _ _ _ j hcalls).concat hops
      | add j item =>
        cases hexec
        exact h.own_of_script hframe hcode hst hops (Function.update_of_ne (Ne.symm hop) _ _)
      | loop j receive =>
        have hne : (Sum.inl j : ι ⊕ κ) ≠ .inl i := fun heq => hop (Sum.inl.inj heq)
        have hne' : (Sum.inl j : ι ⊕ μ) ≠ .inl i := fun heq => hop (Sum.inl.inj heq)
        rcases exec_loop hexec with ⟨-, rfl, rfl⟩ | ⟨y, rest, -, rfl, rfl⟩
        · refine h.own_of_script hframe hcode hst ?_ rfl
          exact .plain ⟨hne, hne'⟩ (.plain hop hops)
        · refine h.own_of_script hframe hcode hst ?_ (Function.update_of_ne (Ne.symm hop) _ _)
          exact .plain hne' (.plain trivial hops)
  | add hops =>
    cases hexec
    refine ⟨_, h.proceed hframe hcode (.callSignal hops) ?_, Or.inr ?_⟩
    · intro _
      rw [hst]
      trivial
    · have hsize : ∀ item, (((s.data.add i item).logAppend i item).list i).length = p.size + 1 := by
        intro item
        rw [h.size]
        show (Function.update s.data.list i _ i).length = _
        rw [Function.update_self, List.length_append]
        rfl
      rw [hsize]
      exact .add hst (h.not_unlisted hwell hcode)
  | loop hops =>
    rcases exec_loop hexec with ⟨hnil, rfl, rfl⟩ | ⟨y, rest, hlist, rfl, rfl⟩
    · refine ⟨_, h.proceed hframe hcode (.callWait hops) ?_, Or.inr ?_⟩
      · intro _
        rw [hst]
        trivial
      · rw [← h.size]
        refine .wait hst ?_
        rw [h.size, hnil]
        rfl
    · refine ⟨_, h.proceed hframe hcode (.callRelease (.plain trivial hops)) ?_, Or.inr ?_⟩
      · intro _
        rw [hst]
        trivial
      · have hsize : p.size = rest.length + 1 := by
          rw [h.size, hlist]
          rfl
        have hrest : (((s.data.remove i rest).logRemove i (some y)).list i).length = p.size - 1 := by
          rw [hsize]
          show (Function.update s.data.list i rest i).length = _
          rw [Function.update_self]
          rfl
        rw [hrest]
        refine .take hst ?_
        rw [hsize]
        exact Nat.succ_ne_zero _

variable {op : Op τ σ (ι ⊕ μ) (ι ⊕ κ) (Code ι α ξ)}

omit [DecidableEq σ] [DecidableEq κ] in
/-- The current thread enters a routine. -/
theorem call_of_ne_fork (h : Pictured i s p)
    (hframe : Frame i s ((s.proceed ops).call due timer op)) (hcode : s.code = [])
    (hprogram : s.program s.currentThread = op :: ops) (hop : ∀ x, op ≠ .own x)
    (hfork : ∀ t func, op ≠ .fork t func) :
    Refined i ((s.proceed ops).call due timer op) p := by
  obtain ⟨hheld, hwaiting, hdata⟩ := call_frame (s.proceed ops) due timer op
  have hself : ((s.proceed ops).call due timer op).kernel s.currentThread = op.routine due timer :=
    call_kernel_self hcode
  have hafter : ((s.proceed ops).call due timer op).program s.currentThread = ops := by
    rw [call_program hfork]
    exact Function.update_self _ _ _
  have hstage : Stage i (p.status s.currentThread) (residue i (op.routine due timer)) ops := by
    have hbefore := h.stage_of_code_eq_nil hcode
    rw [hprogram] at hbefore
    generalize p.status s.currentThread = st at hbefore ⊢
    cases hbefore with
    | away hscript =>
      cases hscript with
      | plain hplain hops =>
        rw [residue_routine hplain]
        exact .away hops
      | append hops =>
        simp [Op.routine, Instr.lockAcquire, Instr.semaphoreP, residue, touches]
        exact .enterAdd hops
      | remove hops =>
        simp [Op.routine, Instr.lockAcquire, Instr.semaphoreP, residue, touches]
        exact .enterLoop hops
    | add => exact absurd rfl (hop _)
    | loop => exact absurd rfl (hop _)
    | callSignal hops =>
      simp [Op.routine, Instr.conditionSignal, residue, touches]
      exact .signal hops
    | callRelease hops =>
      simp [Op.routine, residue, touches]
      exact .release hops
    | callWait hops =>
      simp [Op.routine, Instr.conditionWait, Instr.threadSleep, Instr.lockAcquire, Instr.semaphoreP,
        residue, touches]
      exact .releaseWait hops
  apply h.silent hframe
  · rw [hself, hafter]
    exact hstage
  · intro hholds
    have hbefore := h.has _ hholds
    rw [State.Has, show s.kernel s.currentThread = [] from hcode] at hbefore
    left
    rw [hheld]
    exact hbefore.resolve_right Bool.false_ne_true
  · rw [hwaiting]
    rfl
  · rw [hdata]
    rfl

omit [DecidableEq σ] [DecidableEq κ] in
/-- `Fork` starts a thread that was outside in its own code. -/
theorem call_fork {t : τ} {func : Code ι α ξ} (h : Pictured i s p) (hcode : s.code = [])
    (hprogram : s.program s.currentThread = .fork t func :: ops)
    (ht : s.status t = .justCreated) (htc : t ≠ s.currentThread) :
    Refined i ((s.proceed ops).call due timer (.fork t func)) p := by
  have hstage := h.stage_of_code_eq_nil hcode
  rw [hprogram] at hstage
  obtain ⟨hresidue, hscript⟩ := h.fresh t ht
  -- all three threads the call is about are outside, before and after it
  have hkernel : ∀ u, residue i (((s.proceed ops).call due timer (.fork t func)).kernel u) =
      residue i (s.kernel u) := by
    intro u
    by_cases huc : u = s.currentThread
    · subst huc
      have hself : ((s.proceed ops).call due timer (.fork t func)).kernel s.currentThread =
          Instr.threadFork t := call_kernel_self hcode
      rw [hself, show s.kernel s.currentThread = [] from hcode]
      rfl
    by_cases hut : u = t
    · subst hut
      have hnew : ((s.proceed ops).call due timer (.fork u func)).kernel u = [.enable] :=
        (Function.update_of_ne huc _ _).trans (Function.update_self _ _ _)
      rw [hnew, hresidue]
      rfl
    · exact congrArg (residue i) (call_kernel_of_ne huc (by simpa using Ne.symm hut))
  have hother : ∀ u, u ≠ t → u ≠ s.currentThread →
      ((s.proceed ops).call due timer (.fork t func)).program u = s.program u := by
    intro u hut huc
    exact (Function.update_of_ne hut _ _).trans (Function.update_of_ne huc _ _)
  have hself : ((s.proceed ops).call due timer (.fork t func)).program s.currentThread = ops :=
    (Function.update_of_ne (Ne.symm htc) _ _).trans (Function.update_self _ _ _)
  have hnew : ((s.proceed ops).call due timer (.fork t func)).program t = [.own func, .finish] :=
    Function.update_self _ _ _
  obtain ⟨hst, hops, y, rfl⟩ : p.status s.currentThread = .outside ∧ Script i ops ∧
      ∃ y, func = .client y := by
    generalize p.status s.currentThread = st at hstage ⊢
    cases hstage with
    | away hscript =>
      cases hscript with
      | plain hplain hops => exact ⟨rfl, hops, hplain⟩
  have hclient : Script i ([.own (.client y), .finish] : List (Op τ σ (ι ⊕ μ) (ι ⊕ κ) (Code ι α ξ))) :=
    .plain trivial (.plain trivial .nil)
  refine ⟨p, ⟨?_, ?_, h.waiting, h.size, ?_⟩, Or.inl rfl⟩
  · intro u
    rw [hkernel]
    by_cases hut : u = t
    · subst hut
      have hout := h.stage u
      rw [hresidue] at hout
      rw [hout.outside_of_script hscript, hresidue, hnew]
      exact .away hclient
    by_cases huc : u = s.currentThread
    · subst huc
      rw [hst, hself, show s.kernel s.currentThread = [] from hcode]
      exact .away hops
    · rw [hother u hut huc]
      exact h.stage u
  · intro u hu
    have hheld := (call_frame (s.proceed ops) due timer (.fork t (.client y))).1
    exact has_of_inside (h.has u hu) (congrFun hheld _) (by rw [hkernel])
  · intro u hu
    rw [hkernel]
    refine ⟨(h.fresh u hu).1, ?_⟩
    by_cases hut : u = t
    · rw [hut, hnew]
      exact hclient
    by_cases huc : u = s.currentThread
    · rw [huc, hself]
      exact hops
    · rw [hother u hut huc]
      exact (h.fresh u hu).2

end Pictured

/-! ### What the lists hold -/

/-- Items leave a list in the order in which they were appended, and no item is NULL. -/
def Data.Sound (d : Data ι α δ) : Prop :=
  ∀ i, d.removed i ++ d.list i = d.appended i ∧ none ∉ d.list i

section

omit [DecidableEq τ] [DecidableEq σ] [DecidableEq μ] [DecidableEq κ]

variable {d : Data ι α δ}

theorem Data.Sound.add (h : d.Sound) (x : α) :
    ((d.add i (some x)).logAppend i (some x)).Sound := by
  intro j
  obtain ⟨horder, hnonNull⟩ := h j
  by_cases hj : j = i
  · subst hj
    simp only [Data.add, Data.logAppend, Function.update_self]
    refine ⟨?_, by simpa using hnonNull⟩
    rw [← List.append_assoc, horder]
  · simp only [Data.add, Data.logAppend, Function.update_of_ne hj]
    exact ⟨horder, hnonNull⟩

theorem Data.Sound.remove {x : α} {rest : List (Option α)} (h : d.Sound)
    (hlist : d.list i = some x :: rest) : ((d.remove i rest).logRemove i (some x)).Sound := by
  intro j
  obtain ⟨horder, hnonNull⟩ := h j
  by_cases hj : j = i
  · subst hj
    rw [hlist] at horder hnonNull
    simp only [Data.remove, Data.logRemove, Function.update_self]
    refine ⟨?_, fun hmem => hnonNull (List.mem_cons_of_mem _ hmem)⟩
    rw [← horder, List.append_assoc, List.singleton_append]
  · simp only [Data.remove, Data.logRemove, Function.update_of_ne hj]
    exact ⟨horder, hnonNull⟩

end

/-- The invariant of the programs that use synchronized lists. -/
structure Synchronized (s : State τ σ (ι ⊕ μ) (ι ⊕ κ) (Code ι α ξ) (Data ι α δ)) : Prop where
  locked : Locked s
  picture : ∀ i, ∃ p, Pictured i s p ∧ BlockingQueue.Inv p
  sound : s.data.Sound

namespace Synchronized

variable {d : Data ι α δ}

omit [DecidableEq τ] [DecidableEq σ] [DecidableEq κ] in
/-- The pieces of `Append` and `Remove` keep the order of the items. -/
theorem sound_own {x : Code ι α ξ} {more ops : List (Op τ σ (ι ⊕ μ) (ι ⊕ κ) (Code ι α ξ))}
    (h : Synchronized s) (hcode : s.code = [])
    (hprogram : s.program s.currentThread = .own x :: ops)
    (hexec : (program C).exec s.currentThread x s.data d more) : d.Sound := by
  cases x with
  | client y =>
    obtain ⟨d₀, calls, -, rfl, -⟩ := hexec
    exact h.sound
  | add j item =>
    -- the calls of a script append no NULL
    obtain ⟨p, hp, -⟩ := h.picture j
    have hstage := hp.stage_of_code_eq_nil hcode
    rw [hprogram] at hstage
    generalize p.status s.currentThread = st at hstage
    cases hexec
    cases hstage with
    | away hscript =>
      cases hscript with
      | plain hop => exact absurd rfl hop
    | add => exact h.sound.add _
  | loop j receive =>
    rcases exec_loop hexec with ⟨-, rfl, -⟩ | ⟨y, rest, hlist, rfl, -⟩
    · exact h.sound
    · exact h.sound.remove hlist

theorem step (hC : C.NonNull) (h : Synchronized s) (hfork : s.ForkOnce)
    (hstep : Step (program C) s s') : Synchronized s' := by
  have hlocked := h.locked.step hfork hstep
  have hfresh : ∀ t, s'.status t = .justCreated → s.status t = .justCreated ∧ t ≠ s.currentThread :=
    fun t ht => h.locked.status_before hfork hstep ht
  have hrefine : (∀ i p, Pictured i s p → Refined i s' p) →
      ∀ i, ∃ p, Pictured i s' p ∧ BlockingQueue.Inv p := by
    intro hstep i
    obtain ⟨p, hp, hinv⟩ := h.picture i
    obtain ⟨p', hp', rfl | hnext⟩ := hstep i p hp
    · exact ⟨_, hp', hinv⟩
    · exact ⟨p', hp', hinv.step hnext⟩
  cases hstep with
  | exec hcode hexec =>
    refine ⟨hlocked, hrefine ?_, ?_⟩
    · intro i p hp
      obtain ⟨k₀, -, hkernel⟩ := exec_front hexec
      refine hp.exec h.locked ⟨?_, ?_, hfresh⟩ hcode hexec
      · intro t ht
        rw [hkernel, Function.update_of_ne ht, (exec_footprint hexec).program]
        exact ⟨rfl, rfl⟩
      · exact fun t ht => h.locked.has_exec_of_ne hcode hexec ht
    · rw [(exec_footprint hexec).data]
      exact h.sound
  | @handle x k d vs hcode hhandle =>
    cases x with
    | client y =>
      obtain ⟨d₀, -, rfl⟩ := hhandle
      refine ⟨hlocked, hrefine ?_, h.sound⟩
      intro i p hp
      exact hp.handle hcode fun t ht => (hfresh t ht).2
    | add j item => exact hhandle.elim
    | loop j receive => exact hhandle.elim
  | @own x ops d more hcode hprogram hexec =>
    refine ⟨hlocked, hrefine ?_, h.sound_own hcode hprogram hexec⟩
    intro i p hp
    refine hp.own hC h.locked.scheduled.wellFormed ⟨?_, fun t _ => id, hfresh⟩ hcode hprogram hexec
    intro t ht
    exact ⟨rfl, Function.update_of_ne ht _ _⟩
  | @call op ops due timer hcode hprogram hop =>
    have hdata : ((s.proceed ops).call due timer op).data = s.data :=
      (call_frame (s.proceed ops) due timer op).2.2
    refine ⟨hlocked, hrefine ?_, hdata ▸ h.sound⟩
    intro i p hp
    by_cases hforks : ∃ t func, op = .fork t func
    · obtain ⟨t, func, rfl⟩ := hforks
      have ht : s.status t = .justCreated := by
        rwa [State.ForkOnce, hcode, hprogram] at hfork
      refine hp.call_fork hcode hprogram ht ?_
      rintro rfl
      exact h.locked.scheduled.partitioned.current_known ht
    · have hne : ∀ t func, op ≠ .fork t func := fun t func heq => hforks ⟨t, func, heq⟩
      have hkernel : ∀ t, t ≠ s.currentThread →
          ((s.proceed ops).call due timer op).kernel t = s.kernel t :=
        fun t ht => call_kernel_of_ne ht (hne t)
      refine hp.call_of_ne_fork ⟨?_, ?_, hfresh⟩ hcode hprogram hop hne
      · intro t ht
        rw [hkernel t ht, call_program hne]
        exact ⟨rfl, Function.update_of_ne ht _ _⟩
      · intro t ht hhas
        have hheld := (call_frame (s.proceed ops) due timer op).1
        exact has_of_inside hhas (congrFun hheld _) (by rw [hkernel t ht])

omit [DecidableEq σ] [DecidableEq κ] in
theorem start {main : τ} {func : ξ} {initialValue : σ → ℤ} {d : δ} :
    Synchronized (Kernel.start main (.client func) initialValue (Data.new d) :
      State τ σ (ι ⊕ μ) (ι ⊕ κ) (Code ι α ξ) (Data ι α δ)) := by
  refine ⟨.start, ?_, fun i => ⟨rfl, nofun⟩⟩
  intro i
  have hresidue : ∀ t, residue i ((Kernel.start main (.client func) initialValue (Data.new d) :
      State τ σ (ι ⊕ μ) (ι ⊕ κ) (Code ι α ξ) (Data ι α δ)).kernel t) = [] := by
    intro t
    simp only [Kernel.start, Function.update_apply]
    split_ifs <;> rfl
  have hscript : ∀ t, Script i ((Kernel.start main (.client func) initialValue (Data.new d) :
      State τ σ (ι ⊕ μ) (ι ⊕ κ) (Code ι α ξ) (Data ι α δ)).program t) := by
    intro t
    simp only [Kernel.start, Function.update_apply]
    split_ifs
    · exact .plain trivial .nil
    · exact .nil
  refine ⟨⟨fun _ => .outside, [], 0⟩, ⟨?_, ?_, rfl, rfl, ?_⟩, .start _ (fun _ => rfl) rfl⟩
  · intro t
    rw [hresidue]
    exact .away (hscript t)
  · exact fun t ht => ht.elim
  · exact fun t _ => ⟨hresidue t, hscript t⟩

theorem of_reachable (hC : C.NonNull) {main : τ} {func : ξ} {initialValue : σ → ℤ} {d : δ}
    (h : ((system (program C) main (.client func) initialValue (Data.new d)).restrict
      fun s _ => s.ForkOnce).Reachable s) : Synchronized s := by
  refine h.invariant ?_ ?_
  · rintro _ rfl
    exact start
  · rintro s _ s' hs ⟨hfork, hstep⟩
    exact hs.step hC hfork hstep

end Synchronized

end Nachos.SynchList
