import Nachos.Threads.Equiv.KernelLocks

/-!
# Condition variables

A thread in `Wait` goes through the routine's statements in order, whatever it is interrupted by, so
where it stands can be read off the `called` statements it has left: before `append`, it has not gone
onto the waiting list; then, before `assign`, it does not hold the lock; `returnWait` is the last.
Three invariants tie this to the waiting lists, the count of the times it has been chosen and the
holder of the lock, and each is kept by every statement of the kernel:

* `Queued`: a thread past `append` is on the waiting list and has not been chosen, or is on no list
  and has been chosen once; a thread on a waiting list is in that `Wait`, past `append`; waiting lists
  are first in, first out;
* `Holding`: a thread past `assign` holds the lock;
* `Uninterrupted`: a thread before `append` has had interrupts off since the first statement of
  `Wait`.
-/

namespace Nachos.Kernel

variable {τ σ μ κ ξ δ : Type}

/-- What follows the statements of `Wait` in a routine. -/
def WaitOk (lockOf : κ → μ) : List (Instr τ σ μ κ ξ) → Prop
  | [] => True
  | .release _ :: k => (∀ c, .returnWait c ∈ k → .append c ∈ k ∧ .assign (lockOf c) ∈ k) ∧
      WaitOk lockOf k
  | .append c :: k => (.returnWait c ∈ k ∧ ∀ c', .append c' ∉ k) ∧ WaitOk lockOf k
  | .returnWait _ :: k =>
      ((∀ c', .returnWait c' ∉ k ∧ .append c' ∉ k) ∧ ∀ l, .assign l ∉ k) ∧ WaitOk lockOf k
  | _ :: k => WaitOk lockOf k

/-- A routine is one `Wait` at most, with its statements in order. -/
structure CodeOk (lockOf : κ → μ) (k : List (Instr τ σ μ κ ξ)) : Prop where
  ok : WaitOk lockOf k
  unique : ∀ c c', .returnWait c ∈ k → .returnWait c' ∈ k → c = c'

section

variable {lockOf : κ → μ} {i : Instr τ σ μ κ ξ} {k k₀ : List (Instr τ σ μ κ ξ)}

theorem WaitOk.tail (h : WaitOk lockOf (i :: k)) : WaitOk lockOf k := by
  cases i with
  | release l => exact h.2
  | append c => exact h.2
  | returnWait c => exact h.2
  | _ => exact h

theorem WaitOk.append (hk₀ : ∀ j ∈ k₀, j.called = false) (h : WaitOk lockOf k) :
    WaitOk lockOf (k₀ ++ k) := by
  induction k₀ with
  | nil => exact h
  | cons i k₀ ih =>
    rw [List.forall_mem_cons] at hk₀
    obtain ⟨hi, hk₀⟩ := hk₀
    cases i with
    | release l => cases hi
    | append c => cases hi
    | returnWait c => cases hi
    | _ => exact ih hk₀

/-- Putting statements in front after the first is executed. -/
theorem CodeOk.exec (h : CodeOk lockOf (i :: k)) (hk₀ : ∀ j ∈ k₀, j.called = false) :
    CodeOk lockOf (k₀ ++ k) := by
  refine ⟨h.ok.tail.append hk₀, ?_⟩
  intro c c' hc hc'
  rw [mem_append_of_called rfl hk₀] at hc hc'
  exact h.unique c c' (List.mem_cons_of_mem _ hc) (List.mem_cons_of_mem _ hc')

/-- A routine other than `Wait`. -/
theorem CodeOk.of_forall (h : ∀ c, (.returnWait c : Instr τ σ μ κ ξ) ∉ k ∧ .append c ∉ k) :
    CodeOk lockOf k := by
  refine ⟨?_, fun c _ hc => absurd hc (h c).1⟩
  induction k with
  | nil => trivial
  | cons i k ih =>
    have hk : ∀ c, (.returnWait c : Instr τ σ μ κ ξ) ∉ k ∧ .append c ∉ k := by
      intro c
      exact ⟨fun hc => (h c).1 (List.mem_cons_of_mem _ hc),
        fun hc => (h c).2 (List.mem_cons_of_mem _ hc)⟩
    cases i with
    | release l => exact ⟨fun c hc => absurd hc (hk c).1, ih hk⟩
    | append c => exact absurd List.mem_cons_self (h c).2
    | returnWait c => exact absurd List.mem_cons_self (h c).1
    | _ => exact ih hk

theorem CodeOk.wait (c : κ) :
    CodeOk lockOf (Instr.conditionWait c (lockOf c) : List (Instr τ σ μ κ ξ)) := by
  constructor
  · simp [Instr.conditionWait, Instr.threadSleep, Instr.lockAcquire, Instr.semaphoreP, WaitOk]
  · intro c₁ c₂ h₁ h₂
    simp [Instr.conditionWait, Instr.threadSleep, Instr.lockAcquire, Instr.semaphoreP] at h₁ h₂
    rw [h₁, h₂]

end

/-- Every condition is used with one lock. -/
def State.OneLock (lockOf : κ → μ) (s : State τ σ μ κ ξ δ) : Prop :=
  match s.code, s.program s.currentThread with
  | [], .wait c l :: _ => l = lockOf c
  | _, _ => True

instance [DecidableEq μ] (lockOf : κ → μ) (s : State τ σ μ κ ξ δ) : Decidable (s.OneLock lockOf) := by
  unfold State.OneLock
  generalize s.code = code, s.program s.currentThread = program
  rcases code with _ | ⟨i, k⟩
  · rcases program with _ | ⟨op, ops⟩
    · exact .isTrue trivial
    · rcases op with _ | _ <;> infer_instance
  · exact .isTrue trivial

/-- The waiting lists hold the threads that are in `Wait`, past `append`, and not yet chosen. -/
structure Queued (s : State τ σ μ κ ξ δ) : Prop where
  pending : ∀ t c, .returnWait c ∈ s.kernel t → .append c ∈ s.kernel t ∨
    (t ∈ s.waitinglist c ∧ s.chosen t = 0) ∨ ((∀ c', t ∉ s.waitinglist c') ∧ s.chosen t = 1)
  listed : ∀ t c, t ∈ s.waitinglist c → .returnWait c ∈ s.kernel t ∧ ∀ c', .append c' ∉ s.kernel t
  fifo : ∀ c, s.woken c ++ s.waitinglist c = s.arrived c

/-- A thread past `assign` holds the lock. -/
def Holding (lockOf : κ → μ) (s : State τ σ μ κ ξ δ) : Prop :=
  ∀ t c, .returnWait c ∈ s.kernel t →
    .assign (lockOf c) ∈ s.kernel t ∨ s.heldthread (lockOf c) = some t

/-- A thread before `append` has had interrupts off since its first statement. -/
def Uninterrupted (s : State τ σ μ κ ξ δ) : Prop :=
  ∀ c, .append c ∈ s.code → s.level = .intOff ∨ ∃ l, s.code = Instr.conditionWait c l

namespace Queued

variable {s s' : State τ σ μ κ ξ δ}

/-- A step that leaves the conditions and the progress through `Wait` alone. -/
theorem frame (h : Queued s)
    (hmem : ∀ t c, (.returnWait c ∈ s'.kernel t ↔ .returnWait c ∈ s.kernel t) ∧
      (.append c ∈ s'.kernel t ↔ .append c ∈ s.kernel t))
    (hwaiting : s'.waitinglist = s.waitinglist ∧ s'.arrived = s.arrived ∧ s'.woken = s.woken ∧
      s'.chosen = s.chosen) : Queued s' := by
  obtain ⟨hlist, harrived, hwoken, hchosen⟩ := hwaiting
  constructor
  · intro t c hc
    rw [(hmem t c).2, hlist, hchosen]
    exact h.pending t c ((hmem t c).1.1 hc)
  · intro t c ht
    rw [hlist] at ht
    obtain ⟨hreturn, happend⟩ := h.listed t c ht
    exact ⟨(hmem t c).1.2 hreturn, fun c' hc' => happend c' ((hmem t c').2.1 hc')⟩
  · intro c
    rw [hlist, harrived, hwoken]
    exact h.fifo c

variable [DecidableEq τ] [DecidableEq κ]

/-- `Signal` chooses the thread at the head of the list. -/
theorem doSignal (h : Queued s) (c : κ) (hnodup : (s.waitinglist c).Nodup)
    (hunique : ∀ t c c', t ∈ s.waitinglist c → t ∈ s.waitinglist c' → c = c') :
    Queued (s.doSignal c) := by
  unfold State.doSignal
  cases hlist : s.waitinglist c with
  | nil => exact h
  | cons next rest =>
    rw [hlist, List.nodup_cons] at hnodup
    have hnext : next ∈ s.waitinglist c := by simp [hlist]
    -- the thread chosen was on this list only, once
    have hmem : ∀ t c', t ∈ Function.update s.waitinglist c rest c' ↔
        t ∈ s.waitinglist c' ∧ t ≠ next := by
      intro t c'
      rw [Function.update_apply]
      split_ifs with hc
      · subst hc
        rw [hlist, List.mem_cons]
        constructor
        · intro ht
          exact ⟨Or.inr ht, fun heq => hnodup.1 (heq ▸ ht)⟩
        · rintro ⟨rfl | ht, hne⟩
          · exact absurd rfl hne
          · exact ht
      · constructor
        · intro ht
          refine ⟨ht, ?_⟩
          rintro rfl
          exact hc (hunique t c' c ht hnext)
        · exact fun ht => ht.1
    constructor
    · intro t c₁ ht
      show .append c₁ ∈ s.kernel t ∨
        (t ∈ Function.update s.waitinglist c rest c₁ ∧
          Function.update s.chosen next (s.chosen next + 1) t = 0) ∨
        ((∀ c', t ∉ Function.update s.waitinglist c rest c') ∧
          Function.update s.chosen next (s.chosen next + 1) t = 1)
      simp only [hmem]
      by_cases htn : t = next
      · subst htn
        rw [Function.update_self]
        obtain ⟨-, happend⟩ := h.listed t c hnext
        rcases h.pending t c₁ ht with hpending | ⟨-, hzero⟩ | ⟨hnot, -⟩
        · exact absurd hpending (happend c₁)
        · exact Or.inr (Or.inr ⟨fun c' hc' => hc'.2 rfl, by rw [hzero]⟩)
        · exact absurd hnext (hnot c)
      · rw [Function.update_of_ne htn]
        simpa [htn] using h.pending t c₁ ht
    · intro t c₁ ht
      exact h.listed t c₁ ((hmem t c₁).1 ht).1
    · intro c₁
      show Function.update s.woken c _ c₁ ++ Function.update s.waitinglist c rest c₁ = s.arrived c₁
      rw [Function.update_apply, Function.update_apply]
      split_ifs with hc
      · subst hc
        rw [← h.fifo c₁, hlist, List.append_assoc, List.singleton_append]
      · exact h.fifo c₁

/-- The current thread goes onto the list; it is then past `append`. -/
theorem append {c : κ} {k : List (Instr τ σ μ κ ξ)} {lockOf : κ → μ} (h : Queued s)
    (hcode : s.code = .append c :: k) (hok : CodeOk lockOf s.code)
    (hnot : ∀ c', s.currentThread ∉ s.waitinglist c') : Queued ((s.doAppend c).goto k) := by
  rw [hcode] at hok
  obtain ⟨⟨hreturn, happend⟩, -⟩ := hok.ok
  have hkernel : ∀ t, t ≠ s.currentThread → ((s.doAppend c).goto k).kernel t = s.kernel t := by
    intro t ht
    exact Function.update_of_ne ht _ _
  have hcurrent : ((s.doAppend c).goto k).kernel s.currentThread = k := Function.update_self _ _ _
  have hmem : ∀ t c', t ∈ ((s.doAppend c).goto k).waitinglist c' ↔
      t ∈ s.waitinglist c' ∨ c' = c ∧ t = s.currentThread := by
    intro t c'
    simp only [State.doAppend, State.goto, Function.update_apply]
    split_ifs with hc
    · simp [hc]
    · simp [hc]
  constructor
  · intro t c₁ ht
    by_cases htc : t = s.currentThread
    · subst htc
      rw [hcurrent] at ht
      have hc : c₁ = c := hok.unique c₁ c (List.mem_cons_of_mem _ ht) (List.mem_cons_of_mem _ hreturn)
      right
      left
      exact ⟨(hmem _ _).2 (Or.inr ⟨hc, rfl⟩), Function.update_self _ _ _⟩
    · rw [hkernel t htc] at ht ⊢
      have hchosen : ((s.doAppend c).goto k).chosen t = s.chosen t := Function.update_of_ne htc _ _
      simp only [hmem, hchosen]
      simpa [htc] using h.pending t c₁ ht
  · intro t c₁ ht
    rcases (hmem t c₁).1 ht with ht | ⟨rfl, rfl⟩
    · have htc : t ≠ s.currentThread := by
        rintro rfl
        exact hnot c₁ ht
      rw [hkernel t htc]
      exact h.listed t c₁ ht
    · rw [hcurrent]
      exact ⟨hreturn, happend⟩
  · intro c₁
    show s.woken c₁ ++ Function.update s.waitinglist c _ c₁ = Function.update s.arrived c _ c₁
    rw [Function.update_apply, Function.update_apply]
    split_ifs with hc
    · subst hc
      rw [← List.append_assoc, h.fifo c₁]
    · exact h.fifo c₁

end Queued

variable [DecidableEq τ] [DecidableEq σ] [DecidableEq μ] [DecidableEq κ] {lockOf : κ → μ}
  {s s' : State τ σ μ κ ξ δ} {i : Instr τ σ μ κ ξ} {k : List (Instr τ σ μ κ ξ)} {due : List ξ}
  {timer : Bool}

/-- A statement other than `j` of the current thread leaves `j` where it was. -/
theorem mem_kernel_of_ne {j : Instr τ σ μ κ ξ} (hcode : s.code = i :: k)
    (hexec : s.exec due timer k i = some s') (hj : j.called = true) (hne : i ≠ j) (t : τ) :
    j ∈ s'.kernel t ↔ j ∈ s.kernel t := by
  rw [mem_kernel_exec hexec hj]
  split_ifs with ht
  · subst ht
    rw [show s.kernel s.currentThread = i :: k from hcode, List.mem_cons,
      or_iff_right (Ne.symm hne)]
  · exact Iff.rfl

theorem Queued.exec (h : Queued s) (hlocked : Locked s) (hok : CodeOk lockOf s.code)
    (hcode : s.code = i :: k) (hexec : s.exec due timer k i = some s') : Queued s' := by
  have hframe : (∀ c, i ≠ .append c) → (∀ c, i ≠ .returnWait c) → (∀ c, i ≠ .signal c) →
      Queued s' := by
    intro happend hreturn hsignal
    refine h.frame ?_ ((exec_footprint hexec).waiting fun c => ⟨happend c, hsignal c⟩)
    intro t c
    exact ⟨mem_kernel_of_ne hcode hexec rfl (hreturn c) t,
      mem_kernel_of_ne hcode hexec rfl (happend c) t⟩
  have hphase : phase s.code = phase (i :: k) := by rw [hcode]
  cases i with
  | append c =>
    cases hexec
    exact h.append hcode hok (notMem_waitinglist hlocked hphase)
  | signal c =>
    have hmem : ∀ t c', (.returnWait c' ∈ s'.kernel t ↔ .returnWait c' ∈ (s.doSignal c).kernel t) ∧
        (.append c' ∈ s'.kernel t ↔ .append c' ∈ (s.doSignal c).kernel t) := by
      intro t c'
      have hkernel : (s.doSignal c).kernel = s.kernel := by
        unfold State.doSignal
        split <;> rfl
      rw [hkernel]
      exact ⟨mem_kernel_of_ne (j := .returnWait c') hcode hexec rfl nofun t,
        mem_kernel_of_ne (j := .append c') hcode hexec rfl nofun t⟩
    cases hexec
    have hpart := hlocked.scheduled.partitioned
    refine (h.doSignal c (hpart.queue_nodup (.inr c)) ?_).frame hmem ⟨rfl, rfl, rfl, rfl⟩
    intro t c₁ c₂ h₁ h₂
    exact Sum.inr.inj (hpart.queue_unique t (.inr c₁) (.inr c₂) h₁ h₂)
  | returnWait c =>
    obtain ⟨hlist, harrived, hwoken, hchosen⟩ := (exec_footprint hexec).waiting fun _ => ⟨nofun, nofun⟩
    have hnot := notMem_waitinglist hlocked hphase
    rw [hcode] at hok
    -- the thread that returns is on no list, and has nothing of `Wait` left
    constructor
    · intro t c' ht
      rw [mem_kernel_exec hexec rfl] at ht ⊢
      split_ifs at ht ⊢ with htc
      · exact absurd ht (hok.ok.1.1 c').1
      · rw [hlist, hchosen]
        exact h.pending t c' ht
    · intro t c' ht
      rw [hlist] at ht
      have htc : t ≠ s.currentThread := by
        rintro rfl
        exact hnot c' ht
      obtain ⟨hreturn, happend⟩ := h.listed t c' ht
      have hkernel : ∀ j : Instr τ σ μ κ ξ, j.called = true → (j ∈ s'.kernel t ↔ j ∈ s.kernel t) := by
        intro j hj
        rw [mem_kernel_exec hexec hj, if_neg htc]
      exact ⟨(hkernel _ rfl).2 hreturn, fun c₁ hc₁ => happend c₁ ((hkernel _ rfl).1 hc₁)⟩
    · intro c'
      rw [hlist, harrived, hwoken]
      exact h.fifo c'
  | _ => exact hframe nofun nofun nofun

theorem Holding.exec (h : Holding lockOf s) (hlocked : Locked s) (hok : CodeOk lockOf s.code)
    (hcode : s.code = i :: k) (hexec : s.exec due timer k i = some s') : Holding lockOf s' := by
  have hframe : (∀ l, i ≠ .assign l) → (∀ l, i ≠ .release l) → Holding lockOf s' := by
    intro hassign hrelease t c ht
    rw [(exec_footprint hexec).heldthread fun l => ⟨hassign l, hrelease l⟩,
      mem_kernel_of_ne hcode hexec rfl (hassign _)]
    rw [mem_kernel_exec hexec rfl] at ht
    split_ifs at ht with htc
    · subst htc
      refine h _ c ?_
      rw [show s.kernel s.currentThread = i :: k from hcode]
      exact List.mem_cons_of_mem _ ht
    · exact h t c ht
  cases i with
  | assign l =>
    intro t c ht
    rw [mem_kernel_of_ne (j := .returnWait c) hcode hexec rfl nofun] at ht
    have hbefore := h t c ht
    have hheld : s'.heldthread = Function.update s.heldthread l (some s.currentThread) := by
      cases hexec
      rfl
    by_cases hl : l = lockOf c
    · subst hl
      by_cases htc : t = s.currentThread
      · right
        rw [hheld, Function.update_self, htc]
      · rw [mem_kernel_exec hexec rfl, if_neg htc]
        rcases hbefore with hassign | hrecord
        · exact Or.inl hassign
        -- the current thread is past the `P`, so nobody is on record
        · have hin : inside (lockOf c) (s.kernel s.currentThread) = true := by
            rw [show s.kernel s.currentThread = _ from hcode, inside, if_pos rfl]
          exact absurd (hlocked.has_unique (Or.inl hrecord) (Or.inr hin)) htc
    · rw [hheld, Function.update_of_ne (Ne.symm hl),
        mem_kernel_of_ne (j := .assign (lockOf c)) hcode hexec rfl (by simpa using hl)]
      exact hbefore
  | release l =>
    intro t c ht
    rw [mem_kernel_exec hexec rfl] at ht ⊢
    split_ifs at ht ⊢ with htc
    · rw [hcode] at hok
      exact Or.inl (hok.ok.1 c ht).2
    · rcases h t c ht with hassign | hrecord
      · exact Or.inl hassign
      · right
        cases hexec
        split_ifs with hrelease
        · have hne : lockOf c ≠ l := by
            rintro rfl
            rw [hrecord] at hrelease
            exact htc (Option.some.inj hrelease)
          exact (Function.update_of_ne hne _ _).trans hrecord
        · exact hrecord
  | _ => exact hframe (by simp) (by simp)

omit [DecidableEq τ] [DecidableEq σ] [DecidableEq μ] [DecidableEq κ] in
theorem not_settled_of_append {c : κ} (hc : .append c ∈ k) : ¬ Settled k := by
  intro hsettled
  cases hsettled _ hc

theorem Uninterrupted.exec (h : Uninterrupted s) (hwell : WellFormed s) (hcode : s.code = i :: k)
    (hexec : s.exec due timer k i = some s') : Uninterrupted s' := by
  intro c hc
  rw [State.code, mem_kernel_exec hexec rfl] at hc
  split_ifs at hc with hcurrent
  · have hok := hwell.current
    rw [hcode] at hok
    have hnot := not_settled_of_append hc
    -- statements that leave the level alone
    have hkeep : i.setsLevel = false → i ≠ .disable → s'.level = .intOff := by
      intro hlevel hdisable
      rw [(exec_footprint hexec).level hlevel]
      have hmem : .append c ∈ s.code := by
        rw [hcode]
        exact List.mem_cons_of_mem _ hc
      rcases h c hmem with hoff | ⟨l, hwait⟩
      · exact hoff
      · rw [hcode] at hwait
        exact absurd (List.cons.inj hwait).1 hdisable
    left
    cases i with
    | disable =>
      cases hexec
      rfl
    | off =>
      cases hexec
      rfl
    | restore =>
      obtain ⟨old, rest, hsaved, hon, -⟩ := hok
      have hold : old = .intOff := by
        cases old with
        | intOff => rfl
        | intOn => exact absurd (hon rfl).2 hnot
      unfold State.exec State.setOldLevel at hexec
      rw [hsaved] at hexec
      cases hexec
      exact hold
    | returnWait c' =>
      obtain ⟨old, rest, -, hk, -⟩ := hok
      exact absurd hk.2 hnot
    | enable => exact absurd hok.1.2 hnot
    | endTick => exact absurd hok.1.2 hnot
    | _ => exact hkeep rfl (by simp)
  · exact absurd (hwell.other _ hcurrent).2.2 (not_settled_of_append hc)

end Nachos.Kernel
