import Nachos.Threads.Equiv.Scheduler

/-!
# Locks in the kernel

A thread has a lock from the decrement in the `P` of `Acquire` to the `V` of `Release`.  `heldthread`
names it in between, except after that decrement and before that `V`, where the thread is `inside`
`Acquire` or `Release`.  `Possession` is this picture of one lock and `Possession.Sound` says that the
lock is free or one thread has it; every step of the kernel changes the picture of a lock by a step
of `Possession.Step`, or not at all, so it is `Sound` in every reachable state.
-/

namespace Nachos

/-- Who has a lock: the value of its semaphore, `heldthread`, and the threads that have it although
`heldthread` does not say so. -/
structure Possession (τ : Type) where
  value : ℤ
  heldthread : Option τ
  inside : τ → Bool

namespace Possession

variable {τ : Type} [DecidableEq τ] {v v' : Possession τ}

/-- The four steps of a lock's life. -/
inductive Step (v : Possession τ) : Possession τ → Prop where
  /-- The decrement in the `P` of `Acquire`. -/
  | gain {t : τ} (hvalue : v.value ≠ 0) :
      Step v ⟨v.value - 1, v.heldthread, Function.update v.inside t true⟩
  | assign {t : τ} (hinside : v.inside t = true) :
      Step v ⟨v.value, some t, Function.update v.inside t false⟩
  /-- `heldthread = NULL` in `Release`. -/
  | clear {t : τ} (hheld : v.heldthread = some t) :
      Step v ⟨v.value, none, Function.update v.inside t true⟩
  /-- The increment in the `V` of `Release`. -/
  | give {t : τ} (hinside : v.inside t = true) :
      Step v ⟨v.value + 1, v.heldthread, Function.update v.inside t false⟩

/-- Nobody has the lock. -/
def Free (v : Possession τ) : Prop :=
  v.value = 1 ∧ v.heldthread = none ∧ ∀ u, v.inside u = false

/-- The thread `t` has the lock, and nobody else. -/
def OwnedBy (v : Possession τ) (t : τ) : Prop :=
  v.value = 0 ∧ v.heldthread = (if v.inside t then none else some t) ∧
    ∀ u, u ≠ t → v.inside u = false

/-- The lock is free or has one owner. -/
def Sound (v : Possession τ) : Prop := v.Free ∨ ∃ t, v.OwnedBy t

namespace Sound

theorem ownedBy_of_inside (h : v.Sound) {t : τ} (ht : v.inside t = true) : v.OwnedBy t := by
  rcases h with ⟨-, -, hnone⟩ | ⟨u, hu⟩
  · rw [hnone t] at ht
    cases ht
  · by_cases htu : t = u
    · exact htu ▸ hu
    · rw [hu.2.2 t htu] at ht
      cases ht

omit [DecidableEq τ] in
theorem ownedBy_of_held (h : v.Sound) {t : τ} (ht : v.heldthread = some t) : v.OwnedBy t := by
  rcases h with ⟨-, hnone, -⟩ | ⟨u, hu⟩
  · rw [hnone] at ht
    cases ht
  · have hheld := hu.2.1
    rw [ht] at hheld
    split_ifs at hheld
    cases hheld
    exact hu

theorem step (h : v.Sound) (hstep : v.Step v') : v'.Sound := by
  cases hstep with
  | @gain t hvalue =>
    rcases h with ⟨hone, hheld, hnone⟩ | ⟨u, hzero, -, -⟩
    · refine Or.inr ⟨t, ?_, ?_, ?_⟩
      · show v.value - 1 = 0
        omega
      · simpa using hheld
      · intro u hu
        exact (Function.update_of_ne hu _ _).trans (hnone u)
    · exact absurd hzero hvalue
  | @assign t hinside =>
    obtain ⟨hzero, -, hothers⟩ := h.ownedBy_of_inside hinside
    refine Or.inr ⟨t, hzero, by simp, ?_⟩
    intro u hu
    exact (Function.update_of_ne hu _ _).trans (hothers u hu)
  | @clear t hheld =>
    obtain ⟨hzero, -, hothers⟩ := h.ownedBy_of_held hheld
    refine Or.inr ⟨t, hzero, by simp, ?_⟩
    intro u hu
    exact (Function.update_of_ne hu _ _).trans (hothers u hu)
  | @give t hinside =>
    obtain ⟨hzero, hheld, hothers⟩ := h.ownedBy_of_inside hinside
    refine Or.inl ⟨?_, ?_, ?_⟩
    · show v.value + 1 = 1
      omega
    · simpa [hinside] using hheld
    · intro u
      simp only [Function.update_apply]
      split_ifs with hu
      · rfl
      · exact hothers u hu

end Sound

end Possession

namespace Kernel

variable {τ σ μ κ ξ δ : Type} [DecidableEq μ]

/-- A thread with `k` left to do has the lock although `heldthread` does not say so: the next thing
it does with the lock is to assign `heldthread`, or the `V` of `Release`. -/
def inside (l : μ) : List (Instr τ σ μ κ ξ) → Bool
  | [] => false
  | .assign l' :: k => if l' = l then true else inside l k
  | .v (.inr l') :: k => if l' = l then true else inside l k
  | .p (.inr l') :: k => if l' = l then false else inside l k
  | .release l' :: k => if l' = l then false else inside l k
  | _ :: k => inside l k

/-- The operations on a lock come in the order of `Acquire` and `Release`. -/
def LockOk : List (Instr τ σ μ κ ξ) → Prop
  | [] => True
  | .assign l :: k => inside l k = false ∧ LockOk k
  | .v (.inr l) :: k => inside l k = false ∧ LockOk k
  | .p (.inr l) :: k => inside l k = true ∧ LockOk k
  | .release l :: k => inside l k = false ∧ LockOk k
  | _ :: k => LockOk k

/-- Statements that do nothing to a lock. -/
def Instr.neutral : Instr τ σ μ κ ξ → Bool
  | .assign _ => false
  | .release _ => false
  | .p (.inr _) => false
  | .v (.inr _) => false
  | _ => true

theorem inside_cons {i : Instr τ σ μ κ ξ} (hi : i.neutral = true) (l : μ)
    (k : List (Instr τ σ μ κ ξ)) : inside l (i :: k) = inside l k := by
  cases i with
  | p x => cases x <;> [rfl; cases hi]
  | v x => cases x <;> [rfl; cases hi]
  | assign l' => cases hi
  | release l' => cases hi
  | _ => rfl

theorem lockOk_cons {i : Instr τ σ μ κ ξ} (hi : i.neutral = true) {k : List (Instr τ σ μ κ ξ)} :
    LockOk (i :: k) ↔ LockOk k := by
  cases i with
  | p x => cases x <;> [exact Iff.rfl; cases hi]
  | v x => cases x <;> [exact Iff.rfl; cases hi]
  | assign l' => cases hi
  | release l' => cases hi
  | _ => exact Iff.rfl

theorem inside_append {k₀ : List (Instr τ σ μ κ ξ)} (hk₀ : ∀ i ∈ k₀, i.neutral = true) (l : μ)
    (k : List (Instr τ σ μ κ ξ)) : inside l (k₀ ++ k) = inside l k := by
  induction k₀ with
  | nil => rfl
  | cons i k₀ ih =>
    rw [List.forall_mem_cons] at hk₀
    rw [List.cons_append, inside_cons hk₀.1, ih hk₀.2]

theorem lockOk_append {k₀ k : List (Instr τ σ μ κ ξ)} (hk₀ : ∀ i ∈ k₀, i.neutral = true) :
    LockOk (k₀ ++ k) ↔ LockOk k := by
  induction k₀ with
  | nil => exact Iff.rfl
  | cons i k₀ ih =>
    rw [List.forall_mem_cons] at hk₀
    rw [List.cons_append, lockOk_cons hk₀.1, ih hk₀.2]

/-- The picture of the lock `l`. -/
def State.possession (s : State τ σ μ κ ξ δ) (l : μ) : Possession τ :=
  ⟨(s.semaphore (.inr l)).value, s.heldthread l, fun t => inside l (s.kernel t)⟩

variable [DecidableEq τ] {s s' : State τ σ μ κ ξ δ} {i : Instr τ σ μ κ ξ}
  {k k' : List (Instr τ σ μ κ ξ)} {due : List ξ} {timer : Bool}

theorem inside_update {l : μ} {f : τ → List (Instr τ σ μ κ ξ)} {t : τ} {b : Bool}
    (hb : inside l k = b) :
    (fun u => inside l (Function.update f t k u)) = Function.update (fun u => inside l (f u)) t b := by
  funext u
  rw [Function.update_apply, Function.update_apply]
  split_ifs
  · exact hb
  · rfl

/-- A step that leaves the lock `l` alone. -/
theorem possession_eq {l : μ} (hkernel : s'.kernel = Function.update s.kernel s.currentThread k')
    (hinside : inside l k' = inside l s.code)
    (hvalue : (s'.semaphore (.inr l)).value = (s.semaphore (.inr l)).value)
    (hheld : s'.heldthread l = s.heldthread l) : s'.possession l = s.possession l := by
  unfold State.possession
  rw [hkernel, hvalue, hheld, inside_update hinside]
  congr 1
  exact Function.update_eq_self _ _

/-- A step of the current thread with the lock `l`. -/
theorem possession_step {l : μ} {value : ℤ} {held : Option τ} {b : Bool}
    (hstep : (s.possession l).Step
      ⟨value, held, Function.update (s.possession l).inside s.currentThread b⟩)
    (hkernel : s'.kernel = Function.update s.kernel s.currentThread k') (hinside : inside l k' = b)
    (hvalue : (s'.semaphore (.inr l)).value = value) (hheld : s'.heldthread l = held) :
    (s.possession l).Step (s'.possession l) := by
  have heq : s'.possession l =
      ⟨value, held, Function.update (s.possession l).inside s.currentThread b⟩ := by
    rw [State.possession, hkernel, hvalue, hheld, inside_update hinside]
    rfl
  rwa [heq]

variable [DecidableEq σ] [DecidableEq κ]

theorem exec_neutral (hi : i.neutral = true) (hexec : s.exec due timer k i = some s') :
    s'.heldthread = s.heldthread ∧
      ∀ l, (s'.semaphore (.inr l)).value = (s.semaphore (.inr l)).value := by
  have hfoot := exec_footprint hexec
  refine ⟨hfoot.heldthread ?_, ?_⟩
  · intro l
    constructor <;> rintro rfl <;> cases hi
  cases i with
  | p x =>
    cases x with
    | inr l => cases hi
    | inl x =>
      cases hexec
      intro l
      simp [State.semP]
  | v x =>
    cases x with
    | inr l => cases hi
    | inl x =>
      cases hexec
      intro l
      show ((s.semV (.inl x)).semaphore (.inr l)).value = _
      rw [(semV_frame s (.inl x)).1, Function.update_of_ne Sum.inr_ne_inl]
  | _ =>
    intro l
    rw [hfoot.semaphore fun _ => ⟨by simp, by simp⟩]

omit [DecidableEq τ] [DecidableEq σ] [DecidableEq μ] [DecidableEq κ] in
theorem neutral_front {k₀ : List (Instr τ σ μ κ ξ)} (hi : i.neutral = true)
    (hk₀ : k₀ ∈ i.front due timer) : ∀ j ∈ k₀, j.neutral = true := by
  refine forall_mem_front hk₀ rfl rfl (fun _ => rfl) rfl rfl rfl rfl rfl ?_ ?_ (fun _ _ => rfl)
    fun _ _ => rfl
  · rintro x rfl
    exact hi
  · rintro l rfl
    cases hi

/-- **Refinement**: a statement changes the picture of a lock by one of the four steps, or not at
all. -/
theorem possession_exec (hok : LockOk s.code) (hcode : s.code = i :: k)
    (hexec : s.exec due timer k i = some s') (l : μ) :
    s'.possession l = s.possession l ∨ (s.possession l).Step (s'.possession l) := by
  by_cases hi : i.neutral = true
  · left
    obtain ⟨k₀, hk₀, hkernel⟩ := exec_front hexec
    obtain ⟨hheld, hvalue⟩ := exec_neutral hi hexec
    refine possession_eq hkernel ?_ (hvalue l) (congrFun hheld l)
    rw [inside_append (neutral_front hi hk₀), hcode, inside_cons hi]
  have hinside : inside l s.code = inside l (i :: k) := by rw [hcode]
  rw [hcode] at hok
  cases i with
  | assign l₀ =>
    cases hexec
    by_cases hl : l₀ = l
    · subst hl
      right
      rw [inside, if_pos rfl] at hinside
      exact possession_step (.assign hinside) rfl hok.1 rfl (Function.update_self _ _ _)
    · left
      rw [inside, if_neg hl] at hinside
      exact possession_eq rfl hinside.symm rfl (Function.update_of_ne (Ne.symm hl) _ _)
  | release l₀ =>
    cases hexec
    by_cases hl : l₀ = l
    · subst hl
      rw [inside, if_pos rfl] at hinside
      split_ifs with hheld
      · right
        exact possession_step (.clear hheld) rfl (by simp [Instr.semaphoreV, inside]) rfl
          (Function.update_self _ _ _)
      · left
        exact possession_eq rfl (hok.1.trans hinside.symm) rfl rfl
    · left
      rw [inside, if_neg hl] at hinside
      split_ifs with hheld
      · refine possession_eq rfl ?_ rfl (Function.update_of_ne (Ne.symm hl) _ _)
        rw [hinside]
        simp [Instr.semaphoreV, inside, hl]
      · exact possession_eq rfl hinside.symm rfl rfl
  | p x =>
    cases x with
    | inl x => exact absurd rfl hi
    | inr l₀ =>
      cases hexec
      unfold State.semP
      by_cases hvalue : (s.semaphore (.inr l₀)).value = 0
      · -- asleep, and as far from the lock as before
        left
        rw [Semaphore.p_of_eq_zero _ hvalue]
        refine possession_eq rfl hinside.symm ?_ rfl
        show (Function.update s.semaphore _ _ _).value = _
        rw [Function.update_apply]
        split_ifs with hl
        · rw [hl]
        · rfl
      · rw [Semaphore.p_of_ne_zero _ hvalue]
        by_cases hl : l₀ = l
        · subst hl
          right
          refine possession_step (.gain hvalue) rfl hok.1 ?_ rfl
          exact congrArg Semaphore.value (Function.update_self _ _ s.semaphore)
        · left
          rw [inside, if_neg hl] at hinside
          refine possession_eq rfl hinside.symm ?_ rfl
          have hne : (Sum.inr l : σ ⊕ μ) ≠ Sum.inr l₀ := by simpa using Ne.symm hl
          exact congrArg Semaphore.value (Function.update_of_ne hne _ _)
  | v x =>
    cases x with
    | inl x => exact absurd rfl hi
    | inr l₀ =>
      cases hexec
      obtain ⟨hsemaphore, hkernel, hcurrent, hheld⟩ := semV_frame s (.inr l₀)
      have hgoto : ((s.semV (.inr l₀)).goto k).kernel =
          Function.update s.kernel s.currentThread k := by
        unfold State.goto
        rw [hkernel, hcurrent]
      by_cases hl : l₀ = l
      · subst hl
        right
        rw [inside, if_pos rfl] at hinside
        refine possession_step (.give hinside) hgoto hok.1 ?_ (congrFun hheld l₀)
        show ((s.semV (.inr l₀)).semaphore (.inr l₀)).value = _
        rw [hsemaphore, Function.update_self]
        rfl
      · left
        rw [inside, if_neg hl] at hinside
        refine possession_eq hgoto hinside.symm ?_ (congrFun hheld l)
        show ((s.semV (.inr l₀)).semaphore (.inr l)).value = _
        rw [hsemaphore, Function.update_of_ne (by simpa using Ne.symm hl)]
  | _ => exact absurd rfl hi

omit [DecidableEq τ] [DecidableEq σ] [DecidableEq κ] in
/-- The order of the lock operations is kept. -/
theorem lockOk_exec {k₀ : List (Instr τ σ μ κ ξ)} (hok : LockOk (i :: k))
    (hk₀ : k₀ ∈ i.front due timer) : LockOk (k₀ ++ k) := by
  by_cases hi : i.neutral = true
  · rw [lockOk_append (neutral_front hi hk₀)]
    exact (lockOk_cons hi).1 hok
  cases i with
  | assign l =>
    obtain rfl := List.mem_singleton.1 hk₀
    exact hok.2
  | release l =>
    rcases List.mem_pair.1 hk₀ with rfl | rfl
    · exact hok.2
    · exact hok
  | p x =>
    cases x with
    | inl x => exact absurd rfl hi
    | inr l =>
      rcases List.mem_pair.1 hk₀ with rfl | rfl
      · exact hok.2
      · exact hok
  | v x =>
    cases x with
    | inl x => exact absurd rfl hi
    | inr l =>
      obtain rfl := List.mem_singleton.1 hk₀
      exact hok.2
  | _ => exact absurd rfl hi

/-- The invariant: every lock is free or has one owner. -/
structure Locked (s : State τ σ μ κ ξ δ) : Prop where
  scheduled : Scheduled s
  /-- A thread that has not been forked is not in `Acquire` or `Release`. -/
  fresh : ∀ t l, s.status t = .justCreated → inside l (s.kernel t) = false
  ok : ∀ t, LockOk (s.kernel t)
  sound : ∀ l, (s.possession l).Sound

omit [DecidableEq σ] [DecidableEq μ] [DecidableEq κ] in
/-- `Fork` alone takes a thread out of JUST_CREATED, and nothing puts one there. -/
theorem status_of_step {q : Type} [DecidableEq q] {p p' : Placement τ q} (hstep : p.Step p') {t : τ}
    (ht : p'.status t = .justCreated) : p.status t = .justCreated := by
  cases hstep <;> grind [Function.update_apply]

namespace Locked

theorem status_before {P : Program τ σ μ κ ξ δ} (h : Locked s) (hfork : s.ForkOnce)
    (hstep : Step P s s') {t : τ} (ht : s'.status t = .justCreated) :
    s.status t = .justCreated ∧ t ≠ s.currentThread := by
  have hbefore : s.status t = .justCreated := by
    rcases placement_next h.scheduled.wellFormed hfork hstep with heq | hmove
    · rwa [← show s'.status = s.status from congrArg Placement.status heq]
    · exact status_of_step hmove ht
  refine ⟨hbefore, ?_⟩
  rintro rfl
  exact h.scheduled.partitioned.current_known hbefore

/-- A step in which the current thread moves on to `k'`. -/
theorem move {P : Program τ σ μ κ ξ δ} (h : Locked s) (hfork : s.ForkOnce) (hstep : Step P s s')
    (hkernel : s'.kernel = Function.update s.kernel s.currentThread k') (hok : LockOk k')
    (hlock : ∀ l, s'.possession l = s.possession l ∨ (s.possession l).Step (s'.possession l)) :
    Locked s' := by
  refine ⟨h.scheduled.step hfork hstep, ?_, ?_, ?_⟩
  · intro t l ht
    obtain ⟨hbefore, hne⟩ := h.status_before hfork hstep ht
    rw [hkernel, Function.update_of_ne hne]
    exact h.fresh t l hbefore
  · intro t
    rw [hkernel, Function.update_apply]
    split_ifs
    · exact hok
    · exact h.ok t
  · intro l
    rcases hlock l with heq | hmove
    · rw [heq]
      exact h.sound l
    · exact (h.sound l).step hmove

/-- A step that leaves the locks alone. -/
theorem frame {P : Program τ σ μ κ ξ δ} (h : Locked s) (hfork : s.ForkOnce) (hstep : Step P s s')
    (hinside : ∀ t l, inside l (s'.kernel t) = inside l (s.kernel t))
    (hok : ∀ t, LockOk (s'.kernel t)) (hsemaphore : s'.semaphore = s.semaphore)
    (hheld : s'.heldthread = s.heldthread) : Locked s' := by
  refine ⟨h.scheduled.step hfork hstep, ?_, hok, ?_⟩
  · intro t l ht
    rw [hinside]
    exact h.fresh t l (h.status_before hfork hstep ht).1
  · intro l
    have heq : s'.possession l = s.possession l := by
      unfold State.possession
      rw [hsemaphore, hheld]
      congr 1
      exact funext fun t => hinside t l
    rw [heq]
    exact h.sound l

/-- The same, when the current thread moves on to `k'`. -/
theorem frame_goto {P : Program τ σ μ κ ξ δ} (h : Locked s) (hfork : s.ForkOnce)
    (hstep : Step P s s') (hkernel : s'.kernel = Function.update s.kernel s.currentThread k')
    (hinside : ∀ l, inside l k' = inside l s.code) (hok : LockOk k')
    (hsemaphore : s'.semaphore = s.semaphore) (hheld : s'.heldthread = s.heldthread) : Locked s' := by
  refine h.frame hfork hstep ?_ ?_ hsemaphore hheld
  · intro t l
    rw [hkernel, Function.update_apply]
    split_ifs with ht
    · subst ht
      exact hinside l
    · rfl
  · intro t
    rw [hkernel, Function.update_apply]
    split_ifs
    · exact hok
    · exact h.ok t

/-- A call: the routine begins outside `Acquire` and `Release`. -/
theorem call {P : Program τ σ μ κ ξ δ} (h : Locked s) (hfork : s.ForkOnce) (hstep : Step P s s')
    (hcode : s.code = []) (hkernel : s'.kernel = Function.update s.kernel s.currentThread k')
    (hinside : ∀ l, inside l k' = false) (hok : LockOk k') (hsemaphore : s'.semaphore = s.semaphore)
    (hheld : s'.heldthread = s.heldthread) : Locked s' := by
  refine h.frame_goto hfork hstep hkernel ?_ hok hsemaphore hheld
  intro l
  rw [hinside, hcode]
  rfl

/-- `Fork` gives a new thread its stack. -/
theorem fork {P : Program τ σ μ κ ξ δ} {t : τ} (h : Locked s) (hfork : s.ForkOnce)
    (hstep : Step P s s') (hcode : s.code = []) (ht : s.status t = .justCreated)
    (hkernel : s'.kernel = Function.update (Function.update s.kernel t [.enable]) s.currentThread
      (Instr.threadFork t))
    (hsemaphore : s'.semaphore = s.semaphore) (hheld : s'.heldthread = s.heldthread) : Locked s' := by
  refine h.frame hfork hstep ?_ ?_ hsemaphore hheld
  · intro u l
    rw [hkernel, Function.update_apply]
    split_ifs with hu
    · subst hu
      rw [show s.kernel s.currentThread = [] from hcode]
      rfl
    · rw [Function.update_apply]
      split_ifs with hut
      · subst hut
        rw [h.fresh u l ht]
        rfl
      · rfl
  · intro u
    rw [hkernel, Function.update_apply]
    split_ifs
    · exact trivial
    · rw [Function.update_apply]
      split_ifs
      · exact trivial
      · exact h.ok u

theorem step {P : Program τ σ μ κ ξ δ} (h : Locked s) (hfork : s.ForkOnce) (hstep : Step P s s') :
    Locked s' := by
  cases hs : hstep with
  | exec hcode hexec =>
    obtain ⟨k₀, hk₀, hkernel⟩ := exec_front hexec
    have hok : LockOk s.code := h.ok s.currentThread
    refine h.move hfork hstep hkernel ?_ (possession_exec hok hcode hexec)
    rw [hcode] at hok
    exact lockOk_exec hok hk₀
  | @handle x k d vs hcode _ =>
    have hneutral : ∀ i ∈ vs.flatMap (fun x => (Instr.semaphoreV (.inl x) : List (Instr τ σ μ κ ξ))),
        i.neutral = true := forall_mem_flatMap rfl (fun _ => rfl) rfl
    refine h.frame_goto hfork hstep rfl ?_ ?_ rfl rfl
    · intro l
      rw [inside_append hneutral, hcode]
      rfl
    · rw [lockOk_append hneutral]
      have hok : LockOk s.code := h.ok s.currentThread
      rwa [hcode] at hok
  | own _ _ _ => exact h.frame hfork hstep (fun _ _ => rfl) h.ok rfl rfl
  | @call op ops due timer hcode hprogram _ =>
    cases op with
    | p x => exact h.call hfork hstep hcode rfl (fun _ => rfl) trivial rfl rfl
    | v x => exact h.call hfork hstep hcode rfl (fun _ => rfl) trivial rfl rfl
    | acquire l =>
      refine h.call hfork hstep hcode rfl ?_ ?_ rfl rfl
      · intro l'
        simp [Instr.lockAcquire, Instr.semaphoreP, inside]
      · simp [Instr.lockAcquire, Instr.semaphoreP, LockOk, inside]
    | release l =>
      refine h.call hfork hstep hcode rfl ?_ ?_ rfl rfl
      · intro l'
        simp [inside]
      · simp [LockOk, inside]
    | wait c l =>
      refine h.call hfork hstep hcode rfl ?_ ?_ rfl rfl
      · intro l'
        simp [Instr.conditionWait, Instr.threadSleep, Instr.lockAcquire, Instr.semaphoreP, inside]
      · simp [Instr.conditionWait, Instr.threadSleep, Instr.lockAcquire, Instr.semaphoreP, LockOk,
          inside]
    | signal c => exact h.call hfork hstep hcode rfl (fun _ => rfl) trivial rfl rfl
    | broadcast c => exact h.call hfork hstep hcode rfl (fun _ => rfl) trivial rfl rfl
    | yield => exact h.call hfork hstep hcode rfl (fun _ => rfl) trivial rfl rfl
    | create t => exact h.frame hfork hstep (fun _ _ => rfl) h.ok rfl rfl
    | fork t func =>
      have ht : s.status t = .justCreated := by
        have hguard := hfork
        rwa [State.ForkOnce, hcode, hprogram] at hguard
      exact h.fork hfork hstep hcode ht rfl rfl rfl
    | finish => exact h.call hfork hstep hcode rfl (fun _ => rfl) trivial rfl rfl
    | oneTick =>
      have hneutral : ∀ j ∈ (Instr.oneTick due timer : List (Instr τ σ μ κ ξ)), j.neutral = true :=
        neutral_front (i := .enable) rfl (List.mem_cons_of_mem _ (List.mem_singleton_self _))
      refine h.call hfork hstep hcode rfl ?_ ?_ rfl rfl
      · intro l
        rw [← List.append_nil (Instr.oneTick due timer), inside_append hneutral]
        rfl
      · rw [← List.append_nil (Instr.oneTick due timer), lockOk_append hneutral]
        trivial
    | own x => exact h.frame hfork hstep (fun _ _ => rfl) h.ok rfl rfl

omit [DecidableEq σ] [DecidableEq κ] in
theorem start {main : τ} {func : ξ} {initialValue : σ → ℤ} {d : δ} :
    Locked (start main func initialValue d : State τ σ μ κ ξ δ) := by
  have hkernel : ∀ t, (Kernel.start main func initialValue d : State τ σ μ κ ξ δ).kernel t = [] ∨
      (Kernel.start main func initialValue d : State τ σ μ κ ξ δ).kernel t = [.enable] := by
    intro t
    simp only [Kernel.start, Function.update_apply]
    split_ifs
    · exact Or.inr rfl
    · exact Or.inl rfl
  have hinside : ∀ t l, inside l
      ((Kernel.start main func initialValue d : State τ σ μ κ ξ δ).kernel t) = false := by
    intro t l
    rcases hkernel t with hk | hk <;> rw [hk] <;> rfl
  refine ⟨Scheduled.start, fun t l _ => hinside t l, ?_, ?_⟩
  · intro t
    rcases hkernel t with hk | hk <;> rw [hk] <;> trivial
  · intro l
    exact Or.inl ⟨rfl, rfl, fun u => hinside u l⟩

end Locked

omit [DecidableEq τ] [DecidableEq σ] [DecidableEq κ] in
theorem notMem_waitinglist (h : Locked s) (hphase : phase s.code = .running) (c : κ) :
    s.currentThread ∉ s.waitinglist c :=
  h.scheduled.partitioned.current_notMem_queue hphase (.inr c)

/-- The thread `t` has the lock `l`: it is the recorded holder, or past the `P` of `Acquire`, or has
not reached the `V` of `Release`. -/
def State.Has (s : State τ σ μ κ ξ δ) (l : μ) (t : τ) : Prop :=
  s.heldthread l = some t ∨ inside l (s.kernel t) = true

omit [DecidableEq σ] [DecidableEq κ] in
theorem Locked.has_unique (h : Locked s) {l : μ} {t u : τ} (ht : s.Has l t) (hu : s.Has l u) :
    t = u := by
  have howned : (s.possession l).OwnedBy t := by
    rcases ht with hheld | hin
    · exact (h.sound l).ownedBy_of_held hheld
    · exact (h.sound l).ownedBy_of_inside hin
  by_contra hne
  rcases hu with hheld | hin
  · have hrecord := howned.2.1
    rw [show (s.possession l).heldthread = some u from hheld] at hrecord
    split_ifs at hrecord
    exact hne (Option.some.inj hrecord).symm
  · rw [show inside l (s.kernel u) = false from howned.2.2 u (Ne.symm hne)] at hin
    cases hin

omit [DecidableEq σ] [DecidableEq κ] in
theorem Locked.value_eq_zero (h : Locked s) {l : μ} {t : τ} (ht : s.Has l t) :
    (s.semaphore (.inr l)).value = 0 := by
  rcases ht with hheld | hin
  · exact ((h.sound l).ownedBy_of_held hheld).1
  · exact ((h.sound l).ownedBy_of_inside hin).1

/-- A statement of the current thread takes no lock away from another. -/
theorem Locked.has_exec_of_ne (h : Locked s) (hcode : s.code = i :: k)
    (hexec : s.exec due timer k i = some s') {l : μ} {t : τ} (ht : t ≠ s.currentThread)
    (hhas : s.Has l t) : s'.Has l t := by
  obtain ⟨k₀, -, hkernel⟩ := exec_front hexec
  rcases hhas with hheld | hin
  · left
    by_cases hassign : i = .assign l
    · subst hassign
      have hself : s.Has l s.currentThread := by
        right
        rw [show s.kernel s.currentThread = _ from hcode, inside, if_pos rfl]
      exact absurd (h.has_unique (Or.inl hheld) hself) ht
    by_cases hrelease : i = .release l
    · subst hrelease
      cases hexec
      rw [if_neg]
      · exact hheld
      · rw [hheld]
        exact fun heq => ht (Option.some.inj heq)
    · rw [heldthread_exec hexec hassign hrelease]
      exact hheld
  · right
    rwa [hkernel, Function.update_of_ne ht]

end Kernel

end Nachos
