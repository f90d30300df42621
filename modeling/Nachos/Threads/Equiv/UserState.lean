import Mathlib.Data.List.FinRange
import Nachos.Lib.Lists
import Nachos.Threads.UserState

/-!
# User registers survive context switches

While a thread is in `Run`, nobody writes its copy of the registers, and nobody changes its address
space.  So each return of a user thread from `Run` belongs to a call in the past, and the registers are
what they were when it made that call.
-/

namespace Nachos.UserState

open Mips

/-! ### Saving and restoring -/

theorem saveUserState_eq (userRegisters registers : Registers) :
    saveUserState userRegisters registers = registers := by
  funext i
  rw [saveUserState, List.foldl_update_apply, if_pos (List.mem_finRange i)]

theorem restoreUserState_eq (userRegisters registers : Registers) :
    restoreUserState userRegisters registers = userRegisters := by
  funext i
  rw [restoreUserState, List.foldl_update_apply, if_pos (List.mem_finRange i)]

/-! ### Steps -/

variable {τ : Type} [DecidableEq τ] {s s' : State τ} {t u next : τ} {a : Action τ}

/-- The thread has called `Run`, and has not come out of it. -/
abbrev InRun (s : State τ) (t : τ) : Prop := s.place t = .switched ∨ s.place t = .resumed

theorem inRun_update {place : τ → Place} {p : Place} (hp : p ≠ .switched ∧ p ≠ .resumed)
    (h : Function.update place u p t = .switched ∨ Function.update place u p t = .resumed) :
    t ≠ u ∧ (place t = .switched ∨ place t = .resumed) := by
  by_cases htu : t = u
  · rw [htu, Function.update_self] at h
    exact absurd h (not_or.2 hp)
  · rw [Function.update_of_ne htu] at h
    exact ⟨htu, h⟩

/-- The action is a call of `Run` by `t`, or its return. -/
def Action.IsRunOf (t : τ) : Action τ → Prop
  | .enter u _ => u = t
  | .leave u => u = t
  | _ => False

theorem switchTo_eq (h : s.switchTo next = some s') :
    ∃ p, (s.place next = .switched ∧ p = .resumed ∨ s.place next = .forked ∧ p = .running) ∧
      s' = { s with place := Function.update s.place next p, currentThread := next } := by
  unfold State.switchTo at h
  split at h
  · rename_i hplace
    cases h
    exact ⟨_, Or.inl ⟨hplace, rfl⟩, rfl⟩
  · rename_i hplace
    cases h
    exact ⟨_, Or.inr ⟨hplace, rfl⟩, rfl⟩
  · cases h

theorem deleteThread_eq (h : s.deleteThread = some s') :
    s'.registers = s.registers ∧ s'.userRegisters = s.userRegisters ∧ s'.space = s.space ∧
      ∀ t, s'.place t = s.place t ∨ s'.place t = .absent := by
  unfold State.deleteThread at h
  split at h
  · cases h
    exact ⟨rfl, rfl, rfl, fun _ => Or.inl rfl⟩
  · rename_i d hd
    split_ifs at h with hcurrent
    cases h
    refine ⟨rfl, rfl, rfl, ?_⟩
    intro t
    by_cases ht : t = d
    · right
      subst ht
      exact Function.update_self _ _ _
    · left
      exact Function.update_of_ne ht _ _

/-- The call of `Run` saves the registers. -/
theorem step_enter (h : s.step (.enter t next) = some s') :
    s.place t = .running ∧ s'.space = s.space ∧
      (s.space t = true → s'.userRegisters t = s.registers) ∧
        ∀ u, u ≠ t → s'.userRegisters u = s.userRegisters u ∧ (InRun s' u → InRun s u) := by
  dsimp only [State.step] at h
  by_cases hguard : t = s.currentThread ∧ s.place t = .running ∧ s.threadToBeDestroyed ≠ some next
  swap
  · rw [if_neg hguard] at h
    cases h
  rw [if_pos hguard] at h
  obtain ⟨p, hp, rfl⟩ := switchTo_eq h
  refine ⟨hguard.2.1, rfl, ?_, ?_⟩
  · intro huser
    dsimp only
    rw [if_pos huser, Function.update_self, saveUserState_eq]
  · intro u hut
    dsimp only [InRun] at hp ⊢
    refine ⟨?_, ?_⟩
    · split_ifs
      · exact Function.update_of_ne hut _ _
      · rfl
    · intro hu
      by_cases hun : u = next
      · -- it has been in `Run` before, or it starts in `ThreadRoot`
        subst hun
        rw [Function.update_self] at hu
        rw [Function.update_of_ne hut] at hp
        rcases hp with ⟨hswitched, -⟩ | ⟨-, rfl⟩
        · exact Or.inl hswitched
        · simp at hu
      · rwa [Function.update_of_ne hun, Function.update_of_ne hut] at hu

/-- The return from `Run` restores them. -/
theorem step_leave (h : s.step (.leave t) = some s') :
    InRun s t ∧ s'.space = s.space ∧ s'.userRegisters = s.userRegisters ∧
      (s.space t = true → s'.registers = s.userRegisters t) ∧
        ∀ u, InRun s' u → u ≠ t ∧ InRun s u := by
  dsimp only [State.step] at h
  split_ifs at h with hguard
  obtain ⟨-, hresumed⟩ := hguard
  obtain ⟨s₁, hdelete, hs'⟩ := Option.bind_eq_some_iff.1 h
  cases hs'
  obtain ⟨-, huser, hspace, hplace⟩ := deleteThread_eq hdelete
  refine ⟨Or.inr hresumed, hspace, huser, ?_, ?_⟩
  · intro hs
    rw [← hspace] at hs
    dsimp only
    rw [if_pos hs, restoreUserState_eq, huser]
  · intro u hu
    obtain ⟨hut, hbefore⟩ := inRun_update (by decide) hu
    refine ⟨hut, ?_⟩
    rcases hplace u with hsame | habsent
    · rwa [hsame] at hbefore
    · rw [habsent] at hbefore
      simp at hbefore

/-- A thread is in `Run` because it has just called it, or it has been there before and the step has
left it alone. -/
theorem step_inRun (h : s.step a = some s') (hin : InRun s' t) :
    (∃ next, a = .enter t next) ∨ InRun s t ∧ ¬ a.IsRunOf t ∧ s'.space t = s.space t ∧
      s'.userRegisters t = s.userRegisters t := by
  cases a with
  | execute registers =>
    right
    dsimp only [State.step] at h
    split_ifs at h
    cases h
    exact ⟨hin, not_false, rfl, rfl⟩
  | interrupt =>
    right
    dsimp only [State.step] at h
    split_ifs at h
    obtain ⟨result, -, hs'⟩ := Option.bind_eq_some_iff.1 h
    cases hs'
    exact ⟨hin, not_false, rfl, rfl⟩
  | newThread u =>
    right
    dsimp only [State.step] at h
    split_ifs at h
    cases h
    obtain ⟨htu, hbefore⟩ := inRun_update (by decide) hin
    exact ⟨hbefore, not_false, Function.update_of_ne htu _ _, rfl⟩
  | setSpace u =>
    right
    dsimp only [State.step] at h
    split_ifs at h with hguard
    cases h
    have htu : t ≠ u := by
      rintro rfl
      dsimp only [InRun] at hin
      obtain ⟨hrunning, hcurrent | hcreated⟩ := hguard
      · rw [hcurrent, hrunning] at hin
        simp at hin
      · rw [hcreated] at hin
        simp at hin
    exact ⟨hin, not_false, Function.update_of_ne htu _ _, rfl⟩
  | fork u =>
    right
    dsimp only [State.step] at h
    split_ifs at h
    cases h
    obtain ⟨-, hbefore⟩ := inRun_update (by decide) hin
    exact ⟨hbefore, not_false, rfl, rfl⟩
  | finish u =>
    right
    dsimp only [State.step] at h
    split_ifs at h
    cases h
    exact ⟨hin, not_false, rfl, rfl⟩
  | enter u next =>
    obtain ⟨-, hspace, -, hother⟩ := step_enter h
    by_cases hut : u = t
    · subst hut
      exact Or.inl ⟨next, rfl⟩
    · right
      obtain ⟨huser, hbefore⟩ := hother t (Ne.symm hut)
      exact ⟨hbefore hin, hut, by rw [hspace], huser⟩
  | leave u =>
    right
    obtain ⟨-, hspace, huser, -, hother⟩ := step_leave h
    obtain ⟨htu, hbefore⟩ := hother t hin
    exact ⟨hbefore, htu.symm, by rw [hspace], by rw [huser]⟩

/-! ### Runs -/

/-- A thread in `Run` has called it, and has been there since; its copy holds the registers of the time
of the call. -/
theorem exists_enter_of_inRun {main : τ} {s₀ : State τ} {as : List (Action τ)}
    (hinit : (system main).init s₀) (hrun : (system main).Run s₀ as s) (hin : InRun s t) :
    ∃ before next since s₁ s₂, as = before ++ .enter t next :: since ∧
      (system main).Run s₀ before s₁ ∧ (system main).step s₁ (.enter t next) s₂ ∧
        (system main).Run s₂ since s ∧ (∀ a ∈ since, ¬ a.IsRunOf t) ∧
          (s.space t = true → s.userRegisters t = s₁.registers) := by
  induction as using List.reverseRecOn generalizing s with
  | nil =>
    cases hrun
    obtain ⟨-, -, -, hplace⟩ := hinit
    dsimp only [InRun] at hin
    rw [hplace] at hin
    obtain ⟨-, habsent⟩ := inRun_update (by decide) hin
    simp at habsent
  | append_singleton as a ih =>
    obtain ⟨s', hrun', hstep⟩ := hrun.concat_cases
    rcases step_inRun hstep hin with ⟨next, rfl⟩ | ⟨hbefore, hnot, hspace, huser⟩
    · obtain ⟨-, hspace, hsaved, -⟩ := step_enter hstep
      refine ⟨as, next, [], s', s, rfl, hrun', hstep, .nil s, nofun, ?_⟩
      rw [hspace]
      exact hsaved
    · obtain ⟨before, next, since, s₁, s₂, rfl, hfirst, henter, hsince, hnone, hregisters⟩ :=
        ih hrun' hbefore
      refine ⟨before, next, since ++ [a], s₁, s₂, by simp, hfirst, henter,
        hsince.trans (.cons hstep (.nil s)), ?_, ?_⟩
      · intro b hb
        rcases List.mem_append.1 hb with hb | hb
        · exact hnone b hb
        · rw [List.mem_singleton.1 hb]
          exact hnot
      · rw [hspace, huser]
        exact hregisters

/-- **User registers survive context switches.**  When a user thread returns from `Run`, it has called
it before, with no call or return of its own in between, and all registers are what they were when it
made this call. -/
theorem registers_survive_switches {main : τ} {s₀ : State τ} {as : List (Action τ)}
    (hinit : (system main).init s₀) (hrun : (system main).Run s₀ (as ++ [.leave t]) s)
    (huser : s.space t = true) :
    ∃ before next since s₁ s₂ s₃, as = before ++ .enter t next :: since ∧
      (system main).Run s₀ before s₁ ∧ (system main).step s₁ (.enter t next) s₂ ∧
        (system main).Run s₂ since s₃ ∧ (system main).step s₃ (.leave t) s ∧
          (∀ a ∈ since, ¬ a.IsRunOf t) ∧ ∀ i, s.registers i = s₁.registers i := by
  obtain ⟨s₃, hrun', hstep⟩ := hrun.concat_cases
  obtain ⟨hin, hspace, -, hrestored, -⟩ := step_leave hstep
  rw [hspace] at huser
  obtain ⟨before, next, since, s₁, s₂, has, hfirst, henter, hsince, hnone, hregisters⟩ :=
    exists_enter_of_inRun hinit hrun' hin
  refine ⟨before, next, since, s₁, s₂, s₃, has, hfirst, henter, hsince, hstep, hnone, ?_⟩
  intro i
  rw [hrestored huser, hregisters huser]

/-- The first thread, alone. -/
def firstThread : State Bool where
  registers _ := 0
  userRegisters _ _ := 0
  space _ := false
  place := Function.update (fun _ => .absent) false .running
  currentThread := false
  threadToBeDestroyed := none

/-- Two user threads; the second one starts, is interrupted, finishes and is deleted when the first one
is resumed. -/
def secondThread : List (Action Bool) :=
  [.setSpace false, .execute fun _ => 1, .newThread true, .setSpace true, .fork true,
    .enter false true, .execute fun _ => 2, .interrupt, .finish true, .enter true false]

theorem registers_survive_switches_twoThreads :
    ∃ s, (system false).Run firstThread (secondThread ++ [.leave false]) s ∧
      s.space false = true ∧ s.place true = .absent ∧
      ∃ before next since s₁ s₂ s₃, secondThread = before ++ .enter false next :: since ∧
        (system false).Run firstThread before s₁ ∧ (system false).step s₁ (.enter false next) s₂ ∧
          (system false).Run s₂ since s₃ ∧ (system false).step s₃ (.leave false) s ∧
            (∀ a ∈ since, ¬ a.IsRunOf false) ∧ ∀ i, s.registers i = s₁.registers i := by
  have hexists : ((secondThread ++ [Action.leave false]).foldlM State.step firstThread).map
      (fun s : State Bool => (s.space false, s.place true)) = some (true, Place.absent) := by
    decide +kernel
  obtain ⟨s, hs, hlast⟩ := Option.map_eq_some_iff.1 hexists
  obtain ⟨huser, hdeleted⟩ := Prod.mk.inj hlast
  have hrun : (system false).Run firstThread (secondThread ++ [.leave false]) s :=
    .of_foldlM (fun _ _ _ h => h) hs
  exact ⟨s, hrun, huser, hdeleted, registers_survive_switches ⟨rfl, rfl, rfl, rfl⟩ hrun huser⟩

end Nachos.UserState
