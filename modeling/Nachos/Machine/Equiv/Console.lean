import Mathlib.Data.List.Chain
import Nachos.Machine.Console
import Nachos.Threads.Equiv.Monitor

/-!
# What `GetChar` returns

As long as a full buffer can be told from an empty one, the characters read but not yet returned are the
one in the buffer.  The byte 255 looks like an empty buffer: the next poll overwrites it, and it is lost
unless the character that replaces it is 255 again.  So the input comes through exactly if nothing
but 255 follows a 255 (`getChar_iff`).
-/

namespace Nachos.Console

open Process

/-- A buffer that holds this byte looks empty. -/
abbrev blank : Byte := 255

theorem toInt_eq_EOF {b : Byte} : b.toInt = EOF ↔ b = blank := by
  revert b
  decide

/-- Nothing but 255 follows a 255. -/
def Distinguishable (input : List Byte) : Prop := input.IsChain fun b b' => b = blank → b' = blank

/-! ### Stages -/

inductive Stage where
  | idle
  | start (c : Call)
  | entered (c : Call)
  /-- `GetChar`, waiting for `readAvail` -/
  | wait
  | get
  | put (ch : Byte)
  | putWait
  | release
  | clear
  | unlock

namespace Stage

def code : Stage → List (Stmt Sem Unit Code)
  | .idle => []
  | .start .getChar => [.acquire (), .p .readAvail, .own .getChar, .release ()]
  | .start (.putChar ch) => [.acquire (), .own (.putChar ch), .p .writeDone, .release ()]
  | .entered .getChar => [.assign (), .p .readAvail, .own .getChar, .release ()]
  | .entered (.putChar ch) => [.assign (), .own (.putChar ch), .p .writeDone, .release ()]
  | .wait => [.p .readAvail, .own .getChar, .release ()]
  | .get => [.own .getChar, .release ()]
  | .put ch => [.own (.putChar ch), .p .writeDone, .release ()]
  | .putWait => [.p .writeDone, .release ()]
  | .release => [.release ()]
  | .clear => [.clear (), .unlock ()]
  | .unlock => [.unlock ()]

variable {q : Stage} {k : List (Stmt Sem Unit Code)}

theorem of_nil (h : [] = q.code) : q = .idle := by
  rcases q with _ | (_ | _) | (_ | _) | _ | _ | _ | _ | _ | _ | _ <;> cases h
  rfl

theorem of_acquire {l : Unit} (h : .acquire l :: k = q.code) :
    ∃ c, q = .start c ∧ .assign l :: k = (Stage.entered c).code := by
  rcases q with _ | (_ | _) | (_ | _) | _ | _ | _ | _ | _ | _ | _ <;> cases h <;>
  exact ⟨_, rfl, rfl⟩

theorem of_assign {l : Unit} (h : .assign l :: k = q.code) :
    ∃ c, q = .entered c ∧ (k = Stage.wait.code ∨ ∃ ch, k = (Stage.put ch).code) := by
  rcases q with _ | (_ | _) | (_ | ch) | _ | _ | _ | _ | _ | _ | _ <;> cases h
  · exact ⟨_, rfl, Or.inl rfl⟩
  · exact ⟨_, rfl, Or.inr ⟨ch, rfl⟩⟩

theorem of_p {x : Sem} (h : .p x :: k = q.code) :
    (x = .readAvail ∧ q = .wait ∧ k = Stage.get.code) ∨
      (x = .writeDone ∧ q = .putWait ∧ k = Stage.release.code) := by
  rcases q with _ | (_ | _) | (_ | _) | _ | _ | _ | _ | _ | _ | _ <;> cases h
  · exact Or.inl ⟨rfl, rfl, rfl⟩
  · exact Or.inr ⟨rfl, rfl, rfl⟩

theorem of_own {x : Code} (h : .own x :: k = q.code) :
    (x = .getChar ∧ q = .get ∧ k = Stage.release.code) ∨
      ∃ ch, x = .putChar ch ∧ q = .put ch ∧ k = Stage.putWait.code := by
  rcases q with _ | (_ | _) | (_ | _) | _ | _ | _ | _ | _ | _ | _ <;> cases h
  · exact Or.inl ⟨rfl, rfl, rfl⟩
  · exact Or.inr ⟨_, rfl, rfl, rfl⟩

theorem of_release {l : Unit} (h : .release l :: k = q.code) :
    q = .release ∧ .clear l :: .unlock l :: k = Stage.clear.code := by
  rcases q with _ | (_ | _) | (_ | _) | _ | _ | _ | _ | _ | _ | _ <;> cases h
  exact ⟨rfl, rfl⟩

theorem of_clear {l : Unit} (h : .clear l :: k = q.code) : q = .clear ∧ k = Stage.unlock.code := by
  rcases q with _ | (_ | _) | (_ | _) | _ | _ | _ | _ | _ | _ | _ <;> cases h
  exact ⟨rfl, rfl⟩

theorem of_unlock {l : Unit} (h : .unlock l :: k = q.code) : q = .unlock ∧ k = Stage.idle.code := by
  rcases q with _ | (_ | _) | (_ | _) | _ | _ | _ | _ | _ | _ | _ <;> cases h
  exact ⟨rfl, rfl⟩

theorem not_of_v {x : Sem} (h : .v x :: k = q.code) : False := by
  rcases q with _ | (_ | _) | (_ | _) | _ | _ | _ | _ | _ | _ | _ <;> cases h

end Stage

/-! ### The buffer -/

/-- `n` characters have been read and not returned: the one in the buffer, or some that look like an
empty buffer. -/
structure Buffered (input : List Byte) (d : Device) (n : ℤ) : Prop where
  all : d.read ++ d.input = input
  waiting : ∃ w, d.read = d.returned ++ w ∧ (w.length : ℤ) = n ∧
    (d.incoming = blank → ∀ b ∈ w, b = blank) ∧ (d.incoming ≠ blank → w = [d.incoming])

variable {input : List Byte} {d d' : Device} {n : ℤ}

theorem Buffered.getChar (h : Buffered input d n) (hn : 0 < n) : Buffered input d.getChar (n - 1) := by
  obtain ⟨w, hread, hlen, hblank, hfull⟩ := h.waiting
  obtain ⟨b, w', rfl⟩ : ∃ b w', w = b :: w' := by
    cases w with
    | nil =>
      rw [List.length_nil] at hlen
      omega
    | cons b w' => exact ⟨b, w', rfl⟩
  -- the first character not returned is the one in the buffer
  have hb : b = d.incoming ∧ ∀ b' ∈ w', b' = blank := by
    by_cases hin : d.incoming = blank
    · rw [hin]
      exact ⟨hblank hin b List.mem_cons_self, fun b' hb' => hblank hin b' (List.mem_cons_of_mem _ hb')⟩
    · obtain ⟨rfl, rfl⟩ := List.cons_eq_cons.1 (hfull hin)
      exact ⟨rfl, nofun⟩
  refine ⟨h.all, w', ?_, ?_, fun _ => hb.2, fun hne => absurd rfl hne⟩
  · change d.read = (d.returned ++ [d.incoming]) ++ w'
    rw [hread, ← hb.1, List.append_assoc, List.singleton_append]
  · rw [List.length_cons] at hlen
    omega

theorem Buffered.checkCharAvail (h : Buffered input d n) (hinput : Distinguishable input)
    {available : Bool} {posted : List Sem} (hcheck : checkCharAvail available d = some (d', posted)) :
    Buffered input d' (n + posted.count .readAvail) := by
  unfold Console.checkCharAvail at hcheck
  split_ifs at hcheck with hskip
  · cases hcheck
    simpa using h
  · obtain ⟨hempty, -⟩ := not_or.1 hskip
    rw [not_not, toInt_eq_EOF] at hempty
    obtain ⟨w, hread, hlen, hblank, -⟩ := h.waiting
    have hw := hblank hempty
    cases hin : d.input with
    | nil =>
      rw [hin] at hcheck
      cases hcheck
    | cons c rest =>
      rw [hin] at hcheck
      cases hcheck
      have hall := h.all
      rw [hin] at hall
      refine ⟨by rw [← hall]; simp, w ++ [c], ?_, ?_, ?_, ?_⟩
      · change d.read ++ [c] = d.returned ++ (w ++ [c])
        rw [hread, List.append_assoc]
      · rw [List.length_append, List.length_singleton, List.count_singleton_self]
        push_cast
        omega
      · intro hc b hb
        rcases List.mem_append.1 hb with hb | hb
        · exact hw b hb
        · rw [List.mem_singleton.1 hb]
          exact hc
      · intro hc
        change c ≠ blank at hc
        -- a character that is not 255 follows no 255, so nothing was waiting
        rcases List.eq_nil_or_concat w with rfl | ⟨w', b, rfl⟩
        · rfl
        · exfalso
          unfold Distinguishable at hinput
          rw [← hall, hread, List.isChain_append] at hinput
          have hb : b = blank := hw b (by simp)
          exact hc (hinput.2.2 b (by simp) c (by simp) hb)

theorem Buffered.putChar (h : Buffered input d n) {ch : Byte} (hput : d.putChar ch = some d') :
    Buffered input d' n := by
  unfold Device.putChar at hput
  split_ifs at hput
  cases hput
  exact ⟨h.all, h.waiting⟩

/-! ### The invariant -/

variable {τ : Type} [DecidableEq τ]

/-- After its `P` a thread has been promised one character more than `value` tells. -/
def Doing (input : List Byte) (d : Device) (value : ℤ) : Stage → Prop
  | .get => Buffered input d (value + 1)
  | _ => Buffered input d value

abbrev Reading (input : List Byte) (v : View τ Sem Unit Code Device) (stage : τ → Stage) : Prop :=
  Monitor () Stage.code
    (fun _ q v => 0 ≤ v.value .readAvail ∧ Doing input v.data (v.value .readAvail) q)
    (fun v => 0 ≤ v.value .readAvail ∧ Buffered input v.data (v.value .readAvail)) v stage

omit [DecidableEq τ] in
theorem guarded : Guarded () (program τ) fun _ => [] := by
  refine ⟨?_, fun _ => ⟨trivial, rfl⟩, ?_⟩
  · intro c
    cases c <;> simp [program, Ordered, placeOf, placeAt, placeAfter, touches]
  · intro t x d d' more hexec i hi
    have hmore : more = [] := by
      cases x with
      | getChar =>
        cases hexec
        rfl
      | putChar ch =>
        obtain ⟨x, -, hx⟩ := Option.map_eq_some_iff.1 hexec
        cases hx
        rfl
    rw [hmore] at hi
    cases hi

variable {v v' : View τ Sem Unit Code Device} {stage : τ → Stage}

theorem Reading.step (hinput : Distinguishable input) (h : Reading input v stage)
    (hstep : View.Step (program τ) v v') : ∃ stage', Reading input v' stage' := by
  have hlocked := h.locked.step guarded hstep
  cases hstep with
  | @call t c hcode =>
    have hq := Stage.of_nil (hcode.symm.trans (h.code t))
    have hk : (program τ).body c = (Stage.start c).code := by cases c <;> rfl
    have hplace : placeOf () (Stage.start c).code = .outside := by cases c <;> rfl
    exact h.outside hlocked hq rfl hk rfl hplace (fun _ _ => id) id
  | @acquire t l k hcode hvalue =>
    obtain ⟨c, -, hk⟩ := Stage.of_acquire (hcode.symm.trans (h.code t))
    have hplace : placeOf () (Stage.entered c).code ≠ .outside := by cases c <;> nofun
    exact h.enter hlocked hvalue hk rfl id hplace
  | @assign t l k hcode =>
    obtain ⟨c, hq, hk⟩ := Stage.of_assign (hcode.symm.trans (h.code t))
    have hplace : placeOf () (Stage.entered c).code ≠ .outside := by cases c <;> nofun
    have hdoing := h.doing_of hq hplace
    rcases hk with hk | ⟨ch, hk⟩
    · exact h.advance hlocked hq hplace hk rfl nofun hdoing
    · exact h.advance hlocked hq hplace hk rfl nofun hdoing
  | @own t x k d more hcode hready hexec =>
    rcases Stage.of_own (hcode.symm.trans (h.code t)) with ⟨rfl, hq, hk⟩ | ⟨ch, rfl, hq, hk⟩
    · obtain ⟨hnonneg, hbuffered⟩ := h.doing_of hq nofun
      cases hexec
      have hget := Buffered.getChar hbuffered (by omega)
      rw [add_sub_cancel_right] at hget
      exact h.advance hlocked hq nofun hk rfl nofun ⟨hnonneg, hget⟩
    · obtain ⟨hnonneg, hbuffered⟩ := h.doing_of hq nofun
      obtain ⟨d', hput, hd⟩ := Option.map_eq_some_iff.1 hexec
      cases hd
      exact h.advance hlocked hq nofun hk rfl nofun ⟨hnonneg, Buffered.putChar hbuffered hput⟩
  | @v t x k hcode => exact (Stage.not_of_v (hcode.symm.trans (h.code t))).elim
  | @p t x k hcode hvalue =>
    rcases Stage.of_p (hcode.symm.trans (h.code t)) with ⟨rfl, hq, hk⟩ | ⟨rfl, hq, hk⟩
    · obtain ⟨hnonneg, hbuffered⟩ := h.doing_of hq nofun
      refine h.advance hlocked hq nofun hk rfl nofun ?_
      dsimp only
      rw [Function.update_self]
      refine ⟨by omega, ?_⟩
      unfold Doing
      rw [sub_add_cancel]
      exact hbuffered
    · obtain ⟨hnonneg, hbuffered⟩ := h.doing_of hq nofun
      refine h.advance hlocked hq nofun hk rfl nofun ?_
      dsimp only
      rw [Function.update_of_ne (by decide)]
      exact ⟨hnonneg, hbuffered⟩
  | @release t l k hcode hheld =>
    obtain ⟨hq, hk⟩ := Stage.of_release (hcode.symm.trans (h.code t))
    have hdoing := h.doing_of hq nofun
    exact h.advance hlocked hq nofun hk rfl nofun hdoing
  | @skip t l k hcode hheld =>
    refine absurd ((h.locked.exclusive.recorded t).2 ?_) hheld
    rw [hcode]
    trivial
  | @clear t l k hcode =>
    obtain ⟨hq, hk⟩ := Stage.of_clear (hcode.symm.trans (h.code t))
    have hdoing := h.doing_of hq nofun
    exact h.advance hlocked hq nofun hk rfl nofun hdoing
  | @unlock t l k hcode =>
    obtain ⟨hq, hk⟩ := Stage.of_unlock (hcode.symm.trans (h.code t))
    have hdoing := h.doing_of hq nofun
    exact h.leave hlocked hq nofun hk rfl rfl hdoing
  | @interrupt e d posted hpending hhandle =>
    -- a poll posts `readAvail` once for each character it reads
    have hboth : ∀ n, Buffered input v.data n → Buffered input d (n + posted.count .readAvail) := by
      intro n hbuffered
      cases e with
      | readPoll available => exact hbuffered.checkCharAvail hinput hhandle
      | writeDone =>
        cases hhandle
        exact ⟨hbuffered.all, by simpa using hbuffered.waiting⟩
    refine h.still hlocked rfl ?_ ?_
    · rintro _ q ⟨hnonneg, hdoing⟩
      refine ⟨by dsimp only; omega, ?_⟩
      cases q with
      | get =>
        have hnew := hboth _ hdoing
        rwa [add_right_comm] at hnew
      | _ => exact hboth _ hdoing
    · rintro ⟨hnonneg, hbuffered⟩
      exact ⟨by dsimp only; omega, hboth _ hbuffered⟩

variable {s : Process.State τ Sem Unit Code Device}

theorem Reading.of_reachable (hinput : Distinguishable input) (h : (system τ input).Reachable s) :
    ∃ stage, Reading input s.view stage := by
  refine invariant_of_step (fun v => ∃ stage, Reading input v stage) h ?_
    fun v v' ⟨stage, hv⟩ hstep => hv.step hinput hstep
  refine ⟨fun _ => .idle, .initial guarded _ _, fun _ => rfl, fun _ h => absurd rfl h, fun _ => ⟨le_rfl, ?_⟩⟩
  have hempty : BitVec.ofInt 8 EOF = blank := by decide
  exact ⟨rfl, [], rfl, rfl, fun _ => nofun, fun hne => absurd hempty hne⟩

/-- The characters returned are the input, in order, as far as they go. -/
theorem returned_isPrefix (hinput : Distinguishable input) (h : (system τ input).Reachable s) :
    s.data.returned <+: input := by
  obtain ⟨stage, hs⟩ := Reading.of_reachable hinput h
  have hbuffered : ∃ n, Buffered input s.data n := by
    rcases hs.cases with ⟨-, hfree⟩ | ⟨t, -, -, hdoing⟩
    · exact ⟨_, hfree⟩
    · cases hq : stage t <;> rw [hq] at hdoing <;> exact ⟨_, hdoing⟩
  obtain ⟨n, hall, w, hread, -⟩ := hbuffered
  rw [← hall, hread, List.append_assoc]
  exact List.prefix_append _ _

/-! ### A run of one thread -/

/-- Only `t` has anything to do, and nobody waits. -/
def alone (t : τ) (q : Stage) (lock : Lock τ) (value : ℤ) (d : Device) :
    Process.State τ Sem Unit Code Device where
  semaphore := Function.update (fun _ => Semaphore.new 0) .readAvail (Semaphore.new value)
  lock _ := lock
  code := Function.update (fun _ => []) t q.code
  asleep _ := false
  data := d

theorem update_unit {α : Type} (f : Unit → α) (y : α) : Function.update f () y = fun _ => y :=
  funext fun _ => Function.update_self ..

section

variable {t : τ} {value : ℤ}

/-- `GetChar` from the call to the point where it has taken the character. -/
theorem reachable_getChar (h : (system τ input).Reachable (alone t .idle Lock.new value d))
    (hvalue : value ≠ 0) :
    (system τ input).Reachable (alone t .release ⟨⟨0, []⟩, some t⟩ (value - 1) d.getChar) := by
  have hcall : (system τ input).Reachable (alone t (.start .getChar) Lock.new value d) := by
    refine h.tail (a := .call t .getChar) ?_
    simp [system, Process.system, State.step, alone, State.goto, program, Stage.code]
  have hacquire : (system τ input).Reachable
      (alone t (.entered .getChar) ⟨⟨0, []⟩, none⟩ value d) := by
    refine hcall.tail (a := .run t) ?_
    simp [system, Process.system, State.step, State.run, State.tryAcquire, alone, State.goto,
      Stage.code, Lock.p, Lock.new, Semaphore.new, Semaphore.p, update_unit]
  have hassign : (system τ input).Reachable (alone t .wait ⟨⟨0, []⟩, some t⟩ value d) := by
    refine hacquire.tail (a := .run t) ?_
    simp [system, Process.system, State.step, State.run, alone, State.goto, Stage.code, Lock.assign,
      update_unit]
  have hp : (system τ input).Reachable (alone t .get ⟨⟨0, []⟩, some t⟩ (value - 1) d) := by
    refine hassign.tail (a := .run t) ?_
    simp [system, Process.system, State.step, State.run, State.tryP, alone, State.goto, Stage.code,
      Semaphore.p, Semaphore.new, hvalue]
  refine hp.tail (a := .run t) ?_
  simp [system, Process.system, State.step, State.run, alone, State.goto, Stage.code, program]

/-- The rest of `GetChar`. -/
theorem reachable_release
    (h : (system τ input).Reachable (alone t .release ⟨⟨0, []⟩, some t⟩ value d)) :
    (system τ input).Reachable (alone t .idle Lock.new value d) := by
  have hrelease : (system τ input).Reachable (alone t .clear ⟨⟨0, []⟩, some t⟩ value d) := by
    refine h.tail (a := .run t) ?_
    simp [system, Process.system, State.step, State.run, alone, State.goto, Stage.code, Lock.isHeldBy]
  have hclear : (system τ input).Reachable (alone t .unlock ⟨⟨0, []⟩, none⟩ value d) := by
    refine hrelease.tail (a := .run t) ?_
    simp [system, Process.system, State.step, State.run, alone, State.goto, Stage.code, Lock.clear,
      update_unit]
  refine hclear.tail (a := .run t) ?_
  simp [system, Process.system, State.step, State.run, alone, State.goto, State.wake, Stage.code,
    Lock.v, Lock.new, Semaphore.v, Semaphore.new, update_unit]

/-- A poll that finds a character. -/
theorem reachable_poll {q : Stage} {lock : Lock τ} {c : Byte} {rest : List Byte}
    (h : (system τ input).Reachable (alone t q lock value d)) (hempty : d.incoming = blank)
    (hrest : d.input = c :: rest) :
    (system τ input).Reachable (alone t q lock (value + 1)
      { d with incoming := c, input := rest, read := d.read ++ [c] }) := by
  refine h.tail (a := .interrupt (.readPoll true)) ?_
  have hcheck : checkCharAvail true d =
      some ({ d with incoming := c, input := rest, read := d.read ++ [c] }, [.readAvail]) := by
    unfold checkCharAvail
    rw [if_neg, hrest]
    rw [not_or, not_not, not_not, toInt_eq_EOF]
    exact ⟨hempty, rfl⟩
  simp [system, Process.system, State.step, alone, program, hcheck, hrest, State.post, State.wake,
    Semaphore.v, Semaphore.new]

/-- The input has been read, and returned, up to `rest`. -/
def upTo (done rest : List Byte) : Device := { Device.new rest with read := done, returned := done }

/-- Any part of the input can be got through, one character after the other. -/
theorem reachable_upTo (t : τ) {done rest : List Byte} (h : done ++ rest = input) :
    (system τ input).Reachable (alone t .idle Lock.new 0 (upTo done rest)) := by
  induction done using List.reverseRecOn generalizing rest with
  | nil =>
    rw [List.nil_append] at h
    subst h
    refine .of_init ?_
    simp [system, Process.system, alone, Stage.code, upTo, Device.new]
  | append_singleton done c ih =>
    rw [List.append_assoc, List.singleton_append] at h
    have hempty : (upTo done (c :: rest)).incoming = blank :=
      (by decide : BitVec.ofInt 8 EOF = blank)
    have hpoll := reachable_poll (ih h) hempty rfl
    exact reachable_release (reachable_getChar hpoll (by decide))

/-- A 255 in the buffer is overwritten, and `GetChar` returns the character after it. -/
theorem exists_overwritten (t : τ) {done rest : List Byte} {c : Byte}
    (h : done ++ blank :: c :: rest = input) :
    ∃ s, (system τ input).Reachable s ∧ s.data.returned = done ++ [c] := by
  have hempty : (upTo done (blank :: c :: rest)).incoming = blank :=
    (by decide : BitVec.ofInt 8 EOF = blank)
  have hfirst := reachable_poll (reachable_upTo t h) hempty rfl
  have hsecond := reachable_poll hfirst rfl rfl
  exact ⟨_, reachable_getChar hsecond (by decide), rfl⟩

end

/-- **What `GetChar` returns.**  In every run the characters returned are the input in order, as far as they
go, if and only if nothing but 255 follows a 255 in the input. -/
theorem getChar_iff (τ : Type) [DecidableEq τ] [Inhabited τ] (input : List Byte) :
    (∀ s, (system τ input).Reachable s → s.data.returned <+: input) ↔ Distinguishable input := by
  constructor
  · intro hall
    unfold Distinguishable
    rw [List.isChain_iff_forall_rel_of_append_cons_cons]
    rintro b c done rest rfl rfl
    obtain ⟨s, hs, hreturned⟩ := exists_overwritten (default : τ) (rfl : done ++ blank :: c :: rest = _)
    have hpre := hall s hs
    rw [hreturned, List.prefix_append_right_inj] at hpre
    exact (List.cons_prefix_cons.1 hpre).1
  · exact fun hinput s hs => returned_isPrefix hinput hs

/-- The input 255, 97: the 97 is returned first. -/
theorem overwritten_character : ∃ s : Process.State Bool Sem Unit Code Device,
    (system Bool [255, 97]).Reachable s ∧ s.data.returned = [97] ∧ ¬ s.data.returned <+: [255, 97] := by
  obtain ⟨s, hs, hreturned⟩ := exists_overwritten true (rfl : [] ++ blank :: 97 :: [] = [255, 97])
  refine ⟨s, hs, hreturned, ?_⟩
  rw [hreturned]
  decide

end Nachos.Console
