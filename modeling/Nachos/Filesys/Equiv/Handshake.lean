import Nachos.Filesys.Handshake
import Nachos.Threads.Equiv.Monitor

/-!
# Every disk request waits for its own completion

A thread inside the critical section is at one of a few stages, and the stage says what the disk is
doing: nothing (`Quiet`) until the request and after the `P`, and in between the request of this
thread and no other (`Doing`).  Only the interrupt of that request can be pending, so the `V` that the
thread waits for is its own.
-/

namespace Nachos.SynchDisk

open Process

variable {τ : Type} [DecidableEq τ] {d : Device τ} {value : ℤ}

/-! ### Stages -/

/-- Where a thread stands. -/
inductive Stage where
  | idle
  | start (c : ValidCall)
  | entered (c : ValidCall)
  | request (c : ValidCall)
  /-- Served from the cache, before the `V`. -/
  | post
  | wait
  | finish
  | release
  | clear
  | unlock

namespace Stage

def code : Stage → List (Stmt Unit Unit Code)
  | .idle => []
  | .start c => [.acquire (), .own (.request c), .p (), .own .finish, .release ()]
  | .entered c => [.assign (), .own (.request c), .p (), .own .finish, .release ()]
  | .request c => [.own (.request c), .p (), .own .finish, .release ()]
  | .post => [.v (), .p (), .own .finish, .release ()]
  | .wait => [.p (), .own .finish, .release ()]
  | .finish => [.own .finish, .release ()]
  | .release => [.release ()]
  | .clear => [.clear (), .unlock ()]
  | .unlock => [.unlock ()]

/-! The stage of a thread, by its next statement. -/

variable {q : Stage} {k : List (Stmt Unit Unit Code)} {l : Unit}

theorem of_nil (h : [] = q.code) : q = .idle := by
  cases q <;> cases h
  rfl

theorem of_acquire (h : .acquire l :: k = q.code) :
    ∃ c, q = .start c ∧ .assign l :: k = (Stage.entered c).code := by
  cases q <;> cases h
  exact ⟨_, rfl, rfl⟩

theorem of_assign (h : .assign l :: k = q.code) : ∃ c, q = .entered c ∧ k = (Stage.request c).code := by
  cases q <;> cases h
  exact ⟨_, rfl, rfl⟩

theorem of_own {x : Code} (h : .own x :: k = q.code) :
    (∃ c, q = .request c ∧ x = .request c ∧ k = Stage.wait.code) ∨
      q = .finish ∧ x = .finish ∧ k = Stage.release.code := by
  cases q <;> cases h
  · exact Or.inl ⟨_, rfl, rfl, rfl⟩
  · exact Or.inr ⟨rfl, rfl, rfl⟩

theorem of_v {x : Unit} (h : .v x :: k = q.code) : q = .post ∧ k = Stage.wait.code := by
  cases q <;> cases h
  exact ⟨rfl, rfl⟩

theorem of_p {x : Unit} (h : .p x :: k = q.code) : q = .wait ∧ k = Stage.finish.code := by
  cases q <;> cases h
  exact ⟨rfl, rfl⟩

theorem of_release (h : .release l :: k = q.code) :
    q = .release ∧ .clear l :: .unlock l :: k = Stage.clear.code := by
  cases q <;> cases h
  exact ⟨rfl, rfl⟩

theorem of_clear (h : .clear l :: k = q.code) : q = .clear ∧ k = Stage.unlock.code := by
  cases q <;> cases h
  exact ⟨rfl, rfl⟩

theorem of_unlock (h : .unlock l :: k = q.code) : q = .unlock ∧ k = Stage.idle.code := by
  cases q <;> cases h
  exact ⟨rfl, rfl⟩

end Stage

/-- No request is being served, and none has been left over. -/
structure Quiet (d : Device τ) (value : ℤ) : Prop where
  active : d.active = false
  pending : d.pending = []
  value : value = 0
  returned : d.returned = List.range d.requests
  completed : d.completed = d.returned

/-- The request of `t` has been completed, and `value` tells whether `P` has still to return. -/
structure Completed (d : Device τ) (value : ℤ) (t : τ) (expected : ℤ) : Prop where
  active : d.active = false
  pending : d.pending = []
  value : value = expected
  returned : d.returned ++ [d.number t] = List.range d.requests
  completed : d.completed = d.returned ++ [d.number t]

/-- The request of `t` is being served. -/
structure Requested (d : Device τ) (value : ℤ) (t : τ) : Prop where
  active : d.active = true
  pending : d.pending = [d.number t]
  value : value = 0
  returned : d.returned ++ [d.number t] = List.range d.requests
  completed : d.completed = d.returned

/-- What the disk is doing while `t` is inside. -/
def Doing (d : Device τ) (value : ℤ) (t : τ) : Stage → Prop
  | .post => Completed d value t 0
  | .wait => Requested d value t ∨ Completed d value t 1
  | .finish => Completed d value t 0
  | _ => Quiet d value

omit [DecidableEq τ] in
/-- Requests are completed in the order of their numbers. -/
theorem Doing.completed_in_order {t : τ} {q : Stage} (h : Doing d value t q) :
    d.completed <+: List.range d.requests := by
  have hquiet : Quiet d value → d.completed <+: List.range d.requests := by
    intro hq
    rw [hq.completed, hq.returned]
  have hcompleted : ∀ {e}, Completed d value t e → d.completed <+: List.range d.requests := by
    intro e hc
    rw [hc.completed, hc.returned]
  cases q with
  | post => exact hcompleted h
  | finish => exact hcompleted h
  | wait =>
    rcases h with hr | hc
    · rw [hr.completed, ← hr.returned]
      exact List.prefix_append _ _
    · exact hcompleted hc
  | _ => exact hquiet h

/-! ### The code between the synchronization -/

/-- The data after a call has got its number. -/
def Device.numbered (d : Device τ) (t : τ) : Device τ :=
  { d with requests := d.requests + 1, number := Function.update d.number t d.requests }

theorem Quiet.issue (h : Quiet d value) (t : τ) (sd : SynchDisk) :
    Requested ((d.numbered t).issue d.requests sd) value t := by
  refine ⟨rfl, ?_, h.value, ?_, h.completed⟩
  · simp [Device.issue, Device.numbered, h.pending]
  · simp [Device.issue, Device.numbered, h.returned, List.range_succ]

theorem Quiet.handleInterrupt (h : Quiet d value) (t : τ) :
    Completed ((d.numbered t).handleInterrupt d.requests) value t 0 := by
  refine ⟨rfl, h.pending, h.value, ?_, ?_⟩
  · simp [Device.handleInterrupt, Device.numbered, h.returned, List.range_succ]
  · simp [Device.handleInterrupt, Device.numbered, h.completed]

omit [DecidableEq τ] in
/-- The interrupt that is pending is that of the request being served. -/
theorem Requested.handleInterrupt {t : τ} (h : Requested d value t) {r : ℕ} (hr : r ∈ d.pending) :
    Completed { d.handleInterrupt r with pending := d.pending.erase r } (value + 1) t 1 := by
  rw [h.pending, List.mem_singleton] at hr
  subst hr
  refine ⟨rfl, ?_, by rw [h.value]; rfl, h.returned, ?_⟩
  · simp [h.pending]
  · simp [Device.handleInterrupt, h.completed]

omit [DecidableEq τ] in
/-- An interrupt is pending only while the thread inside waits for it. -/
theorem Doing.handleInterrupt {t : τ} {q : Stage} (h : Doing d value t q) {r : ℕ} (hr : r ∈ d.pending) :
    Doing { d.handleInterrupt r with pending := d.pending.erase r } (value + 1) t q := by
  have hne : d.pending ≠ [] := List.ne_nil_of_mem hr
  cases q with
  | wait =>
    rcases h with hrequested | hcompleted
    · exact Or.inr (hrequested.handleInterrupt hr)
    · exact absurd hcompleted.pending hne
  | _ => exact absurd h.pending hne

/-- A request for a sector of the disk is issued, or served from the cache. -/
theorem exec_request (t : τ) (c : ValidCall) (h : d.active = false) :
    (∃ sd, (Code.request c).exec t d = some ((d.numbered t).issue d.requests sd, [])) ∨
      (Code.request c).exec t d = some ((d.numbered t).handleInterrupt d.requests, [.v ()]) := by
  obtain ⟨c, hc⟩ := c
  unfold Code.exec
  cases c with
  | read s =>
    cases hfind : d.synchDisk.find s with
    | none =>
      left
      have hread : d.synchDisk.readSector s =
          some (d.synchDisk.disk s.toNat, d.synchDisk.load s (d.synchDisk.disk s.toNat)) := by
        unfold readSector Disk.readRequest
        rw [hfind, if_pos hc]
        rfl
      refine ⟨d.synchDisk.load s (d.synchDisk.disk s.toNat), ?_⟩
      simp only [hfind, h, hread]
      rfl
    | some i =>
      right
      simp only [hfind]
      rfl
  | write s data =>
    left
    have hwrite : d.synchDisk.writeSector s data =
        some { d.synchDisk with disk := Function.update d.synchDisk.disk s.toNat data } := by
      unfold writeSector Disk.writeRequest
      rw [if_pos hc]
      rfl
    refine ⟨{ d.synchDisk with disk := Function.update d.synchDisk.disk s.toNat data }, ?_⟩
    simp only [h, hwrite]
    rfl

theorem exec_more {t : τ} {x : Code} {d d' : Device τ} {more : List (Stmt Unit Unit Code)}
    (h : x.exec t d = some (d', more)) : more = [] ∨ more = [.v ()] := by
  cases x with
  | finish =>
    cases h
    exact Or.inl rfl
  | request c =>
    unfold Code.exec at h
    dsimp only at h
    split at h
    · split at h
      · split_ifs at h
        obtain ⟨x, -, hx⟩ := Option.map_eq_some_iff.1 h
        cases hx
        exact Or.inl rfl
      · cases h
        exact Or.inr rfl
    · split_ifs at h
      obtain ⟨x, -, hx⟩ := Option.map_eq_some_iff.1 h
      cases hx
      exact Or.inl rfl

theorem guarded : Guarded (τ := τ) () program fun _ => [] := by
  refine ⟨?_, fun _ => ⟨trivial, rfl⟩, ?_⟩
  · intro c
    simp [program, Ordered, placeOf, placeAt, placeAfter, touches]
  · intro t x d d' more hexec i hi
    rcases exec_more hexec with rfl | rfl
    · cases hi
    · rw [List.mem_singleton.1 hi]
      rfl

/-! ### The invariant -/

/-- Every thread is at some stage, and the disk does what the stage says. -/
abbrev Serving (v : View τ Unit Unit Code (Device τ)) (stage : τ → Stage) : Prop :=
  Monitor () Stage.code (fun t q v => Doing v.data (v.value ()) t q)
    (fun v => Quiet v.data (v.value ())) v stage

variable {v v' : View τ Unit Unit Code (Device τ)} {stage : τ → Stage}

theorem Serving.step (h : Serving v stage) (hstep : View.Step program v v') :
    ∃ stage', Serving v' stage' := by
  have hlocked := h.locked.step guarded hstep
  cases hstep with
  | @call t c hcode =>
    have hq := Stage.of_nil (hcode.symm.trans (h.code t))
    have hk : (program (τ := τ)).body c = (Stage.start c).code := rfl
    exact h.outside hlocked hq rfl hk rfl rfl (fun _ _ => id) id
  | @acquire t l k hcode hvalue =>
    obtain ⟨c, -, hk⟩ := Stage.of_acquire (hcode.symm.trans (h.code t))
    exact h.enter hlocked hvalue hk rfl id nofun
  | @assign t l k hcode =>
    obtain ⟨c, hq, hk⟩ := Stage.of_assign (hcode.symm.trans (h.code t))
    have hdoing := h.doing_of hq nofun
    exact h.advance hlocked hq nofun hk rfl nofun hdoing
  | @own t x k d more hcode hready hexec =>
    rcases Stage.of_own (hcode.symm.trans (h.code t)) with ⟨c, hq, rfl, hk⟩ | ⟨hq, rfl, hk⟩
    · have hdoing : Quiet v.data (v.value ()) := h.doing_of hq nofun
      rcases exec_request t c hdoing.active with ⟨sd, hissue⟩ | hcached
      · cases hissue.symm.trans hexec
        exact h.advance hlocked hq nofun hk rfl nofun (Or.inl (hdoing.issue t sd))
      · cases hcached.symm.trans hexec
        have hk' : .v () :: k = Stage.post.code := congrArg _ hk
        exact h.advance hlocked hq nofun hk' rfl nofun (hdoing.handleInterrupt t)
    · have hdoing := h.doing_of hq nofun
      cases hexec
      exact h.advance hlocked hq nofun hk rfl nofun
        ⟨hdoing.active, hdoing.pending, hdoing.value, hdoing.returned, hdoing.completed⟩
  | @v t x k hcode =>
    obtain ⟨hq, hk⟩ := Stage.of_v (hcode.symm.trans (h.code t))
    have hdoing := h.doing_of hq nofun
    refine h.advance hlocked hq nofun hk rfl nofun (Or.inr ?_)
    refine ⟨hdoing.active, hdoing.pending, ?_, hdoing.returned, hdoing.completed⟩
    dsimp only
    rw [Function.update_self, hdoing.value]
    rfl
  | @p t x k hcode hvalue =>
    obtain ⟨hq, hk⟩ := Stage.of_p (hcode.symm.trans (h.code t))
    have hdoing := h.doing_of hq nofun
    rcases hdoing with hrequested | hcompleted
    · exact absurd hrequested.value hvalue
    · refine h.advance hlocked hq nofun hk rfl nofun ?_
      refine ⟨hcompleted.active, hcompleted.pending, ?_, hcompleted.returned, hcompleted.completed⟩
      dsimp only
      rw [Function.update_self, hcompleted.value]
      rfl
  | @release t l k hcode hheld =>
    obtain ⟨hq, hk⟩ := Stage.of_release (hcode.symm.trans (h.code t))
    have hdoing := h.doing_of hq nofun
    exact h.advance hlocked hq nofun hk rfl nofun hdoing
  | @skip t l k hcode hheld =>
    -- the thread is inside, so it is the recorded holder
    refine absurd ((h.locked.exclusive.recorded t).2 ?_) hheld
    rw [hcode]
    trivial
  | @clear t l k hcode =>
    obtain ⟨hq, hk⟩ := Stage.of_clear (hcode.symm.trans (h.code t))
    have hdoing := h.doing_of hq nofun
    exact h.advance hlocked hq nofun hk rfl nofun hdoing
  | @unlock t l k hcode =>
    obtain ⟨hq, hk⟩ := Stage.of_unlock (hcode.symm.trans (h.code t))
    have hdoing := h.doing_of hq nofun
    exact h.leave hlocked hq nofun hk rfl rfl hdoing
  | @interrupt r d posted hpending hhandle =>
    cases hhandle
    have hmem : r ∈ v.data.pending := of_decide_eq_true hpending
    exact h.still hlocked rfl (fun t q hdoing => hdoing.handleInterrupt hmem)
      fun hquiet => absurd hquiet.pending (List.ne_nil_of_mem hmem)

variable {s : Process.State τ Unit Unit Code (Device τ)} {sd : SynchDisk}

theorem Serving.of_reachable (h : (requests τ sd).Reachable s) : ∃ stage, Serving s.view stage := by
  refine invariant_of_step (fun v => ∃ stage, Serving v stage) h ?_
    fun v v' ⟨stage, hv⟩ hstep => hv.step hstep
  exact ⟨fun _ => .idle, .initial guarded _ _, fun _ => rfl, fun _ h => absurd rfl h,
    fun _ => ⟨rfl, rfl, rfl, rfl, rfl⟩⟩

/-- **The disk handshake.**  Whenever the lock is free, or not recorded as held, the disk is idle: not
active, with no interrupt pending and the semaphore at 0.  No `ASSERT` fails.  While a request is at its
`P`, either the disk is serving this very request, its interrupt is the only one that is pending and the
`P` cannot return, or this request is the one that has been completed last and there is one `V` for the
`P`.  When the `P` has returned, the completions so far are those of the requests that returned before
and the one of this request.  Requests are completed in the order of their numbers, each once. -/
theorem request_handshake (h : (requests τ sd).Reachable s) :
    ((s.lock ()).lock.value = 1 ∨ (s.lock ()).heldthread = none →
      s.data.active = false ∧ s.data.pending = [] ∧ (s.semaphore ()).value = 0) ∧
    Safe program s ∧
    (∀ t k, s.code t = .p () :: k →
      s.data.active = true ∧ s.data.pending = [s.data.number t] ∧ s.data.completed = s.data.returned ∧
          (s.semaphore ()).value = 0 ∨
        s.data.active = false ∧ s.data.pending = [] ∧
          s.data.completed = s.data.returned ++ [s.data.number t] ∧ (s.semaphore ()).value = 1) ∧
    (∀ t k, s.code t = .own .finish :: k →
      s.data.completed = s.data.returned ++ [s.data.number t] ∧ (s.semaphore ()).value = 0) ∧
    s.data.completed <+: List.range s.data.requests := by
  obtain ⟨stage, hs⟩ := Serving.of_reachable h
  have hstage : ∀ t k, s.code t = k → k = (stage t).code := fun t k hk => hk.symm.trans (hs.code t)
  have hquiet : (s.lock ()).heldthread = none → Quiet s.data (s.semaphore ()).value := by
    intro hheld
    rcases hs.cases with hidle | ⟨t, ht, hdoing⟩
    · exact hidle
    · have hnot : ¬ (placeOf () (stage t).code).recorded := by
        rw [← hs.code, ← hs.locked.exclusive.recorded]
        exact fun hsome => nomatch hheld.symm.trans hsome
      -- not yet recorded as the holder, or no longer
      cases hq : stage t with
      | idle =>
        rw [hq] at ht
        exact absurd rfl ht
      | start c =>
        rw [hq] at ht
        exact absurd rfl ht
      | entered c =>
        rw [hq] at hdoing
        exact hdoing
      | unlock =>
        rw [hq] at hdoing
        exact hdoing
      | _ =>
        rw [hq] at hnot
        exact absurd trivial hnot
  refine ⟨?_, ⟨?_, fun e _ => rfl⟩, ?_, ?_, ?_⟩
  · intro hfree
    have hheld : (s.lock ()).heldthread = none := by
      rcases hfree with hvalue | hheld
      · exact hs.locked.exclusive.held_of_value hvalue
      · exact hheld
    exact ⟨(hquiet hheld).active, (hquiet hheld).pending, (hquiet hheld).value⟩
  · intro t x k hcode _
    rcases Stage.of_own (hstage t _ hcode) with ⟨c, hq, rfl, -⟩ | ⟨-, rfl, -⟩
    · have hdoing := hs.doing_of hq nofun
      rcases exec_request t c hdoing.active with ⟨sd, hissue⟩ | hcached
      · exact Option.isSome_of_eq_some hissue
      · exact Option.isSome_of_eq_some hcached
    · rfl
  · intro t k hcode
    obtain ⟨hq, -⟩ := Stage.of_p (hstage t _ hcode)
    have hdoing : Doing s.data (s.semaphore ()).value t .wait := hs.doing_of hq nofun
    exact hdoing.imp (fun hr => ⟨hr.active, hr.pending, hr.completed, hr.value⟩)
      fun hc => ⟨hc.active, hc.pending, hc.completed, hc.value⟩
  · intro t k hcode
    rcases Stage.of_own (hstage t _ hcode) with ⟨c, -, hx, -⟩ | ⟨hq, -, -⟩
    · cases hx
    · have hdoing := hs.doing_of hq nofun
      exact ⟨hdoing.completed, hdoing.value⟩
  · rcases hs.cases with hidle | ⟨t, -, hdoing⟩
    · have hidle' : Quiet s.data (s.semaphore ()).value := hidle
      rw [hidle'.completed, hidle'.returned]
    · exact Doing.completed_in_order hdoing

/-- One read, from the call to the return of `P`: the disk serves it, it has been completed, the `P` has
returned. -/
theorem request_handshake_read :
    ∃ s₁ s₂ s₃ : Process.State Bool Unit Unit Code (Device Bool),
      (s₁.code true = [.p (), .own .finish, .release ()] ∧ s₁.data.active = true ∧
        s₁.data.pending = [s₁.data.number true]) ∧
      (s₂.code true = [.p (), .own .finish, .release ()] ∧
        s₂.data.completed = s₂.data.returned ++ [s₂.data.number true] ∧ (s₂.semaphore ()).value = 1) ∧
      s₃.code true = [.own .finish, .release ()] ∧
        s₃.data.completed = s₃.data.returned ++ [s₃.data.number true] := by
  let sd : SynchDisk := ⟨fun _ _ => 0, fun _ => ⟨0, 0, fun _ => 0⟩, 0⟩
  have hstart : (requests Bool sd).Reachable _ := .of_init rfl
  have hcall : (requests Bool sd).Reachable _ :=
    hstart.tail (a := .call true ⟨.read 5, by decide⟩) rfl
  have hacquire : (requests Bool sd).Reachable _ := hcall.tail (a := .run true) rfl
  have hassign : (requests Bool sd).Reachable _ := hacquire.tail (a := .run true) rfl
  have hrequest : (requests Bool sd).Reachable _ := hassign.tail (a := .run true) rfl
  have hinterrupt : (requests Bool sd).Reachable _ := hrequest.tail (a := .interrupt 0) rfl
  have hp : (requests Bool sd).Reachable _ := hinterrupt.tail (a := .run true) rfl
  have hserved := ((request_handshake hrequest).2.2.1 true _ rfl).resolve_right fun h => nomatch h.1
  have hposted := ((request_handshake hinterrupt).2.2.1 true _ rfl).resolve_left fun h => nomatch h.1
  have hreturned := (request_handshake hp).2.2.2.1 true _ rfl
  exact ⟨_, _, _, ⟨rfl, hserved.1, hserved.2.1⟩, ⟨rfl, hposted.2.2⟩, rfl, hreturned.1⟩

end Nachos.SynchDisk
