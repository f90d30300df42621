import Nachos.Network.Equiv.Post
import Nachos.Threads.Equiv.Process

/-!
# Delivery in order

The value of `messageAvailable`, and one more when the postal worker is past its `P`, is the number of
packets in the network device, 0 or 1 (`Serving.value`).  So the worker always finds a packet, and the
packet is the one that was read from the socket.
-/

namespace Nachos.PostOffice

open Process

variable {numBoxes : CInt} {netAddr : NetworkAddress}

/-! ### The threads -/

/-- Where a postal worker is in its loop. -/
inductive Stage where
  | waiting
  | receiving
  | putting (mail : Mail)

namespace Stage

def code (netAddr : NetworkAddress) : Stage → List (Stmt Sem NetworkAddress (Code numBoxes))
  | .waiting => postalWorker netAddr
  | .receiving => [.own (.receive netAddr)]
  | .putting mail => .own (.put netAddr mail) :: postalWorker netAddr

def hand : Stage → List Mail
  | .putting mail => [mail]
  | _ => []

/-- How many packets the worker has been promised. -/
def promised : Stage → ℤ
  | .receiving => 1
  | _ => 0

variable {q : Stage} {i : Stmt Sem NetworkAddress (Code numBoxes)}
  {k : List (Stmt Sem NetworkAddress (Code numBoxes))}

theorem cases_of_cons (h : i :: k = q.code netAddr) :
    (q = .waiting ∧ i = .p (.messageAvailable netAddr) ∧ k = Stage.receiving.code netAddr) ∨
      (q = .receiving ∧ i = .own (.receive netAddr) ∧ k = []) ∨
      ∃ mail, q = .putting mail ∧ i = .own (.put netAddr mail) ∧ k = Stage.waiting.code netAddr := by
  cases q with
  | waiting =>
    cases h
    exact Or.inl ⟨rfl, rfl, rfl⟩
  | receiving =>
    cases h
    exact Or.inr (Or.inl ⟨rfl, rfl, rfl⟩)
  | putting mail =>
    cases h
    exact Or.inr (Or.inr ⟨mail, rfl, rfl, rfl⟩)

end Stage

/-- Statements of `Send` and `Receive`. -/
def IsClient : Stmt Sem NetworkAddress (Code numBoxes) → Prop
  | .p (.messageAvailable _) => False
  | .v _ => False
  | .own (.receive _) => False
  | .own (.put _ _) => False
  | _ => True

variable {θ : Type}

theorem isClient_body (c : Call numBoxes) : ∀ i ∈ (program θ numBoxes).body c, IsClient i := by
  cases c <;> simp [program, IsClient]

/-- The invariant. -/
structure Serving (v : View (θ ⊕ NetworkAddress) Sem NetworkAddress (Code numBoxes)
    (NetworkAddress → PostOffice)) (stage : NetworkAddress → Stage) : Prop where
  client : ∀ t, ∀ i ∈ v.code (.inl t), IsClient i
  worker : ∀ netAddr, v.code (.inr netAddr) = (stage netAddr).code netAddr
  nonneg : ∀ netAddr, 0 ≤ v.value (.messageAvailable netAddr)
  value : ∀ netAddr, v.value (.messageAvailable netAddr) + (stage netAddr).promised =
    (v.data netAddr).buffered.length
  delivering : Delivering numBoxes v.data (Stage.hand ∘ stage)

variable {v v' : View (θ ⊕ NetworkAddress) Sem NetworkAddress (Code numBoxes) (NetworkAddress → PostOffice)}
  {stage : NetworkAddress → Stage} {k : List (Stmt Sem NetworkAddress (Code numBoxes))}

namespace Serving

/-- A worker that has been promised a packet finds one. -/
theorem buffered_of_receiving (h : Serving v stage) (hstage : stage netAddr = .receiving) :
    v.value (.messageAvailable netAddr) = 0 ∧ ∃ mail, (v.data netAddr).buffered = [mail] := by
  have hnonneg := h.nonneg netAddr
  have hvalue := h.value netAddr
  rw [hstage] at hvalue
  change _ + 1 = _ at hvalue
  by_cases hfull : (v.data netAddr).network.inHdr.length = 0
  · rw [buffered_of_eq hfull, List.length_nil] at hvalue
    omega
  · rw [buffered_of_ne hfull, List.length_singleton] at hvalue
    exact ⟨by omega, _, buffered_of_ne hfull⟩

variable {i : Stmt Sem NetworkAddress (Code numBoxes)}

/-- The next statement of a thread that uses the post office. -/
theorem of_cons (h : Serving v stage) {t : θ} (hcode : v.code (.inl t) = i :: k) :
    IsClient i ∧ ∀ j ∈ k, IsClient j := by
  have hclient := h.client t
  rw [hcode] at hclient
  exact List.forall_mem_cons.1 hclient

/-- A postal worker has no other statements than those of its loop. -/
theorem worker_cases (h : Serving v stage) (hcode : v.code (.inr netAddr) = i :: k) :
    i = .p (.messageAvailable netAddr) ∨ i = .own (.receive netAddr) ∨
      ∃ mail, i = .own (.put netAddr mail) := by
  rcases Stage.cases_of_cons (hcode.symm.trans (h.worker netAddr)) with
    ⟨-, hi, -⟩ | ⟨-, hi, -⟩ | ⟨mail, -, hi, -⟩
  · exact Or.inl hi
  · exact Or.inr (Or.inl hi)
  · exact Or.inr (Or.inr ⟨mail, hi⟩)

/-- An interrupt handler posts `messageAvailable` when it has read a packet. -/
theorem interrupt {p : PostOffice} {posted : List Sem} (h : Serving v stage)
    (hmoved : Moved numBoxes netAddr (v.data netAddr) p (stage netAddr).hand (stage netAddr).hand)
    (hcount : p.buffered.length =
      (v.data netAddr).buffered.length + posted.count (.messageAvailable netAddr))
    (hother : ∀ netAddr' ≠ netAddr, posted.count (.messageAvailable netAddr') = 0) :
    Serving { v with
      data := Function.update v.data netAddr p
      value := fun x => v.value x + posted.count x } stage := by
  refine ⟨h.client, h.worker, ?_, ?_, h.delivering.moved_of_same hmoved⟩
  · intro netAddr'
    have hnonneg := h.nonneg netAddr'
    dsimp only
    omega
  · intro netAddr'
    have hvalue := h.value netAddr'
    dsimp only
    by_cases hn : netAddr' = netAddr
    · subst hn
      rw [Function.update_self, hcount]
      push_cast
      omega
    · rw [Function.update_of_ne hn, hother netAddr' hn]
      push_cast
      omega

variable [DecidableEq θ]

/-- A thread goes on to `k`. -/
theorem goto {t : θ} (h : Serving v stage) (hcode : v'.code = Function.update v.code (.inl t) k)
    (hk : ∀ i ∈ k, IsClient i)
    (hvalue : ∀ netAddr, v'.value (.messageAvailable netAddr) = v.value (.messageAvailable netAddr))
    (hbuffered : ∀ netAddr, (v'.data netAddr).buffered = (v.data netAddr).buffered)
    (hdata : Delivering numBoxes v'.data (Stage.hand ∘ stage)) : Serving v' stage := by
  refine ⟨?_, ?_, ?_, ?_, hdata⟩
  · intro u
    rw [hcode]
    by_cases hu : u = t
    · rw [hu, Function.update_self]
      exact hk
    · rw [Function.update_of_ne (fun heq => hu (Sum.inl.inj heq))]
      exact h.client u
  · intro netAddr
    rw [hcode, Function.update_of_ne Sum.inr_ne_inl]
    exact h.worker netAddr
  · intro netAddr
    rw [hvalue]
    exact h.nonneg netAddr
  · intro netAddr
    rw [hvalue, hbuffered]
    exact h.value netAddr

/-- A postal worker goes on to the stage `q`. -/
theorem advance {q : Stage} {p : PostOffice} (h : Serving v stage)
    (hcode : v'.code = Function.update v.code (.inr netAddr) (q.code netAddr))
    (hother : ∀ netAddr' ≠ netAddr,
      v'.value (.messageAvailable netAddr') = v.value (.messageAvailable netAddr'))
    (hnonneg : 0 ≤ v'.value (.messageAvailable netAddr))
    (hdata : v'.data = Function.update v.data netAddr p)
    (hvalue : v'.value (.messageAvailable netAddr) + q.promised = p.buffered.length)
    (hmoved : Moved numBoxes netAddr (v.data netAddr) p (stage netAddr).hand q.hand) :
    Serving v' (Function.update stage netAddr q) := by
  refine ⟨?_, ?_, ?_, ?_, ?_⟩
  · intro t
    rw [hcode, Function.update_of_ne Sum.inl_ne_inr]
    exact h.client t
  · intro netAddr'
    rw [hcode]
    by_cases hn : netAddr' = netAddr
    · rw [hn, Function.update_self, Function.update_self]
    · rw [Function.update_of_ne hn, Function.update_of_ne (fun heq => hn (Sum.inr.inj heq))]
      exact h.worker netAddr'
  · intro netAddr'
    by_cases hn : netAddr' = netAddr
    · rw [hn]
      exact hnonneg
    · rw [hother netAddr' hn]
      exact h.nonneg netAddr'
  · intro netAddr'
    rw [hdata]
    by_cases hn : netAddr' = netAddr
    · rw [hn, Function.update_self, Function.update_self]
      exact hvalue
    · rw [Function.update_of_ne hn, Function.update_of_ne hn, hother netAddr' hn]
      exact h.value netAddr'
  · rw [hdata, Function.comp_update]
    exact h.delivering.moved hmoved

/-- A statement about a `sendLock`. -/
theorem lockStep {t : θ ⊕ NetworkAddress} (l : NetworkAddress) (h : Serving v stage)
    (hcode : v.code t = i :: k) (hi : touches l i = true)
    (more : List (Stmt Sem NetworkAddress (Code numBoxes))) (hmore : ∀ j ∈ more, IsClient j)
    (hcode' : v'.code = Function.update v.code t (more ++ k)) (hvalue : v'.value = v.value)
    (hdata : v'.data = v.data) : Serving v' stage := by
  cases t with
  | inl t =>
    have hk : ∀ j ∈ more ++ k, IsClient j := by
      intro j hj
      rcases List.mem_append.1 hj with hj | hj
      · exact hmore j hj
      · exact (h.of_cons hcode).2 j hj
    apply h.goto hcode' hk
    · intro netAddr
      rw [hvalue]
    · intro netAddr
      rw [hdata]
    · rw [hdata]
      exact h.delivering
  | inr netAddr =>
    rcases h.worker_cases hcode with rfl | rfl | ⟨mail, rfl⟩ <;> cases hi

/-- `Send` and `PostOffice::Receive`. -/
theorem ownClient {t : θ} {x : Code numBoxes} {d : NetworkAddress → PostOffice}
    {more : List (Stmt Sem NetworkAddress (Code numBoxes))} (h : Serving v stage)
    (hcode : v.code (.inl t) = .own x :: k)
    (hexec : (program θ numBoxes).exec (.inl t) x v.data = some (d, more)) :
    Serving { v.goto (.inl t) (more ++ k) with data := d } stage := by
  obtain ⟨hclient, hk⟩ := h.of_cons hcode
  cases x with
  | check netAddr letter =>
    dsimp only [program] at hexec
    split_ifs at hexec
    cases hexec
    exact h.goto rfl hk (fun _ => rfl) (fun _ => rfl) h.delivering
  | send netAddr letter chance =>
    obtain ⟨w, hsend, heq⟩ := Option.map_eq_some_iff.1 hexec
    cases heq
    obtain ⟨hdelivering, hbuffered⟩ := h.delivering.send hsend
    exact h.goto rfl hk (fun _ => rfl) hbuffered hdelivering
  | receive netAddr => exact hclient.elim
  | put netAddr mail => exact hclient.elim
  | get netAddr box =>
    obtain ⟨p, hget, heq⟩ := Option.map_eq_some_iff.1 hexec
    cases heq
    obtain ⟨hmoved, hbuffered⟩ := (h.delivering.orderly netAddr).get hget
    refine h.goto rfl hk (fun _ => rfl) ?_ (h.delivering.moved_of_same hmoved)
    intro netAddr'
    dsimp only
    by_cases hn : netAddr' = netAddr
    · rw [hn, Function.update_self, hbuffered]
    · rw [Function.update_of_ne hn]

/-- The postal worker takes a packet from the device, or puts it into the mailbox. -/
theorem ownWorker {x : Code numBoxes} {d : NetworkAddress → PostOffice}
    {more : List (Stmt Sem NetworkAddress (Code numBoxes))} (h : Serving v stage)
    (hcode : v.code (.inr netAddr) = .own x :: k)
    (hexec : (program θ numBoxes).exec (.inr netAddr) x v.data = some (d, more)) :
    ∃ stage', Serving { v.goto (.inr netAddr) (more ++ k) with data := d } stage' := by
  have horderly := h.delivering.orderly netAddr
  have hvalue := h.value netAddr
  change Orderly _ _ _ (stage netAddr).hand at horderly
  rcases Stage.cases_of_cons (hcode.symm.trans (h.worker netAddr)) with
    ⟨-, hx, -⟩ | ⟨hq, hx, hk⟩ | ⟨mail, hq, hx, hk⟩
  · cases hx
  · cases hx
    obtain ⟨⟨p, mail⟩, hdelivery, heq⟩ := Option.map_eq_some_iff.1 hexec
    cases heq
    obtain ⟨hzero, mail', hmail'⟩ := h.buffered_of_receiving hq
    rw [hq] at horderly
    obtain ⟨hmoved, hempty⟩ := horderly.postalDelivery hmail' hdelivery
    refine ⟨_, h.advance (q := .putting mail) ?_ (fun _ _ => rfl) (h.nonneg netAddr) rfl ?_ ?_⟩
    · rw [hk, List.append_nil]
      rfl
    · rw [hempty]
      exact (add_zero _).trans hzero
    · rw [hq]
      exact hmoved
  · cases hx
    cases hexec
    rw [hq] at horderly hvalue
    refine ⟨_, h.advance (q := .waiting) ?_ (fun _ _ => rfl) (h.nonneg netAddr) rfl hvalue ?_⟩
    · rw [hk]
      rfl
    · rw [hq]
      exact horderly.put

theorem step (h : Serving v stage) (hstep : View.Step (program θ numBoxes) v v') :
    ∃ stage', Serving v' stage' := by
  cases hstep with
  | @call t c hcode =>
    cases t with
    | inl t =>
      exact ⟨stage, h.goto rfl (isClient_body c) (fun _ => rfl) (fun _ => rfl) h.delivering⟩
    | inr netAddr =>
      -- the loop of the postal worker does not end
      rw [h.worker] at hcode
      cases hq : stage netAddr <;> rw [hq] at hcode <;> cases hcode
  | @p t x k hcode hvalue =>
    cases t with
    | inl t =>
      obtain ⟨hclient, hk⟩ := h.of_cons hcode
      cases x with
      | messageAvailable netAddr => exact hclient.elim
      | messageSent netAddr =>
        refine ⟨stage, h.goto rfl hk ?_ (fun _ => rfl) h.delivering⟩
        intro netAddr'
        dsimp only
        rw [Function.update_of_ne (by simp)]
    | inr netAddr =>
      rcases Stage.cases_of_cons (hcode.symm.trans (h.worker netAddr)) with
        ⟨hq, hx, hk⟩ | ⟨-, hx, -⟩ | ⟨mail, -, hx, -⟩
      · -- past `messageAvailable->P()` the buffer is this worker's to empty
        cases hx
        have hnonneg := h.nonneg netAddr
        have hbuffered := h.value netAddr
        have hmoved := (h.delivering.orderly netAddr).moved
        change Moved _ _ _ _ (stage netAddr).hand (stage netAddr).hand at hmoved
        rw [hq] at hbuffered hmoved
        refine ⟨_, h.advance (q := .receiving) (by rw [← hk]; rfl) ?_ ?_
          (Function.update_eq_self netAddr v.data).symm ?_ (hq ▸ hmoved)⟩
        · intro netAddr' hn
          dsimp only
          rw [Function.update_of_ne (by simpa using hn)]
        · dsimp only
          rw [Function.update_self]
          omega
        · dsimp only
          rw [Function.update_self]
          change _ + 0 = _ at hbuffered
          change _ - 1 + 1 = _
          omega
      · cases hx
      · cases hx
  | @v t x k hcode =>
    cases t with
    | inl t => exact (h.of_cons hcode).1.elim
    | inr netAddr => rcases h.worker_cases hcode with hx | hx | ⟨mail, hx⟩ <;> cases hx
  | @acquire t l k hcode hvalue =>
    have hmore : ∀ j ∈ [(.assign l : Stmt Sem NetworkAddress (Code numBoxes))], IsClient j := by
      simp [IsClient]
    exact ⟨stage, h.lockStep l hcode (decide_eq_true rfl) [.assign l] hmore rfl rfl rfl⟩
  | @assign t l k hcode =>
    exact ⟨stage, h.lockStep l hcode (decide_eq_true rfl) [] nofun rfl rfl rfl⟩
  | @release t l k hcode hheld =>
    have hmore : ∀ j ∈ [(.clear l : Stmt Sem NetworkAddress (Code numBoxes)), .unlock l], IsClient j := by
      simp [IsClient]
    exact ⟨stage, h.lockStep l hcode (decide_eq_true rfl) [.clear l, .unlock l] hmore rfl rfl rfl⟩
  | @skip t l k hcode hheld =>
    exact ⟨stage, h.lockStep l hcode (decide_eq_true rfl) [] nofun rfl rfl rfl⟩
  | @clear t l k hcode =>
    exact ⟨stage, h.lockStep l hcode (decide_eq_true rfl) [] nofun rfl rfl rfl⟩
  | @unlock t l k hcode =>
    exact ⟨stage, h.lockStep l hcode (decide_eq_true rfl) [] nofun rfl rfl rfl⟩
  | @own t x k d more hcode hready hexec =>
    cases t with
    | inl t => exact ⟨stage, h.ownClient hcode hexec⟩
    | inr netAddr => exact h.ownWorker hcode hexec
  | @interrupt e d posted hpending hhandle =>
    cases e with
    | readPoll netAddr sender =>
      obtain ⟨⟨p, posted'⟩, hpoll, heq⟩ := Option.map_eq_some_iff.1 hhandle
      cases heq
      obtain ⟨hmoved, hposted⟩ := (h.delivering.orderly netAddr).readPoll hpoll
      refine ⟨stage, h.interrupt hmoved ?_ ?_⟩
      · rcases hposted with ⟨rfl, rfl⟩ | ⟨rfl, hempty, hfull⟩
        · rw [List.count_nil, Nat.add_zero]
        · rw [hempty, hfull, List.count_singleton_self, List.length_nil]
      · intro netAddr' hn
        rcases hposted with ⟨rfl, -⟩ | ⟨rfl, -, -⟩
        · rfl
        · rw [List.count_cons_of_ne (by simpa using Ne.symm hn), List.count_nil]
    | sendDone netAddr =>
      cases hhandle
      refine ⟨stage, h.interrupt (h.delivering.orderly netAddr).sendDone ?_ ?_⟩
      · rw [List.count_cons_of_ne (by simp), List.count_nil]
        rfl
      · intro netAddr' hn
        rw [List.count_cons_of_ne (by simp), List.count_nil]

end Serving

variable {garbage : NetworkAddress → Network × Buf}
  {s : Process.State (θ ⊕ NetworkAddress) Sem NetworkAddress (Code numBoxes) (NetworkAddress → PostOffice)}

theorem Serving.safe {stage : NetworkAddress → Stage} (h : Serving s.view stage) :
    Safe (program θ numBoxes) s := by
  constructor
  · intro t x k hcode hready
    cases t with
    | inl t =>
      obtain ⟨hclient, -⟩ := h.of_cons hcode
      cases x with
      | check netAddr letter =>
        dsimp only [program]
        rw [if_pos letter.legal]
        rfl
      | send netAddr letter chance =>
        exact (Option.isSome_map ..).trans (isSome_send (h.delivering.orderly netAddr).idle)
      | receive netAddr => exact hclient.elim
      | put netAddr mail => exact hclient.elim
      | get netAddr box =>
        have hnonempty : (s.data netAddr).boxes box ≠ [] := by
          intro hempty
          dsimp only [program] at hready
          rw [hempty] at hready
          cases hready
        exact (Option.isSome_map ..).trans ((h.delivering.orderly netAddr).isSome_get hnonempty)
    | inr netAddr =>
      rcases Stage.cases_of_cons (hcode.symm.trans (h.worker netAddr)) with
        ⟨-, hx, -⟩ | ⟨hq, hx, -⟩ | ⟨mail, -, hx, -⟩
      · cases hx
      · cases hx
        obtain ⟨-, mail, hmail⟩ := h.buffered_of_receiving hq
        exact (Option.isSome_map ..).trans
          ((h.delivering.orderly netAddr).isSome_postalDelivery hmail)
      · cases hx
        rfl
  · intro e hpending
    cases e with
    | readPoll netAddr sender =>
      apply (Option.isSome_map ..).trans
      apply (h.delivering.orderly netAddr).isSome_readPoll
      rintro sender ⟨⟩ hempty
      dsimp only [program] at hpending
      change (!((s.data netAddr).socket sender).isEmpty) = true at hpending
      have hempty' : (s.data netAddr).socket sender = [] := hempty
      rw [hempty'] at hpending
      cases hpending
    | sendDone netAddr => rfl

variable [DecidableEq θ]

theorem Serving.of_reachable (h : (system θ numBoxes garbage).Reachable s) :
    ∃ stage, Serving s.view stage := by
  refine invariant_of_step (fun v => ∃ stage, Serving v stage) h ?_
    fun v v' ⟨stage, hv⟩ hstep => hv.step hstep
  refine ⟨fun _ => .waiting, fun _ => nofun, fun _ => rfl, fun _ => le_rfl, fun _ => rfl, ?_⟩
  exact ⟨fun _ => .new _, fun _ _ _ => List.nil_sublist _⟩

/-- **Delivery.**  What has been taken from a mailbox and comes from one sender is part of what that sender
has sent to the mailbox, in order and unchanged; what has been read from a socket is what the postal
worker has received, and the packet in the network device; and no `ASSERT` fails. -/
theorem delivery_in_order (h : (system θ numBoxes garbage).Reachable s) :
    (∀ netAddr sender box,
      (((s.data netAddr).taken box).filter fun mail => mail.pktHdr.fromAddr = sender).Sublist
        ((s.data sender).sent.filter
          fun mail => mail.pktHdr.toAddr = netAddr ∧ mail.mailHdr.toAddr = box)) ∧
      (∀ netAddr, (s.data netAddr).read = (s.data netAddr).received ++ (s.data netAddr).buffered) ∧
        Safe (program θ numBoxes) s := by
  obtain ⟨stage, hserving⟩ := Serving.of_reachable h
  have horderly := hserving.delivering.orderly
  refine ⟨?_, fun netAddr => (horderly netAddr).read, hserving.safe⟩
  intro netAddr sender box
  refine List.Sublist.trans ?_ (hserving.delivering.sublist netAddr sender box)
  have htaken := (horderly netAddr).taken box
  have heq : (((s.data netAddr).taken box).filter fun mail => mail.pktHdr.fromAddr = sender) =
      ((s.data netAddr).taken box).filter
        fun mail => mail.pktHdr.fromAddr = sender ∧ mail.mailHdr.toAddr = box := by
    apply List.filter_congr
    intro mail hmail
    simp [htaken mail hmail]
  rw [heq]
  exact (List.sublist_append_left _ _).filter _

/-- A letter of two bytes to box 2 of machine 1. -/
def postcard : Letter 3 where
  pktHdr := ⟨1, 7, 7⟩
  mailHdr := ⟨2, 0, 2⟩
  data k := if k = 0 then 104 else 105
  legal := by decide

/-- Machine 0 sends the postcard, twice; the first one is lost. -/
def exchange : List (Process.Action (Unit ⊕ NetworkAddress) Interrupt (Call 3)) :=
  let send (lost : Bool) : List (Process.Action (Unit ⊕ NetworkAddress) Interrupt (Call 3)) :=
    [.call (.inl ()) (.send 0 postcard ⟨lost, fun _ => 1, fun _ => 2⟩), .run (.inl ()), .run (.inl ()),
      .run (.inl ()), .run (.inl ()), .run (.inl ()), .interrupt (.sendDone 0), .run (.inl ()),
      .run (.inl ()), .run (.inl ()), .run (.inl ())]
  send true ++ send false ++
    [.interrupt (.readPoll 1 (some 0)), .run (.inr 1), .run (.inr 1), .run (.inr 1),
      .call (.inl ()) (.receive 1 ⟨2, by decide⟩), .run (.inl ())]

/-- Memory is not zero. -/
def unwritten : NetworkAddress → Network × Buf := fun _ => (⟨true, ⟨5, 5, 5⟩, fun _ => 3⟩, fun _ => 4)

def noMail : Process.State (Unit ⊕ NetworkAddress) Sem NetworkAddress (Code 3)
    (NetworkAddress → PostOffice) :=
  ⟨fun _ => Semaphore.new 0, fun _ => Lock.new, start, fun _ => false, fun n => .new (unwritten n)⟩

theorem delivery_in_order_postcard : ∃ s, (system Unit 3 unwritten).Reachable s ∧
    (s.data 1).taken 2 = [⟨⟨1, 0, 14⟩, ⟨2, 0, 2⟩, [104, 105]⟩] ∧ (s.data 0).sent.length = 2 ∧
      (((s.data 1).taken 2).filter fun mail => mail.pktHdr.fromAddr = 0).Sublist
        ((s.data 0).sent.filter fun mail => mail.pktHdr.toAddr = 1 ∧ mail.mailHdr.toAddr = 2) ∧
      Safe (program Unit 3) s := by
  have hexists : (exchange.foldlM (fun s => State.step s (program Unit 3)) noMail).map
      (fun s => ((s.data 1).taken 2, (s.data 0).sent.length)) =
        some ([⟨⟨1, 0, 14⟩, ⟨2, 0, 2⟩, [104, 105]⟩], 2) := by
    decide +kernel
  obtain ⟨s, hs, hlast⟩ := Option.map_eq_some_iff.1 hexists
  obtain ⟨htaken, hsent⟩ := Prod.mk.inj hlast
  have hrun : (system Unit 3 unwritten).Run noMail exchange s := .of_foldlM (fun _ _ _ h => h) hs
  have hreach : (system Unit 3 unwritten).Reachable s := hrun.reachable (.of_init rfl)
  obtain ⟨hsublist, -, hsafe⟩ := delivery_in_order hreach
  exact ⟨s, hreach, htaken, hsent, hsublist 1 0 2, hsafe⟩

end Nachos.PostOffice
