import Nachos.Network.Post

/-!
# The way of a mail

A mail goes from the socket to the network device, from there to the hands of the postal worker, into
the mailbox, and is taken from it.  What is in these places, with what has come furthest first, is
`underWay`.  Every step but `Network::Send` moves a mail from one place to the next and leaves that list as
it is; `Network::Send` adds the mail to the end of the list as well as to the mails sent, or loses it.  So
the list is part of what was sent, in order (`Delivering`).

A header is found again where it was put, and so are the bytes behind it, whatever is in the rest of the
buffers: `Mail.ofPacket` and `Mail.ofWire` read a mail from the bytes.
-/

namespace Nachos

open Memory

/-! ### Packets -/

namespace Mail

/-- A mail is found in the bytes of its header and its data. -/
theorem ofPacket_congr {pktHdr : PacketHeader} {b b' : Buf} {mailHdr : MailHeader}
    (hdecode : Layout.decode b = mailHdr)
    (h : ∀ k < Layout.size MailHeader + mailHdr.length.toNat, b' k = b k) :
    ofPacket pktHdr b' = ofPacket pktHdr b := by
  have hdecode' : Layout.decode b' = mailHdr := by
    rw [← hdecode]
    exact Layout.decode_congr fun j hj => h j (by omega)
  unfold ofPacket new
  rw [hdecode, hdecode']
  congr 1
  exact Bytes.first_congr fun k hk => h _ (by omega)

theorem ofPacket_concatenate (pktHdr : PacketHeader) (mailHdr : MailHeader) (data garbage : Buf) :
    ofPacket pktHdr (PostOffice.concatenate mailHdr data garbage) = new pktHdr mailHdr data := by
  unfold ofPacket PostOffice.concatenate
  rw [Layout.decode_copy_encode]
  unfold new
  congr 1
  exact Bytes.first_congr fun k hk => Bytes.offset_copy hk

/-- What `Network::Send` does to a packet can be undone. -/
theorem ofWire_copy {hdr : PacketHeader} {data garbage : Buf} {n : ℕ} {mailHdr : MailHeader}
    (hdecode : Layout.decode data = mailHdr)
    (hn : Layout.size MailHeader + mailHdr.length.toNat ≤ n) :
    ofWire (data.copy ((Layout.encode hdr).copy garbage 0 (Layout.size PacketHeader))
      (Layout.size PacketHeader) n) = ofPacket hdr data := by
  unfold ofWire
  rw [Layout.decode_copy_encode]
  exact ofPacket_congr hdecode fun k hk => Bytes.offset_copy (by omega)

theorem ofPacket_copy {hdr : PacketHeader} {data dst : Buf} {n : ℕ} {mailHdr : MailHeader}
    (hdecode : Layout.decode data = mailHdr)
    (hn : Layout.size MailHeader + mailHdr.length.toNat ≤ n) :
    ofPacket hdr (data.copy dst 0 n) = ofPacket hdr data := by
  apply ofPacket_congr hdecode
  intro k hk
  rw [Bytes.copy_of_mem (Nat.zero_le k) (by omega), Nat.sub_zero]

/-- The mail can be delivered, and its packet is as long as it has to be. -/
structure Proper (numBoxes : CInt) (mail : Mail) : Prop where
  legal : MailHeader.Legal numBoxes mail.mailHdr
  length : mail.pktHdr.length.toNat = Layout.size MailHeader + mail.mailHdr.length.toNat

namespace Proper

variable {numBoxes : CInt} {mail : Mail}

theorem length_le (h : Proper numBoxes mail) : mail.pktHdr.length.toNat ≤ MaxPacketSize := by
  have hlegal : mail.mailHdr.length.toNat ≤ 40 := h.legal.1
  have hlength : mail.pktHdr.length.toNat = 12 + mail.mailHdr.length.toNat := h.length
  have hmax : MaxPacketSize = 52 := rfl
  omega

theorem length_pos (h : Proper numBoxes mail) : 0 < mail.pktHdr.length.toNat := by
  have hlength : mail.pktHdr.length.toNat = 12 + mail.mailHdr.length.toNat := h.length
  omega

theorem length_ne (h : Proper numBoxes mail) : mail.pktHdr.length ≠ 0 := by
  intro hzero
  have hpos := h.length_pos
  rw [hzero] at hpos
  exact absurd hpos (by decide)

end Proper

end Mail

namespace PostOffice

variable {numBoxes : CInt}

/-- The mail that a call of `Send` is about. -/
def mailOf (netAddr : NetworkAddress) (letter : Letter numBoxes) : Mail :=
  .new (fillIn netAddr letter.pktHdr letter.mailHdr) letter.mailHdr letter.data

theorem proper_mailOf (netAddr : NetworkAddress) (letter : Letter numBoxes) :
    (mailOf netAddr letter).Proper numBoxes := by
  refine ⟨letter.legal, ?_⟩
  have hlegal : letter.mailHdr.length.toNat ≤ 40 := letter.legal.1
  change (letter.mailHdr.length + 12#32).toNat = 12 + letter.mailHdr.length.toNat
  rw [BitVec.toNat_add]
  change (letter.mailHdr.length.toNat + 12) % 2 ^ 32 = _
  omega

/-! ### Mail under way -/

/-- The mail in the network device. -/
def buffered (p : PostOffice) : List Mail :=
  if p.network.inHdr.length = 0 then [] else [.ofPacket p.network.inHdr p.network.inbox]

theorem buffered_of_eq {p : PostOffice} (h : p.network.inHdr.length = 0) : p.buffered = [] := if_pos h

theorem buffered_of_ne {p : PostOffice} (h : p.network.inHdr.length ≠ 0) :
    p.buffered = [.ofPacket p.network.inHdr p.network.inbox] := if_neg h

/-- The mail that a machine has received from `sender` for `box`, from what has been taken to what was sent
last; `hand` is what the postal worker has. -/
def underWay (p : PostOffice) (hand : List Mail) (sender : NetworkAddress) (box : MailBoxAddress) :
    List Mail :=
  (p.taken box ++ (p.boxes box ++ (hand ++ (p.buffered ++ (p.socket sender).map Mail.ofWire)))).filter
    fun mail => mail.pktHdr.fromAddr = sender ∧ mail.mailHdr.toAddr = box

/-- The mail on the machine `netAddr` is as it should be. -/
structure Orderly (numBoxes : CInt) (netAddr : NetworkAddress) (p : PostOffice) (hand : List Mail) :
    Prop where
  idle : p.network.sendBusy = false
  socket : ∀ sender, ∀ buffer ∈ p.socket sender, (Mail.ofWire buffer).Proper numBoxes ∧
    (Mail.ofWire buffer).pktHdr.toAddr = netAddr ∧ (Mail.ofWire buffer).pktHdr.fromAddr = sender
  buffered : ∀ mail ∈ p.buffered, mail.Proper numBoxes
  hand : ∀ mail ∈ hand, mail.Proper numBoxes
  boxes : ∀ box, ∀ mail ∈ p.boxes box, mail.Proper numBoxes ∧ mail.mailHdr.toAddr = box
  taken : ∀ box, ∀ mail ∈ p.taken box, mail.mailHdr.toAddr = box
  read : p.read = p.received ++ p.buffered

/-- From `p` to `p'` mail has been moved from one place to the next. -/
structure Moved (numBoxes : CInt) (netAddr : NetworkAddress) (p p' : PostOffice) (hand hand' : List Mail) :
    Prop where
  orderly : Orderly numBoxes netAddr p' hand'
  sent : p'.sent = p.sent
  underWay : ∀ sender box, p'.underWay hand' sender box = p.underWay hand sender box

variable {netAddr : NetworkAddress} {p p' : PostOffice} {hand : List Mail}

theorem Orderly.new (garbage : Network × Buf) : Orderly numBoxes netAddr (.new garbage) [] where
  idle := rfl
  socket _ := nofun
  buffered := nofun
  hand := nofun
  boxes _ := nofun
  taken _ := nofun
  read := rfl

theorem Orderly.moved (h : Orderly numBoxes netAddr p hand) : Moved numBoxes netAddr p p hand hand :=
  ⟨h, rfl, fun _ _ => rfl⟩

theorem Orderly.sendDone (h : Orderly numBoxes netAddr p hand) :
    Moved numBoxes netAddr p (p.sendDone netAddr).1 hand hand :=
  ⟨⟨rfl, h.socket, h.buffered, h.hand, h.boxes, h.taken, h.read⟩, rfl, fun _ _ => rfl⟩

/-! ### The network device -/

/-- The device with the packet in `buffer`. -/
def filled (n : Network) (buffer : Buf) : Network :=
  let inHdr : PacketHeader := Layout.decode buffer
  { n with
    inHdr := inHdr
    inbox := (buffer.offset (Layout.size PacketHeader)).copy n.inbox 0 inHdr.length.toNat }

theorem checkPktAvail_eq_some {n n' : Network} {packet : Option Buf}
    (h : n.checkPktAvail netAddr packet = some (some n')) :
    n.inHdr.length = 0 ∧ ∃ buffer, packet = some buffer ∧ n' = filled n buffer := by
  unfold Network.checkPktAvail at h
  by_cases hempty : n.inHdr.length = 0
  · refine ⟨hempty, ?_⟩
    rw [if_neg (not_not.2 hempty)] at h
    cases packet with
    | none => cases h
    | some buffer =>
      dsimp only at h
      split_ifs at h
      cases h
      exact ⟨buffer, rfl, rfl⟩
  · rw [if_pos hempty] at h
    cases h

/-- A proper packet passes the `ASSERT` of `CheckPktAvail`. -/
theorem isSome_checkPktAvail (n : Network) {packet : Option Buf}
    (h : ∀ buffer ∈ packet, (Mail.ofWire buffer).Proper numBoxes ∧
      (Mail.ofWire buffer).pktHdr.toAddr = netAddr) :
    (n.checkPktAvail netAddr packet).isSome := by
  unfold Network.checkPktAvail
  split_ifs with hfull
  · rfl
  · cases packet with
    | none => rfl
    | some buffer =>
      obtain ⟨hproper, hto⟩ := h buffer rfl
      dsimp only
      rw [if_pos ⟨hto, hproper.length_le⟩]
      rfl

theorem buffered_filled {n : Network} {buffer : Buf} (h : (Mail.ofWire buffer).Proper numBoxes)
    (hp : p.network = filled n buffer) : p.buffered = [.ofWire buffer] := by
  have hfull : p.network.inHdr.length ≠ 0 := by
    rw [hp]
    exact h.length_ne
  have hlength : Layout.size MailHeader + (Mail.ofWire buffer).mailHdr.length.toNat ≤
      (Layout.decode buffer : PacketHeader).length.toNat := le_of_eq h.length.symm
  rw [buffered_of_ne hfull, hp]
  unfold filled
  dsimp only
  rw [Mail.ofPacket_copy rfl hlength]
  rfl

/-- A packet is read from the socket into the empty device. -/
theorem Orderly.fetch (h : Orderly numBoxes netAddr p hand) {sender : NetworkAddress} {buffer : Buf}
    {rest : List Buf} (hsocket : p.socket sender = buffer :: rest)
    (hempty : p.network.inHdr.length = 0)
    (hp' : p' = { p with
      network := filled p.network buffer
      socket := Function.update p.socket sender rest
      read := p.read ++ [.ofWire buffer] }) :
    Moved numBoxes netAddr p p' hand hand := by
  obtain ⟨hproper, hto, hfrom⟩ := h.socket sender buffer (by rw [hsocket]; exact List.mem_cons_self)
  have hbuffered : p'.buffered = [.ofWire buffer] := by
    apply buffered_filled hproper
    rw [hp']
  have hsocket' : p'.socket = Function.update p.socket sender rest := by rw [hp']
  refine ⟨⟨?_, ?_, ?_, h.hand, ?_, ?_, ?_⟩, ?_, ?_⟩
  · rw [hp']
    exact h.idle
  · intro sender' buffer' hmem
    apply h.socket sender'
    rw [hsocket'] at hmem
    by_cases hs : sender' = sender
    · subst hs
      rw [Function.update_self] at hmem
      rw [hsocket]
      exact List.mem_cons_of_mem _ hmem
    · rwa [Function.update_of_ne hs] at hmem
  · intro mail hmail
    rw [hbuffered] at hmail
    rw [List.mem_singleton.1 hmail]
    exact hproper
  · rw [hp']
    exact h.boxes
  · rw [hp']
    exact h.taken
  · rw [hbuffered, hp']
    dsimp only
    rw [h.read, buffered_of_eq hempty, List.append_nil]
  · rw [hp']
  · intro sender' box
    have htaken : p'.taken = p.taken := by rw [hp']
    have hboxes : p'.boxes = p.boxes := by rw [hp']
    unfold underWay
    rw [hbuffered, hsocket', htaken, hboxes, buffered_of_eq hempty]
    by_cases hs : sender' = sender
    · subst hs
      rw [Function.update_self, hsocket]
      rfl
    · -- the packet is not from this sender
      rw [Function.update_of_ne hs]
      have hother : ¬ ((Mail.ofWire buffer).pktHdr.fromAddr = sender' ∧
          (Mail.ofWire buffer).mailHdr.toAddr = box) := by
        rintro ⟨heq, -⟩
        exact hs (heq.symm.trans hfrom)
      simp [List.filter_append, hother]

theorem Orderly.readPoll (h : Orderly numBoxes netAddr p hand) {sender : Option NetworkAddress}
    {posted : List Sem} (hpoll : p.readPoll netAddr sender = some (p', posted)) :
    Moved numBoxes netAddr p p' hand hand ∧
      ((posted = [] ∧ p' = p) ∨
        posted = [.messageAvailable netAddr] ∧ p.buffered = [] ∧ p'.buffered.length = 1) := by
  cases sender with
  | none =>
    obtain ⟨_, -, heq⟩ := Option.map_eq_some_iff.1 hpoll
    cases heq
    exact ⟨h.moved, Or.inl ⟨rfl, rfl⟩⟩
  | some sender =>
    dsimp only [PostOffice.readPoll] at hpoll
    cases hsocket : p.socket sender with
    | nil =>
      rw [hsocket] at hpoll
      cases hpoll
    | cons buffer rest =>
      rw [hsocket] at hpoll
      obtain ⟨result, hcheck, heq⟩ := Option.map_eq_some_iff.1 hpoll
      cases result with
      | none =>
        cases heq
        exact ⟨h.moved, Or.inl ⟨rfl, rfl⟩⟩
      | some network =>
        cases heq
        obtain ⟨hempty, _, hbuffer, rfl⟩ := checkPktAvail_eq_some hcheck
        cases hbuffer
        have hproper := (h.socket sender buffer (by rw [hsocket]; exact List.mem_cons_self)).1
        refine ⟨h.fetch hsocket hempty rfl, Or.inr ⟨rfl, buffered_of_eq hempty, ?_⟩⟩
        rw [buffered_filled hproper rfl]
        rfl

theorem Orderly.isSome_readPoll (h : Orderly numBoxes netAddr p hand) {sender : Option NetworkAddress}
    (hpending : ∀ a ∈ sender, p.socket a ≠ []) : (p.readPoll netAddr sender).isSome := by
  cases sender with
  | none =>
    have hsome : (p.network.checkPktAvail netAddr none).isSome :=
      @isSome_checkPktAvail numBoxes netAddr p.network none nofun
    exact (Option.isSome_map ..).trans hsome
  | some sender =>
    dsimp only [PostOffice.readPoll]
    cases hsocket : p.socket sender with
    | nil => exact absurd hsocket (hpending sender rfl)
    | cons buffer rest =>
      have hbuffer := h.socket sender buffer (by rw [hsocket]; exact List.mem_cons_self)
      apply (Option.isSome_map ..).trans
      apply @isSome_checkPktAvail numBoxes
      rintro _ ⟨⟩
      exact ⟨hbuffer.1, hbuffer.2.1⟩

/-! ### The postal worker and the mailboxes -/

/-- What the worker gets is the mail in the device. -/
theorem ofPacket_receive {mail : Mail} (hmail : p.buffered = [mail]) (hproper : mail.Proper numBoxes) :
    Mail.ofPacket (p.network.receive p.buffer).1 (p.network.receive p.buffer).2.1 = mail := by
  have hfull : p.network.inHdr.length ≠ 0 := by
    intro hempty
    rw [buffered_of_eq hempty] at hmail
    cases hmail
  rw [buffered_of_ne hfull] at hmail
  obtain rfl := List.singleton_inj.1 hmail
  unfold Network.receive
  dsimp only
  rw [if_pos hfull]
  exact Mail.ofPacket_copy rfl (le_of_eq hproper.length.symm)

theorem Orderly.isSome_postalDelivery (h : Orderly numBoxes netAddr p hand) {mail : Mail}
    (hmail : p.buffered = [mail]) : (p.postalDelivery numBoxes).isSome := by
  have hproper := h.buffered mail (by rw [hmail]; exact List.mem_cons_self)
  have hreceive := ofPacket_receive hmail hproper
  have hlegal := hproper.legal
  rw [← hreceive] at hlegal
  unfold Mail.ofPacket Mail.new at hlegal
  unfold PostOffice.postalDelivery
  dsimp only
  rw [if_pos hlegal]
  rfl

theorem Orderly.postalDelivery (h : Orderly numBoxes netAddr p []) {mail mail' : Mail}
    (hmail : p.buffered = [mail]) (hdelivery : p.postalDelivery numBoxes = some (p', mail')) :
    Moved numBoxes netAddr p p' [] [mail'] ∧ p'.buffered = [] := by
  have hproper := h.buffered mail (by rw [hmail]; exact List.mem_cons_self)
  have hreceive := ofPacket_receive hmail hproper
  unfold PostOffice.postalDelivery at hdelivery
  dsimp only at hdelivery
  split_ifs at hdelivery
  have hpair := Option.some.inj hdelivery
  have hmail' : mail' = mail := (Prod.ext_iff.1 hpair).2.symm.trans hreceive
  have hp' := (Prod.ext_iff.1 hpair).1.symm
  dsimp only at hp'
  rw [hreceive] at hp'
  have hempty : p'.buffered = [] := by
    apply buffered_of_eq
    rw [hp']
    rfl
  rw [hmail']
  refine ⟨⟨⟨?_, ?_, ?_, ?_, ?_, ?_, ?_⟩, ?_, ?_⟩, hempty⟩
  · rw [hp']
    exact h.idle
  · rw [hp']
    exact h.socket
  · rw [hempty]
    nofun
  · intro _ hmem
    rw [List.mem_singleton.1 hmem]
    exact hproper
  · rw [hp']
    exact h.boxes
  · rw [hp']
    exact h.taken
  · rw [hempty, hp', List.append_nil]
    exact hmail ▸ h.read
  · rw [hp']
  · intro sender box
    unfold underWay
    rw [hempty, hmail, hp']
    rfl

theorem Orderly.put {mail : Mail} (h : Orderly numBoxes netAddr p [mail]) :
    Moved numBoxes netAddr p (p.put mail) [mail] [] := by
  have hboxes : (p.put mail).boxes =
      Function.update p.boxes mail.mailHdr.toAddr (p.boxes mail.mailHdr.toAddr ++ [mail]) := rfl
  refine ⟨⟨h.idle, h.socket, h.buffered, nofun, ?_, h.taken, h.read⟩, rfl, ?_⟩
  · intro box mail' hmem
    rw [hboxes] at hmem
    by_cases hbox : box = mail.mailHdr.toAddr
    · rw [hbox, Function.update_self] at hmem
      rcases List.mem_append.1 hmem with hold | hnew
      · rw [hbox]
        exact h.boxes _ _ hold
      · rw [hbox, List.mem_singleton.1 hnew]
        exact ⟨h.hand mail List.mem_cons_self, rfl⟩
    · rw [Function.update_of_ne hbox] at hmem
      exact h.boxes _ _ hmem
  · intro sender box
    have hrest : (p.put mail).taken = p.taken ∧ (p.put mail).buffered = p.buffered ∧
        (p.put mail).socket = p.socket := ⟨rfl, rfl, rfl⟩
    unfold underWay
    rw [hboxes, hrest.1, hrest.2.1, hrest.2.2]
    by_cases hbox : box = mail.mailHdr.toAddr
    · rw [hbox, Function.update_self, List.append_assoc, List.nil_append]
    · -- the mail is not for this box
      rw [Function.update_of_ne hbox]
      have hother : ¬ (mail.pktHdr.fromAddr = sender ∧ mail.mailHdr.toAddr = box) :=
        fun hmail => hbox hmail.2.symm
      simp [List.filter_append, hother]

theorem Orderly.get (h : Orderly numBoxes netAddr p hand) {box : MailBoxAddress}
    (hget : p.get box = some p') :
    Moved numBoxes netAddr p p' hand hand ∧ p'.buffered = p.buffered := by
  unfold PostOffice.get at hget
  cases hbox : p.boxes box with
  | nil =>
    rw [hbox] at hget
    cases hget
  | cons mail rest =>
    rw [hbox] at hget
    dsimp only at hget
    split_ifs at hget
    cases hget
    refine ⟨⟨⟨h.idle, h.socket, h.buffered, h.hand, ?_, ?_, h.read⟩, rfl, ?_⟩, rfl⟩
    · intro box' mail' hmem
      apply h.boxes box'
      dsimp only at hmem
      by_cases hb : box' = box
      · subst hb
        rw [Function.update_self] at hmem
        rw [hbox]
        exact List.mem_cons_of_mem _ hmem
      · rwa [Function.update_of_ne hb] at hmem
    · intro box' mail' hmem
      dsimp only at hmem
      by_cases hb : box' = box
      · subst hb
        rw [Function.update_self] at hmem
        rcases List.mem_append.1 hmem with hold | hnew
        · exact h.taken _ _ hold
        · rw [List.mem_singleton.1 hnew]
          exact (h.boxes box' mail (by rw [hbox]; exact List.mem_cons_self)).2
      · rw [Function.update_of_ne hb] at hmem
        exact h.taken _ _ hmem
    · intro sender box'
      unfold underWay
      dsimp only
      by_cases hb : box' = box
      · subst hb
        rw [Function.update_self, Function.update_self, hbox, List.append_assoc]
        rfl
      · rw [Function.update_of_ne hb, Function.update_of_ne hb]
        rfl

theorem Orderly.isSome_get (h : Orderly numBoxes netAddr p hand) {box : MailBoxAddress}
    (hready : p.boxes box ≠ []) : (p.get box).isSome := by
  unfold PostOffice.get
  cases hbox : p.boxes box with
  | nil => exact absurd hbox hready
  | cons mail rest =>
    have hproper := h.boxes box mail (by rw [hbox]; exact List.mem_cons_self)
    dsimp only
    rw [if_pos hproper.1.legal.1]
    rfl

/-! ### All machines -/

/-- The mail under way to a machine is part of what was sent there, in order. -/
structure Delivering (numBoxes : CInt) (w : NetworkAddress → PostOffice)
    (hand : NetworkAddress → List Mail) : Prop where
  orderly : ∀ netAddr, Orderly numBoxes netAddr (w netAddr) (hand netAddr)
  sublist : ∀ netAddr sender box, ((w netAddr).underWay (hand netAddr) sender box).Sublist
    ((w sender).sent.filter fun mail => mail.pktHdr.toAddr = netAddr ∧ mail.mailHdr.toAddr = box)

variable {w w' : NetworkAddress → PostOffice} {hands : NetworkAddress → List Mail}

theorem Delivering.moved (h : Delivering numBoxes w hands) {hand' : List Mail}
    (hmoved : Moved numBoxes netAddr (w netAddr) p (hands netAddr) hand') :
    Delivering numBoxes (Function.update w netAddr p) (Function.update hands netAddr hand') := by
  have hsent : ∀ sender, (Function.update w netAddr p sender).sent = (w sender).sent := by
    intro sender
    by_cases hs : sender = netAddr
    · rw [hs, Function.update_self, hmoved.sent]
    · rw [Function.update_of_ne hs]
  constructor
  · intro netAddr'
    by_cases hn : netAddr' = netAddr
    · rw [hn, Function.update_self, Function.update_self]
      exact hmoved.orderly
    · rw [Function.update_of_ne hn, Function.update_of_ne hn]
      exact h.orderly netAddr'
  · intro netAddr' sender box
    rw [hsent]
    by_cases hn : netAddr' = netAddr
    · rw [hn, Function.update_self, Function.update_self, hmoved.underWay]
      exact h.sublist netAddr sender box
    · rw [Function.update_of_ne hn, Function.update_of_ne hn]
      exact h.sublist netAddr' sender box

/-- Nothing in the worker's hands changes. -/
theorem Delivering.moved_of_same (h : Delivering numBoxes w hands)
    (hmoved : Moved numBoxes netAddr (w netAddr) p (hands netAddr) (hands netAddr)) :
    Delivering numBoxes (Function.update w netAddr p) hands := by
  have hnew := h.moved hmoved
  rwa [Function.update_eq_self] at hnew

/-! ### Sending -/

/-- The post offices once `mail` is on the list of those sent. -/
def record (w : NetworkAddress → PostOffice) (netAddr : NetworkAddress) (mail : Mail) :
    NetworkAddress → PostOffice :=
  Function.update w netAddr
    { w netAddr with sending := (w netAddr).sending + 1, sent := (w netAddr).sent ++ [mail] }

section

variable {letter : Letter numBoxes} {chance : Chance}

theorem isSome_send (h : (w netAddr).network.sendBusy = false) :
    (send w netAddr letter chance).isSome := by
  have hproper := proper_mailOf netAddr letter
  unfold send Network.send
  dsimp only
  rw [if_pos ⟨h, hproper.length_pos, hproper.length_le, rfl⟩]
  cases chance.lost <;> rfl

/-- The mail is lost, or goes to the socket of the machine it is addressed to. -/
theorem send_cases (h : send w netAddr letter chance = some w') :
    w' = record w netAddr (mailOf netAddr letter) ∨
      ∃ buffer, Mail.ofWire buffer = mailOf netAddr letter ∧
        w' = sendToSocket (record w netAddr (mailOf netAddr letter)) netAddr
          (mailOf netAddr letter).pktHdr.toAddr buffer := by
  have hdecode : Layout.decode (concatenate letter.mailHdr letter.data chance.garbage) = letter.mailHdr :=
    Layout.decode_copy_encode ..
  have hlength : Layout.size MailHeader + letter.mailHdr.length.toNat ≤
      (fillIn netAddr letter.pktHdr letter.mailHdr).length.toNat :=
    le_of_eq (proper_mailOf netAddr letter).length.symm
  unfold send Network.send at h
  dsimp only at h
  split_ifs at h with hassert hlost
  · left
    exact (Option.some.inj h).symm
  · right
    refine ⟨_, ?_, (Option.some.inj h).symm⟩
    rw [Mail.ofWire_copy hdecode hlength, Mail.ofPacket_concatenate]
    rfl

end

section

variable (w netAddr) (mail : Mail) (netAddr' : NetworkAddress)

theorem sent_record : (record w netAddr mail netAddr').sent =
    (w netAddr').sent ++ if netAddr' = netAddr then [mail] else [] := by
  unfold record
  split_ifs with hn
  · rw [hn, Function.update_self]
  · rw [Function.update_of_ne hn, List.append_nil]

/-- Nothing else changes. -/
theorem record_apply : ∃ sending sent,
    record w netAddr mail netAddr' = { w netAddr' with sending := sending, sent := sent } := by
  unfold record
  by_cases hn : netAddr' = netAddr
  · rw [hn, Function.update_self]
    exact ⟨_, _, rfl⟩
  · rw [Function.update_of_ne hn]
    exact ⟨_, _, rfl⟩

theorem underWay_record (sender : NetworkAddress) (box : MailBoxAddress) :
    (record w netAddr mail netAddr').underWay hand sender box =
      (w netAddr').underWay hand sender box := by
  obtain ⟨sending, sent, heq⟩ := record_apply netAddr w mail netAddr'
  rw [heq]
  rfl

theorem buffered_record : (record w netAddr mail netAddr').buffered = (w netAddr').buffered := by
  obtain ⟨sending, sent, heq⟩ := record_apply netAddr w mail netAddr'
  rw [heq]
  rfl

theorem Orderly.record (h : Orderly numBoxes netAddr' (w netAddr') hand) :
    Orderly numBoxes netAddr' (record w netAddr mail netAddr') hand := by
  obtain ⟨sending, sent, heq⟩ := record_apply netAddr w mail netAddr'
  rw [heq]
  exact ⟨h.idle, h.socket, h.buffered, h.hand, h.boxes, h.taken, h.read⟩

variable (toAddr : NetworkAddress) (buffer : Buf)

theorem sendToSocket_apply : sendToSocket w netAddr toAddr buffer netAddr' = { w netAddr' with
    socket := fun sender => (w netAddr').socket sender ++
      if netAddr' = toAddr ∧ sender = netAddr then [buffer] else [] } := by
  unfold sendToSocket
  by_cases hn : netAddr' = toAddr
  · subst hn
    have hsocket : Function.update (w netAddr').socket netAddr ((w netAddr').socket netAddr ++ [buffer]) =
        fun sender => (w netAddr').socket sender ++
          if netAddr' = netAddr' ∧ sender = netAddr then [buffer] else [] := by
      funext sender
      by_cases hs : sender = netAddr
      · rw [hs, Function.update_self, if_pos ⟨rfl, rfl⟩]
      · rw [Function.update_of_ne hs, if_neg (fun h => hs h.2), List.append_nil]
    rw [Function.update_self, hsocket]
  · rw [Function.update_of_ne hn]
    have hsocket : ∀ sender, ((w netAddr').socket sender ++
        if netAddr' = toAddr ∧ sender = netAddr then [buffer] else []) = (w netAddr').socket sender := by
      intro sender
      rw [if_neg (fun h => hn h.1), List.append_nil]
    simp only [hsocket]

theorem underWay_sendToSocket (sender : NetworkAddress) (box : MailBoxAddress) :
    (sendToSocket w netAddr toAddr buffer netAddr').underWay hand sender box =
      (w netAddr').underWay hand sender box ++
        (if netAddr' = toAddr ∧ sender = netAddr then [Mail.ofWire buffer] else []).filter
          fun mail => mail.pktHdr.fromAddr = sender ∧ mail.mailHdr.toAddr = box := by
  rw [sendToSocket_apply]
  unfold underWay
  have hmap : ∀ (c : Prop) [Decidable c], (if c then [buffer] else []).map Mail.ofWire =
      if c then [Mail.ofWire buffer] else [] := by
    intro c _
    split_ifs <;> rfl
  dsimp only
  rw [List.map_append, hmap]
  simp only [← List.append_assoc, List.filter_append]
  rfl

theorem Orderly.sendToSocket (h : Orderly numBoxes netAddr' (w netAddr') hand)
    (hproper : (Mail.ofWire buffer).Proper numBoxes)
    (hto : (Mail.ofWire buffer).pktHdr.toAddr = toAddr)
    (hfrom : (Mail.ofWire buffer).pktHdr.fromAddr = netAddr) :
    Orderly numBoxes netAddr' (sendToSocket w netAddr toAddr buffer netAddr') hand := by
  rw [sendToSocket_apply]
  refine ⟨h.idle, ?_, h.buffered, h.hand, h.boxes, h.taken, h.read⟩
  intro sender buffer' hmem
  rcases List.mem_append.1 hmem with hold | hnew
  · exact h.socket sender buffer' hold
  · split_ifs at hnew with hhere
    · rw [List.mem_singleton.1 hnew, hhere.1, hhere.2]
      exact ⟨hproper, hto, hfrom⟩
    · cases hnew

end

theorem Delivering.send (h : Delivering numBoxes w hands) {letter : Letter numBoxes} {chance : Chance}
    (hsend : send w netAddr letter chance = some w') :
    Delivering numBoxes w' hands ∧ ∀ netAddr', (w' netAddr').buffered = (w netAddr').buffered := by
  have hproper := proper_mailOf netAddr letter
  have hfrom : (mailOf netAddr letter).pktHdr.fromAddr = netAddr := rfl
  -- a mail is added to those sent, and maybe to those under way
  have hsublist : ∀ netAddr' sender box, ((w netAddr').underWay (hands netAddr') sender box).Sublist
      ((record w netAddr (mailOf netAddr letter) sender).sent.filter
        fun mail => mail.pktHdr.toAddr = netAddr' ∧ mail.mailHdr.toAddr = box) := by
    intro netAddr' sender box
    rw [sent_record, List.filter_append]
    exact (h.sublist netAddr' sender box).trans (List.sublist_append_left _ _)
  rcases send_cases hsend with rfl | ⟨buffer, hbuffer, rfl⟩
  · refine ⟨⟨fun netAddr' => (h.orderly netAddr').record .., ?_⟩, fun netAddr' => buffered_record ..⟩
    intro netAddr' sender box
    rw [underWay_record]
    exact hsublist netAddr' sender box
  · refine ⟨⟨?_, ?_⟩, ?_⟩
    · intro netAddr'
      apply Orderly.sendToSocket
      · exact (h.orderly netAddr').record ..
      · rw [hbuffer]
        exact hproper
      · rw [hbuffer]
      · rw [hbuffer]
        exact hfrom
    · intro netAddr' sender box
      rw [underWay_sendToSocket, underWay_record, hbuffer, sendToSocket_apply]
      dsimp only
      by_cases hhere : netAddr' = (mailOf netAddr letter).pktHdr.toAddr ∧ sender = netAddr
      · obtain ⟨rfl, rfl⟩ := hhere
        rw [sent_record, List.filter_append, if_pos ⟨rfl, rfl⟩, if_pos rfl]
        apply (h.sublist _ _ box).append
        simp [List.filter_cons, hfrom]
      · rw [if_neg hhere, List.filter_nil, List.append_nil]
        exact hsublist netAddr' sender box
    · intro netAddr'
      rw [sendToSocket_apply]
      exact buffered_record ..

end PostOffice

end Nachos
