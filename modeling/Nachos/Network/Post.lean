import Nachos.Machine.Network
import Nachos.Threads.Process

/-!
# The post office (`network/post.cc`)

`PostOffice::Send` puts a mail header in front of the data and hands the result to the network.  On the
receiving machine the poll interrupt reads a packet into the device and posts `messageAvailable`; the
postal worker waits for that, takes the packet out of the device and puts it into the mailbox that it is
addressed to, from which `PostOffice::Receive` takes it.

The machines are told apart by their network addresses.  A socket keeps the datagrams of each sender
in order; in which order those of different senders are read is left open.  `SynchList::Append` and
`Remove` are one step each: a mailbox is a queue, and `Remove` waits until it is not empty.  That the
list behaves like this is shown on its own, in `Threads/Equiv/SynchList`.

`sent`, `read`, `received` and `taken` are a history: the mails that `Network::Send` was called with, those
that came out of the socket, those that the worker got from the device, and those that
`PostOffice::Receive` has returned.
-/

namespace Nachos

open Memory

abbrev MailBoxAddress := CInt

abbrev MailHeader := Header

abbrev MaxMailSize : ℕ := MaxPacketSize - Layout.size MailHeader

/-- What `PostOffice::Send` and `PostalDelivery` check. -/
def MailHeader.Legal (numBoxes : CInt) (h : MailHeader) : Prop :=
  h.length.toNat ≤ MaxMailSize ∧ 0 ≤ h.toAddr.toInt ∧ h.toAddr.toInt < numBoxes.toInt

instance (numBoxes : CInt) (h : MailHeader) : Decidable (MailHeader.Legal numBoxes h) :=
  inferInstanceAs (Decidable (_ ∧ _ ∧ _))

/-- A message in a mailbox; of the array `data` only the first `length` bytes are used. -/
structure Mail where
  pktHdr : PacketHeader
  mailHdr : MailHeader
  data : List Byte
  deriving DecidableEq

namespace Mail

/-- The constructor; what it asserts of the length has been checked where it is called. -/
def new (pktH : PacketHeader) (mailH : MailHeader) (msgData : Buf) : Mail :=
  ⟨pktH, mailH, msgData.first mailH.length.toNat⟩

/-- The mail in a packet with this header and data. -/
def ofPacket (pktHdr : PacketHeader) (data : Buf) : Mail :=
  .new pktHdr (Layout.decode data) (data.offset (Layout.size MailHeader))

/-- The mail in a datagram. -/
def ofWire (buffer : Buf) : Mail :=
  .ofPacket (Layout.decode buffer) (buffer.offset (Layout.size PacketHeader))

end Mail

/-- The arguments of `PostOffice::Send`, with which it is to be called. -/
structure Letter (numBoxes : CInt) where
  pktHdr : PacketHeader
  mailHdr : MailHeader
  data : Buf
  legal : MailHeader.Legal numBoxes mailHdr

/-- What happens to a call of `PostOffice::Send`: whether `Network::Send` loses the packet, and what is in
the memory that `PostOffice::Send` and `Network::Send` allocate. -/
structure Chance where
  lost : Bool
  garbage : Buf
  wireGarbage : Buf

/-- A mailbox there is. -/
abbrev Box (numBoxes : CInt) : Type :=
  { box : MailBoxAddress // 0 ≤ box.toInt ∧ box.toInt < numBoxes.toInt }

structure PostOffice where
  network : Network
  /-- The buffer of `PostalDelivery` -/
  buffer : Buf
  boxes : MailBoxAddress → List Mail
  /-- What the socket holds, for each sender. -/
  socket : NetworkAddress → List Buf
  /-- How many send-done interrupts are pending. -/
  sending : ℕ
  sent : List Mail
  read : List Mail
  received : List Mail
  taken : MailBoxAddress → List Mail

namespace PostOffice

inductive Sem where
  | messageAvailable (netAddr : NetworkAddress)
  | messageSent (netAddr : NetworkAddress)
  deriving DecidableEq

/-- Own code of the threads, on the machine `netAddr`. -/
inductive Code (numBoxes : CInt) where
  /-- `Send`, its two `ASSERT`s -/
  | check (netAddr : NetworkAddress) (letter : Letter numBoxes)
  /-- `Send`, the packet it makes and `network->Send` -/
  | send (netAddr : NetworkAddress) (letter : Letter numBoxes) (chance : Chance)
  /-- `PostalDelivery`, from `network->Receive` to the `new Mail` of `Put` -/
  | receive (netAddr : NetworkAddress)
  /-- The `messages->Append` of `Put` -/
  | put (netAddr : NetworkAddress) (mail : Mail)
  /-- The `messages->Remove` of `Get`, and the rest of `Receive` -/
  | get (netAddr : NetworkAddress) (box : Box numBoxes)

inductive Call (numBoxes : CInt) where
  | send (netAddr : NetworkAddress) (letter : Letter numBoxes) (chance : Chance)
  | receive (netAddr : NetworkAddress) (box : Box numBoxes)

inductive Interrupt where
  /-- `NetworkReadPoll`, with the sender whose datagram is there to be read, if `PollSocket` finds one -/
  | readPoll (netAddr : NetworkAddress) (sender : Option NetworkAddress)
  /-- `NetworkSendDone` -/
  | sendDone (netAddr : NetworkAddress)

/-- The constructor; `garbage` is the device and the buffer of the worker before anything is written to
them. -/
def new (garbage : Network × Buf) : PostOffice where
  network := .new garbage.1
  buffer := garbage.2
  boxes _ := []
  socket _ := []
  sending := 0
  sent := []
  read := []
  received := []
  taken _ := []

/-! ### `Send` -/

/-- "Fill in pktHdr, for the Network layer." -/
def fillIn (netAddr : NetworkAddress) (pktHdr : PacketHeader) (mailHdr : MailHeader) : PacketHeader :=
  { pktHdr with fromAddr := netAddr, length := mailHdr.length + BitVec.ofNat 32 (Layout.size MailHeader) }

/-- "Concatenate MailHeader and data." -/
def concatenate (mailHdr : MailHeader) (data garbage : Buf) : Buf :=
  let buffer := (Layout.encode mailHdr).copy garbage 0 (Layout.size MailHeader)
  data.copy buffer (Layout.size MailHeader) mailHdr.length.toNat

/-- `SendToSocket`, to the socket of another machine or the same. -/
def sendToSocket (w : NetworkAddress → PostOffice) (netAddr toAddr : NetworkAddress) (buffer : Buf) :
    NetworkAddress → PostOffice :=
  Function.update w toAddr { w toAddr with
    socket := Function.update (w toAddr).socket netAddr ((w toAddr).socket netAddr ++ [buffer]) }

/-- The packet that `Send` makes, and the call of `network->Send`. -/
def send {numBoxes : CInt} (w : NetworkAddress → PostOffice) (netAddr : NetworkAddress)
    (letter : Letter numBoxes) (chance : Chance) : Option (NetworkAddress → PostOffice) :=
  let pktHdr := fillIn netAddr letter.pktHdr letter.mailHdr
  let buffer := concatenate letter.mailHdr letter.data chance.garbage
  let p := w netAddr
  let w := Function.update w netAddr { p with
    sending := p.sending + 1
    sent := p.sent ++ [.new pktHdr letter.mailHdr letter.data] }
  match p.network.send netAddr pktHdr buffer chance.lost chance.wireGarbage with
  | none => none
  | some none => some w
  | some (some buffer) => some (sendToSocket w netAddr pktHdr.toAddr buffer)

/-! ### Delivery -/

/-- `Network::CheckPktAvail`, with the call of `IncomingPacket`. -/
def readPoll (p : PostOffice) (netAddr : NetworkAddress) :
    Option NetworkAddress → Option (PostOffice × List Sem)
  | none => (p.network.checkPktAvail netAddr none).map fun _ => (p, [])
  | some sender =>
    match p.socket sender with
    | [] => none
    | buffer :: rest => (p.network.checkPktAvail netAddr (some buffer)).map fun
      | none => (p, [])
      | some network =>
        ({ p with
            network := network
            socket := Function.update p.socket sender rest
            read := p.read ++ [.ofWire buffer] },
          [.messageAvailable netAddr])

/-- `Network::SendDone`, with the call of `PacketSent`. -/
def sendDone (p : PostOffice) (netAddr : NetworkAddress) : PostOffice × List Sem :=
  ({ p with network := p.network.sendDone, sending := p.sending - 1 }, [.messageSent netAddr])

/-- `PostalDelivery`, up to the mail that it puts into a mailbox. -/
def postalDelivery (numBoxes : CInt) (p : PostOffice) : Option (PostOffice × Mail) :=
  let (pktHdr, buffer, network) := p.network.receive p.buffer
  let mailHdr : MailHeader := Layout.decode buffer
  if MailHeader.Legal numBoxes mailHdr then
    some ({ p with
        network := network
        buffer := buffer
        received := p.received ++ [.ofPacket pktHdr buffer] },
      .new pktHdr mailHdr (buffer.offset (Layout.size MailHeader)))
  else none

/-- `MailBox::Put` -/
def put (p : PostOffice) (mail : Mail) : PostOffice :=
  let box := mail.mailHdr.toAddr
  { p with boxes := Function.update p.boxes box (p.boxes box ++ [mail]) }

/-- `PostOffice::Receive` -/
def get (p : PostOffice) (box : MailBoxAddress) : Option PostOffice :=
  match p.boxes box with
  | [] => none
  | mail :: rest =>
    if mail.mailHdr.length.toNat ≤ MaxMailSize then
      some { p with
        boxes := Function.update p.boxes box rest
        taken := Function.update p.taken box (p.taken box ++ [mail]) }
    else none

/-! ### The machines -/

/-- The loop of `PostalDelivery`. -/
def postalWorker {numBoxes : CInt} (netAddr : NetworkAddress) :
    List (Process.Stmt Sem NetworkAddress (Code numBoxes)) :=
  [.p (.messageAvailable netAddr), .own (.receive netAddr)]

/-- The threads that use the post offices, the postal workers and the network's interrupts.  A poll is
always scheduled, and finds a datagram only if there is one.  The lock is the `sendLock` of a machine. -/
def program (θ : Type) (numBoxes : CInt) :
    Process.Program (θ ⊕ NetworkAddress) Sem NetworkAddress (Code numBoxes) Interrupt (Call numBoxes)
      (NetworkAddress → PostOffice) where
  body
    | .send netAddr letter chance =>
      [.own (.check netAddr letter), .acquire netAddr, .own (.send netAddr letter chance),
        .p (.messageSent netAddr), .release netAddr]
    | .receive netAddr box => [.own (.get netAddr box)]
  exec _ x w :=
    match x with
    | .check _ letter => if MailHeader.Legal numBoxes letter.mailHdr then some (w, []) else none
    | .send netAddr letter chance => (send w netAddr letter chance).map fun w => (w, [])
    | .receive netAddr => (postalDelivery numBoxes (w netAddr)).map fun (p, mail) =>
        (Function.update w netAddr p, .own (.put netAddr mail) :: postalWorker netAddr)
    | .put netAddr mail => some (Function.update w netAddr ((w netAddr).put mail), [])
    | .get netAddr box => ((w netAddr).get box).map fun p => (Function.update w netAddr p, [])
  ready x w :=
    match x with
    | .get netAddr box => !((w netAddr).boxes box).isEmpty
    | _ => true
  pending e w :=
    match e with
    | .readPoll _ none => true
    | .readPoll netAddr (some sender) => !((w netAddr).socket sender).isEmpty
    | .sendDone netAddr => 0 < (w netAddr).sending
  handle e w :=
    match e with
    | .readPoll netAddr sender => ((w netAddr).readPoll netAddr sender).map fun (p, posted) =>
        (Function.update w netAddr p, posted)
    | .sendDone netAddr =>
      let (p, posted) := (w netAddr).sendDone netAddr
      some (Function.update w netAddr p, posted)

/-- Every machine has a postal worker, next to any number of threads `θ`. -/
def start {θ : Type} {numBoxes : CInt} :
    θ ⊕ NetworkAddress → List (Process.Stmt Sem NetworkAddress (Code numBoxes))
  | .inl _ => []
  | .inr netAddr => postalWorker netAddr

/-- Machines with `numBoxes` mailboxes each. -/
def system (θ : Type) [DecidableEq θ] (numBoxes : CInt) (garbage : NetworkAddress → Network × Buf) :
    Transition.System (Process.State (θ ⊕ NetworkAddress) Sem NetworkAddress (Code numBoxes)
      (NetworkAddress → PostOffice)) (Process.Action (θ ⊕ NetworkAddress) Interrupt (Call numBoxes)) :=
  Process.system (program θ numBoxes) (fun _ => 0) start fun netAddr => .new (garbage netAddr)

end PostOffice

end Nachos
