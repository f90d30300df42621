import Nachos.Threads.Utility

/-!
# The network device (`machine/network.cc`)

A packet on the wire is always `MaxWireSize` bytes long: the packet header, `length` bytes of data, and
whatever was in memory after that.  The device has room for one packet that has come in, `inbox`, and
reads no other from the socket as long as `inHdr.length` is not zero.

`Random()` decides whether a packet is lost; here that is an argument, and so is what memory held before
it was written to (`garbage`).
-/

namespace Nachos

open Memory

abbrev NetworkAddress := CInt

/-- The fields `to`, `from` and `length` of `PacketHeader`, and of `MailHeader`.  `length` is unsigned, so
that its value is `toNat`. -/
structure Header where
  toAddr : CInt
  fromAddr : CInt
  length : CInt
  deriving DecidableEq

namespace Header

def word (h : Header) : ℕ → CInt
  | 0 => h.toAddr
  | 1 => h.fromAddr
  | _ => h.length

/-- Three words, one after the other. -/
instance : Layout Header where
  size := 12
  size_pos := by decide
  encode h := Layout.encodeArray h.word
  decode b := ⟨Layout.decodeArray b 0, Layout.decodeArray b 1, Layout.decodeArray b 2⟩
  decode_congr := by
    intro b b' h
    have hword : ∀ i < 3, (Layout.decodeArray b i : CInt) = Layout.decodeArray b' i := by
      intro i hi
      apply Layout.decodeArray_congr
      intro j hj
      change j < 4 at hj
      apply h
      change 4 * i + j < 12
      omega
    rw [hword 0 (by decide), hword 1 (by decide), hword 2 (by decide)]
  decode_encode := by
    intro h
    simp only [Layout.decodeArray_encodeArray]
    rfl
  encode_decode := by
    intro b j hj
    have hcases : j / 4 = 0 ∨ j / 4 = 1 ∨ j / 4 = 2 := by omega
    -- the word that the byte is in is the one that was decoded
    have hword : word ⟨Layout.decodeArray b 0, Layout.decodeArray b 1, Layout.decodeArray b 2⟩ (j / 4) =
        Layout.decodeArray b (j / 4) := by
      rcases hcases with h | h | h <;> rw [h] <;> rfl
    have hbytes := congrFun (Layout.encodeArray_decodeArray (α := CInt) b) j
    unfold Layout.encodeArray at hbytes ⊢
    have hsize : Layout.size CInt = 4 := rfl
    rw [hsize] at hbytes ⊢
    rw [hword]
    exact hbytes

end Header

abbrev PacketHeader := Header

abbrev MaxWireSize : ℕ := 64

abbrev MaxPacketSize : ℕ := MaxWireSize - Layout.size PacketHeader

structure Network where
  sendBusy : Bool
  /-- The header of the packet in `inbox`; `length` is 0 if there is none. -/
  inHdr : PacketHeader
  inbox : Buf

namespace Network

/-- The constructor. -/
def new (garbage : Network) : Network :=
  { garbage with sendBusy := false, inHdr := { garbage.inHdr with length := 0 } }

/-- `CheckPktAvail` on the machine `ident`.  `packet` is what is to be read from the socket, if `PollSocket`
finds anything; the result is the device with the packet, if it is read. -/
def checkPktAvail (n : Network) (ident : NetworkAddress) (packet : Option Buf) : Option (Option Network) :=
  if n.inHdr.length ≠ 0 then some none
  else
    match packet with
    | none => some none
    | some buffer =>
      let inHdr : PacketHeader := Layout.decode buffer
      if inHdr.toAddr = ident ∧ inHdr.length.toNat ≤ MaxPacketSize then
        some (some { n with
          inHdr := inHdr
          inbox := (buffer.offset (Layout.size PacketHeader)).copy n.inbox 0 inHdr.length.toNat })
      else none

def sendDone (n : Network) : Network := { n with sendBusy := false }

/-- `Send` on the machine `ident`: what is sent to the socket of `hdr.to`, unless it is lost. -/
def send (n : Network) (ident : NetworkAddress) (hdr : PacketHeader) (data : Buf) (lost : Bool)
    (garbage : Buf) : Option (Option Buf) :=
  if n.sendBusy = false ∧ 0 < hdr.length.toNat ∧ hdr.length.toNat ≤ MaxPacketSize ∧
      hdr.fromAddr = ident then
    if lost then some none
    else
      let buffer := (Layout.encode hdr).copy garbage 0 (Layout.size PacketHeader)
      some (some (data.copy buffer (Layout.size PacketHeader) hdr.length.toNat))
  else none

/-- `Receive` into `data`: the header, and what is in `data` then. -/
def receive (n : Network) (data : Buf) : PacketHeader × Buf × Network :=
  (n.inHdr, if n.inHdr.length ≠ 0 then n.inbox.copy data 0 n.inHdr.length.toNat else data,
    { n with inHdr := { n.inHdr with length := 0 } })

end Network

end Nachos
