import NetHost.Checksum
import NetHost.Ipv4
import NetHost.Icmp.Error
import NetHost.Icmp.Kind

/-!
# ICMP messages

A message is a header of eight bytes, with a checksum over the whole message in it, and a body.
In echo messages the second half of the header is an identifier and a sequence number, and the body
is a payload.  In error messages it is unused, and the body quotes the datagram that caused the
error: its IPv4 header and eight bytes more, which is enough to tell which echo it was.
-/

namespace NetHost.Icmp

/-- The number of ICMP in an IPv4 header. -/
def protocolNumber : UInt8 := 1

def headerLength : Nat := 8

/-- The longest payload that an IPv4 datagram can carry. -/
def maxPayload : Nat := 65507

/-- The longest payload that fits one frame. -/
def maxEchoData : Nat := 1472

/-- How many bytes are quoted after the IPv4 header. -/
def quotedData : Nat := 8

structure Header where
  kind : UInt8
  code : UInt8
  checksum : UInt16
  identifier : UInt16
  sequence : UInt16
  deriving DecidableEq, Repr

namespace Header

def parse? : Bytes → Option Header
  | kind :: code :: c₁ :: c₂ :: i₁ :: i₂ :: s₁ :: s₂ :: _ => some {
      kind
      code
      checksum := Bytes.word c₁ c₂
      identifier := Bytes.word i₁ i₂
      sequence := Bytes.word s₁ s₂ }
  | _ => none

def toBytes (h : Header) : Bytes :=
  [h.kind, h.code] ++ Bytes.ofWord h.checksum ++ Bytes.ofWord h.identifier ++
    Bytes.ofWord h.sequence

end Header

/-- What tells an echo from all others: where it went, whose it is, and which one it is. -/
structure EchoKey where
  destination : Ipv4.Address
  identifier : UInt16
  sequence : UInt16
  deriving DecidableEq, Repr

structure Echo where
  identifier : UInt16
  sequence : UInt16
  payload : Bytes
  deriving DecidableEq, Repr

structure Report where
  code : UInt8
  /-- The start of the datagram that caused the error. -/
  datagram : Bytes
  deriving DecidableEq, Repr

/-- The echo request that an error message is about, if it quotes one. -/
def Report.quotedEcho? (r : Report) : Option EchoKey := do
  let ip ← Ipv4.Header.parse? r.datagram
  if ip.protocol = protocolNumber then
    let header ← Header.parse? (r.datagram.drop ip.length)
    if header.kind = Kind.echoRequest.toByte then
      some ⟨ip.destination, header.identifier, header.sequence⟩
    else none
  else none

/-- An intact message. -/
inductive Message where
  | echoRequest (echo : Echo)
  | echoReply (echo : Echo)
  | unreachable (report : Report)
  | timeExceeded (report : Report)
  /-- A message of any other kind, given by its number. -/
  | other (kind code : UInt8)
  deriving DecidableEq, Repr

/-- Reads a message.  Its length and its checksum are looked at before anything else. -/
def Message.decode (data : Bytes) : Except Damage Message :=
  match Header.parse? data with
  | none => .error .truncated
  | some h =>
    if !Checksum.isIntact data then .error .badChecksum
    else
      let body := data.drop headerLength
      .ok (match Kind.ofByte? h.kind with
        | some .echoRequest => .echoRequest ⟨h.identifier, h.sequence, body⟩
        | some .echoReply => .echoReply ⟨h.identifier, h.sequence, body⟩
        | some .unreachable => .unreachable ⟨h.code, body⟩
        | some .timeExceeded => .timeExceeded ⟨h.code, body⟩
        | _ => .other h.kind h.code)

/-! ## Writing messages -/

namespace Packet

def withChecksum : Bytes → Bytes
  | kind :: code :: _ :: _ :: rest =>
    [kind, code] ++ Bytes.ofWord (Checksum.checksum (kind :: code :: 0 :: 0 :: rest)) ++ rest
  | message => message

def echoLength (payloadLength : Nat) : Nat := headerLength + payloadLength

def echo (kind : Kind) (e : Echo) : Bytes :=
  withChecksum (Header.toBytes ⟨kind.toByte, 0, 0, e.identifier, e.sequence⟩ ++ e.payload)

/-- How much of a datagram an error message quotes: all of it, if it is short. -/
def quotedLength (datagram : Bytes) : Nat :=
  let header := match Ipv4.Header.parse? datagram with
    | some ip => ip.length
    | none => Ipv4.minHeader
  min datagram.length (header + quotedData)

def reportLength (datagram : Bytes) : Nat := headerLength + quotedLength datagram

def report (kind : Kind) (r : Report) : Bytes :=
  withChecksum
    (Header.toBytes ⟨kind.toByte, r.code, 0, 0, 0⟩ ++ r.datagram.take (quotedLength r.datagram))

/-- Puts a message at the start of a buffer that has room for it.  The answer is its length, and
comes with the buffer as it is afterwards. -/
def place (buffer message : Bytes) : Except Error Nat × Bytes :=
  if message.length > buffer.length then (.error .invalid, buffer)
  else (.ok message.length, buffer.overwrite 0 message)

def writeEcho (buffer : Bytes) (kind : Kind) (e : Echo) : Except Error Nat × Bytes :=
  if (kind ≠ .echoRequest ∧ kind ≠ .echoReply) ∨ e.payload.length > maxPayload then
    (.error .invalid, buffer)
  else place buffer (echo kind e)

def writeReport (buffer : Bytes) (kind : Kind) (r : Report) : Except Error Nat × Bytes :=
  if kind ≠ .unreachable ∧ kind ≠ .timeExceeded then (.error .invalid, buffer)
  else place buffer (report kind r)

/-- The payload of an echo that has nothing to say: bytes counting up from zero. -/
def filler (n : Nat) : Bytes := (List.range n).map Nat.toUInt8

end Packet

end NetHost.Icmp
