import NetHost.Bytes

/-!
# IPv4 addresses and headers

Only what is needed to tell which host a datagram was meant for: the address, and the fields of a
header up to the destination.
-/

namespace NetHost.Ipv4

structure Address where
  a : UInt8
  b : UInt8
  c : UInt8
  d : UInt8
  deriving DecidableEq, Repr

namespace Address

def unspecified : Address := ⟨0, 0, 0, 0⟩

def dotted (x : Address) : String :=
  s!"{x.a.toNat}.{x.b.toNat}.{x.c.toNat}.{x.d.toNat}"

/-- The address in the four bytes from position `i` on. -/
def readAt (data : Bytes) (i : Nat) : Address :=
  ⟨data.getD i 0, data.getD (i + 1) 0, data.getD (i + 2) 0, data.getD (i + 3) 0⟩

def cloudflare : Address := ⟨1, 1, 1, 1⟩

def google : Address := ⟨8, 8, 8, 8⟩

def quad9 : Address := ⟨9, 9, 9, 9⟩

end Address

/-- A header without options has this many bytes. -/
def minHeader : Nat := 20

/-- The fields of a header that tell what a datagram is and where it goes. -/
structure Header where
  /-- Length of the header with its options. -/
  length : Nat
  protocol : UInt8
  timeToLive : UInt8
  source : Address
  destination : Address
  deriving DecidableEq, Repr

/-- The header at the start of a datagram, if the version is 4 and the header is all there. -/
def Header.parse? (data : Bytes) : Option Header :=
  let first := data.getD 0 0
  let length := (first &&& 0x0F).toNat * 4
  if data.length < minHeader ∨ first >>> 4 ≠ 4 ∨ length < minHeader ∨ data.length < length then none
  else some {
    length
    protocol := data.getD 9 0
    timeToLive := data.getD 8 0
    source := .readAt data 12
    destination := .readAt data 16 }

end NetHost.Ipv4
