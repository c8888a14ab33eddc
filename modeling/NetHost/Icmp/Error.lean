/-!
# Failures of the ICMP engine

Each failure is a cause, with a negative status code and a text of its own.
-/

namespace NetHost.Icmp

inductive Error where
  /-- A packet buffer was refused. -/
  | outOfMemory
  /-- An argument is out of range, or a packet that came in was dropped. -/
  | invalid
  | timedOut
  | unreachable
  | noRoute
  /-- A ping session is running already, or too many echoes are in flight. -/
  | busy
  | notReady
  deriving DecidableEq, Repr

namespace Error

/-- The status code of a failure; codes are distinct and negative. -/
def code : Error → Int
  | outOfMemory => -1
  | invalid => -2
  | timedOut => -3
  | unreachable => -4
  | noRoute => -5
  | busy => -6
  | notReady => -7

def message : Error → String
  | outOfMemory => "out of memory"
  | invalid => "invalid argument"
  | timedOut => "request timed out"
  | unreachable => "destination unreachable"
  | noRoute => "no route to destination"
  | busy => "too many outstanding requests"
  | notReady => "ICMP not initialized"

end Error

/-- Why a packet is dropped before its kind is looked at. -/
inductive Damage where
  | truncated
  | badChecksum
  deriving DecidableEq, Repr

namespace Damage

def message : Damage → String
  | truncated => "truncated ICMP packet"
  | badChecksum => "ICMP checksum mismatch"

/-- What the caller is told about a dropped packet. -/
def toError : Damage → Error
  | _ => .invalid

end Damage

end NetHost.Icmp
