import NetHost.Icmp.Kind

/-!
# Traffic counters

Counts of the messages that came in and went out.  They wrap around, all but the count of
timeouts, which stops at its largest value.
-/

namespace NetHost.Icmp

structure Counters.Received where
  packets : UInt32 := 0
  echoRequests : UInt32 := 0
  echoReplies : UInt32 := 0
  unreachable : UInt32 := 0
  timeExceeded : UInt32 := 0
  /-- Messages of a kind that is not handled. -/
  unknown : UInt32 := 0
  badChecksum : UInt32 := 0
  truncated : UInt32 := 0
  /-- Replies and error messages about no echo in flight. -/
  unmatched : UInt32 := 0
  deriving DecidableEq, Repr

structure Counters.Sent where
  echoRequests : UInt32 := 0
  echoReplies : UInt32 := 0
  unreachable : UInt32 := 0
  timeExceeded : UInt32 := 0
  failures : UInt32 := 0
  deriving DecidableEq, Repr

structure Counters where
  received : Counters.Received := {}
  sent : Counters.Sent := {}
  /-- Echoes that expired in the table. -/
  timeouts : UInt32 := 0
  deriving DecidableEq, Repr

def Counters.Sent.count (s : Counters.Sent) : Kind → Counters.Sent
  | .echoRequest => { s with echoRequests := s.echoRequests + 1 }
  | .echoReply => { s with echoReplies := s.echoReplies + 1 }
  | .unreachable => { s with unreachable := s.unreachable + 1 }
  | .timeExceeded => { s with timeExceeded := s.timeExceeded + 1 }
  | _ => s

end NetHost.Icmp
