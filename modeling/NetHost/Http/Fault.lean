import NetHost.Http.Error

/-!
# Transport faults

The bytes of a request and its response travel over a connection that the embedding system
supplies.  A fault is what that connection reports in place of an answer.
-/

namespace NetHost.Http

/-- What a transport reports when it does not do what it was asked. -/
inductive Fault where
  | nameNotResolved
  /-- The connection was refused, reset or not established for another reason. -/
  | connectFailed
  | sendFailed
  | receiveFailed
  | timedOut
  /-- There is nothing yet; it is worth asking again. -/
  | wouldBlock
  deriving DecidableEq, Repr

namespace Fault

def message : Fault → String
  | nameNotResolved => "DNS resolution failed"
  | connectFailed => "Connection failed"
  | sendFailed => "Send failed"
  | receiveFailed => "Receive failed"
  | timedOut => "Transport timed out"
  | wouldBlock => "Operation would block"

def toError : Fault → Error
  | nameNotResolved => .nameNotResolved
  | connectFailed => .connectFailed
  | sendFailed => .sendFailed
  | receiveFailed => .receiveFailed
  | timedOut => .timedOut
  | wouldBlock => .timedOut

end Fault

end NetHost.Http
