import NetHost.Ipv4
import NetHost.Time
import NetHost.Icmp.Ping.Config

/-!
# Ping sessions

A session pings one destination under one identifier.  It is blocking, and run by the call that
waits for it, or continuous, and driven by a timer.  A continuous session carries its own schedule.
-/

namespace NetHost.Icmp.Ping

inductive Mode where
  /-- So many echoes, each waited for, while the caller waits. -/
  | blocking
  /-- One echo per interval until it is stopped. -/
  | continuous
  deriving DecidableEq, Repr

def Mode.name : Mode → String
  | blocking => "Blocking"
  | continuous => "Continuous"

structure Session where
  mode : Mode
  destination : Ipv4.Address
  identifier : UInt16
  /-- Continuous sessions: the sequence number of the next echo. -/
  nextSequence : UInt16
  config : Config
  /-- Continuous sessions: when the next echo is due. -/
  nextSendAt : Instant
  deriving DecidableEq, Repr

/-- The session after its next echo was given out at `now`.  The one after it is due one interval
after this one was, or after `now` if that has passed: a session that fell behind does not catch
up. -/
def Session.advance (s : Session) (now : Instant) : Session :=
  let interval := s.config.interval.toUInt64
  let next := Saturating.add64 s.nextSendAt interval
  { s with
    nextSequence := s.nextSequence + 1
    nextSendAt := if next ≤ now then now + interval else next }

end NetHost.Icmp.Ping
