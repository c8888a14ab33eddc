import NetHost.Ipv4
import NetHost.Time

/-!
# Statistics of a ping session

Echoes sent, answered, lost and failed, and the round-trip times of the answers.  Counts stop at
their largest value.
-/

namespace NetHost.Icmp.Ping

structure Statistics where
  sent : UInt32 := 0
  received : UInt32 := 0
  /-- Echoes that were not answered in time. -/
  lost : UInt32 := 0
  /-- Echoes that could not be sent, or that an error message came back for. -/
  errors : UInt32 := 0
  rttMin : UInt32 := 0
  rttMax : UInt32 := 0
  rttSum : UInt64 := 0
  /-- The average, set when the session ends. -/
  rttAvg : UInt32 := 0
  startTime : Instant := 0
  /-- Zero while the session runs. -/
  endTime : Instant := 0
  destination : Ipv4.Address := .unspecified
  active : Bool := false
  deriving DecidableEq, Repr

namespace Statistics

def start (destination : Ipv4.Address) (now : Instant) : Statistics :=
  { startTime := now, destination, active := true }

def recordSent (s : Statistics) : Statistics := { s with sent := Saturating.add32 s.sent 1 }

def recordLost (s : Statistics) : Statistics := { s with lost := Saturating.add32 s.lost 1 }

def recordError (s : Statistics) : Statistics := { s with errors := Saturating.add32 s.errors 1 }

/-- Counts an answer that took `rtt` milliseconds.  The first one sets the minimum. -/
def recordReply (s : Statistics) (rtt : UInt32) : Statistics :=
  { s with
    received := Saturating.add32 s.received 1
    rttMin := if s.received = 0 ∨ rtt < s.rttMin then rtt else s.rttMin
    rttMax := if s.rttMax < rtt then rtt else s.rttMax
    rttSum := Saturating.add64 s.rttSum rtt.toUInt64 }

/-- The average round-trip time, rounded down; zero without answers. -/
def average (s : Statistics) : UInt32 :=
  if s.received = 0 then 0 else (s.rttSum / s.received.toUInt64).toUInt32

/-- Lost echoes per hundred sent, rounded down. -/
def lossPercent (s : Statistics) : UInt32 :=
  if s.sent = 0 then 0 else (s.lost.toUInt64 * 100 / s.sent.toUInt64).toUInt32

def hasConnectivity (s : Statistics) : Bool := 0 < s.received

def elapsed (s : Statistics) : UInt64 := Saturating.sub64 s.endTime s.startTime

def finish (s : Statistics) (now : Instant) : Statistics :=
  { s with endTime := now, rttAvg := s.average, active := false }

end Statistics

end NetHost.Icmp.Ping
