import NetHost.Level
import NetHost.Text.Numeral
import NetHost.Icmp.Counters
import NetHost.Icmp.PendingTable
import NetHost.Icmp.Ping.Session
import NetHost.Icmp.Ping.Statistics

/-!
# Notes of the ICMP engine

The notes tell of the engine becoming ready, of packets that were dropped or matched no echo, and
of the course of ping sessions.
-/

namespace NetHost.Icmp

open Ipv4 (Address)

inductive Note where
  | ready
  | dropped (source : Address) (damage : Damage)
  /-- An echo reply to no echo in flight. -/
  | unsolicited (source : Address) (identifier sequence : UInt16)
  | replied (source : Address) (sequence : UInt16) (rtt : UInt32)
  /-- An error message about no echo in flight. -/
  | unmatched (kind : Kind) (source : Address)
  | reported (kind : Kind) (source : Address) (key : EchoKey) (code : UInt8)
  | ignored (kind code : UInt8) (source : Address)
  | sendFailed (destination : Address) (cause : Error)
  | pingTimedOut (key : EchoKey) (timeout : UInt32)
  | pingSendFailed (key : EchoKey) (cause : Error)
  /-- An echo that was due found no room in the table. -/
  | pingNotSent (key : EchoKey) (cause : Error)
  | sessionRunning (destination : Address)
  | blockingStarted (destination : Address) (config : Ping.Config)
  | continuousStarted (destination : Address) (config : Ping.Config)
  | summary (statistics : Ping.Statistics)
  | roundTrips (statistics : Ping.Statistics)
  | receivedTotals (counters : Counters)
  | dropTotals (counters : Counters)
  | sentTotals (counters : Counters)
  | pendingTotals (inFlight : Nat) (counters : Counters)
  | session (mode : Ping.Mode) (destination : Address) (identifier : UInt16)
      (statistics : Ping.Statistics)
  | idle
  deriving DecidableEq, Repr

namespace Note

def level : Note → Level
  | ready => .info
  | dropped .. => .debug
  | unsolicited .. => .debug
  | replied .. => .debug
  | unmatched .. => .debug
  | reported .. => .warn
  | ignored .. => .debug
  | sendFailed .. => .warn
  | pingTimedOut .. => .debug
  | pingSendFailed .. => .warn
  | pingNotSent .. => .warn
  | sessionRunning .. => .warn
  | blockingStarted .. => .info
  | continuousStarted .. => .info
  | summary .. => .info
  | roundTrips .. => .info
  | receivedTotals .. => .info
  | dropTotals .. => .info
  | sentTotals .. => .info
  | pendingTotals .. => .info
  | session .. => .info
  | idle => .info

/-- The reason that an error message of a given kind gives by its code. -/
def reason : Kind → UInt8 → String
  | .unreachable, code => UnreachableReason.describeByte code
  | _, code => ExpiryReason.describeByte code

def hexWord (w : UInt16) : String :=
  let digits := Nat.toDigits 16 w.toNat
  "0x" ++ String.ofList (List.replicate (4 - digits.length) '0' ++ digits)

def text : Note → String
  | ready => s!"icmp: initialized ({PendingTable.capacity} pending slots)"
  | dropped source damage => s!"icmp: dropped packet from {source.dotted}: {damage.message}"
  | unsolicited source identifier sequence =>
    s!"icmp: unsolicited echo reply from {source.dotted} id={identifier.toNat} " ++
      s!"seq={sequence.toNat}"
  | replied source sequence rtt =>
    s!"icmp: reply from {source.dotted} seq={sequence.toNat} time={rtt.toNat} ms"
  | unmatched kind source =>
    s!"icmp: {kind.describe} from {source.dotted} matches no pending echo"
  | reported kind source key code =>
    s!"icmp: {kind.describe} reported by {source.dotted} for echo to {key.destination.dotted} " ++
      s!"seq={key.sequence.toNat} ({reason kind code})"
  | ignored kind code source =>
    s!"icmp: ignoring {Kind.describeByte kind} (type={kind.toNat} code={code.toNat}) " ++
      s!"from {source.dotted}"
  | sendFailed destination cause => s!"icmp: send to {destination.dotted} failed: {cause.message}"
  | pingTimedOut key timeout =>
    s!"ping {key.destination.dotted}: seq={key.sequence.toNat} timed out after {timeout.toNat} ms"
  | pingSendFailed key cause =>
    s!"ping {key.destination.dotted}: seq={key.sequence.toNat} send failed: {cause.message}"
  | pingNotSent key cause =>
    s!"ping {key.destination.dotted}: seq={key.sequence.toNat} not sent: {cause.message}"
  | sessionRunning destination => s!"ping {destination.dotted}: a session is already running"
  | blockingStarted destination config =>
    s!"PING {destination.dotted}: {config.payloadSize.toNat} data bytes, " ++
      s!"count={config.count.toNat} timeout={config.timeout.toNat} ms"
  | continuousStarted destination config =>
    s!"PING {destination.dotted}: continuous, interval={config.interval.toNat} ms " ++
      s!"timeout={config.timeout.toNat} ms"
  | summary s =>
    s!"--- {s.destination.dotted} ping statistics --- {s.sent.toNat} transmitted, " ++
      s!"{s.received.toNat} received, {s.errors.toNat} errors, {s.lossPercent.toNat}% loss, " ++
      s!"time {s.elapsed.toNat} ms"
  | roundTrips s =>
    s!"rtt min/avg/max = {s.rttMin.toNat}/{s.rttAvg.toNat}/{s.rttMax.toNat} ms"
  | receivedTotals c =>
    s!"icmp rx: {c.received.packets.toNat} packets ({c.received.echoRequests.toNat} echo req, " ++
      s!"{c.received.echoReplies.toNat} echo reply, {c.received.unreachable.toNat} unreachable, " ++
      s!"{c.received.timeExceeded.toNat} time exceeded, {c.received.unknown.toNat} unknown)"
  | dropTotals c =>
    s!"icmp rx drops: {c.received.badChecksum.toNat} checksum, " ++
      s!"{c.received.truncated.toNat} truncated, {c.received.unmatched.toNat} unmatched"
  | sentTotals c =>
    s!"icmp tx: {c.sent.echoRequests.toNat} echo req, {c.sent.echoReplies.toNat} echo reply, " ++
      s!"{c.sent.unreachable.toNat} unreachable, {c.sent.timeExceeded.toNat} time exceeded, " ++
      s!"{c.sent.failures.toNat} failed"
  | pendingTotals inFlight c =>
    s!"icmp pending: {inFlight}/{PendingTable.capacity} slots, {c.timeouts.toNat} timeouts"
  | session mode destination identifier s =>
    s!"ping {mode.name} to {destination.dotted} (id={hexWord identifier}): sent={s.sent.toNat} " ++
      s!"recv={s.received.toNat} lost={s.lost.toNat} errors={s.errors.toNat}"
  | idle => "ping: idle"

end Note

end NetHost.Icmp
