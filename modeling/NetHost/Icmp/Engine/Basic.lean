import NetHost.Icmp.Note

/-!
# The state of the ICMP engine

The engine holds the table of echoes in flight, the ping session that runs, its statistics, and
the traffic counters.  The functions of this file are the steps of which calls are made up; each is
one uninterrupted change of the state at one instant.  What a step has to report goes into the
journal, which is the embedding system's to read and empty.
-/

namespace NetHost.Icmp

open Ipv4 (Address)

structure Engine where
  /-- Settings of the sessions that name none. -/
  config : Ping.Config
  ready : Bool := false
  pending : PendingTable := .empty
  session : Option Ping.Session := none
  /-- Whether a session runs, for those who look without entering the engine. -/
  active : Bool := false
  /-- Statistics of the session that runs, or of the last one. -/
  statistics : Ping.Statistics := {}
  counters : Counters := {}
  /-- How many identifiers were given out, modulo 2 ^ 16. -/
  identifiersUsed : UInt16 := 0
  /-- What was reported and not yet read. -/
  journal : Array Note := #[]
  deriving DecidableEq

namespace Engine

def new (config : Ping.Config) : Engine := { config := config.normalized }

def note (e : Engine) (n : Note) : Engine := { e with journal := e.journal.push n }

/-- Makes the engine ready.  All state is as new, save for the identifiers given out: an answer to
an echo from before must not be taken for one to an echo that is still to come. -/
def init (e : Engine) : Engine :=
  { config := e.config, ready := true, identifiersUsed := e.identifiersUsed,
    journal := e.journal.push .ready }

def owns (e : Engine) (identifier : UInt16) : Bool := e.session.any (·.identifier = identifier)

/-! ## Echoes in flight -/

/-- Counts an expired echo as lost if the session owns it. -/
def loseExpired (e : Engine) (p : PendingEcho) : Engine :=
  if e.owns p.key.identifier then
    { e with statistics := e.statistics.recordLost }.note (.pingTimedOut p.key p.timeout)
  else e

def sweep (e : Engine) (now : Instant) : Engine :=
  let (pending, expired) := e.pending.sweep now
  let e := expired.foldl loseExpired { e with pending }
  { e with counters.timeouts := Saturating.add32 e.counters.timeouts expired.length.toUInt32 }

def recordError (e : Engine) (identifier : UInt16) : Engine :=
  if e.owns identifier then { e with statistics := e.statistics.recordError } else e

def recordReply (e : Engine) (identifier : UInt16) (rtt : UInt32) : Engine :=
  if e.owns identifier then { e with statistics := e.statistics.recordReply rtt } else e

/-- Puts an echo of the session into the table and counts it as sent. -/
def register (e : Engine) (now : Instant) (key : EchoKey) (timeout : UInt32) :
    Except Error Engine :=
  match e.pending.allocate ⟨key, now, timeout⟩ with
  | .error cause => .error cause
  | .ok pending => .ok { e with pending, statistics := e.statistics.recordSent }

def countSent (e : Engine) (kind : Kind) : Engine :=
  { e with counters.sent := e.counters.sent.count kind }

/-- Counts a message that the IP layer did not take. -/
def countFailure (e : Engine) : Engine :=
  { e with counters.sent.failures := e.counters.sent.failures + 1 }

/-- An echo of a session that the IP layer did not take.  It is an error of the session, unless it
has been settled in the meantime. -/
def dropEcho (e : Engine) (key : EchoKey) (cause : Error) : Engine :=
  let e := e.countFailure
  let e := match e.pending.take? key with
    | some (_, pending) => { e with pending }.recordError key.identifier
    | none => e
  e.note (.pingSendFailed key cause)

/-! ## Packets that came in -/

def drop (e : Engine) (source : Address) (damage : Damage) : Engine :=
  let e := match damage with
    | .truncated =>
      { e with counters.received.truncated := e.counters.received.truncated + 1 }
    | .badChecksum =>
      { e with counters.received.badChecksum := e.counters.received.badChecksum + 1 }
  e.note (.dropped source damage)

def countUnmatched (e : Engine) : Engine :=
  { e with counters.received.unmatched := e.counters.received.unmatched + 1 }

/-- An echo reply.  What has expired by now is lost, not late, so the table is swept first. -/
def handleReply (e : Engine) (source : Address) (echo : Echo) (now : Instant) : Engine :=
  let e := e.sweep now
  match e.pending.take? ⟨source, echo.identifier, echo.sequence⟩ with
  | none => e.countUnmatched.note (.unsolicited source echo.identifier echo.sequence)
  | some (p, pending) =>
    let rtt := Saturating.clamp32 (Saturating.sub64 now p.sentAt)
    ({ e with pending }.recordReply echo.identifier rtt).note (.replied source echo.sequence rtt)

/-- An error message: the echo it quotes has failed. -/
def handleReport (e : Engine) (source : Address) (kind : Kind) (report : Report) : Engine :=
  match report.quotedEcho?.bind e.pending.take? with
  | none => e.countUnmatched.note (.unmatched kind source)
  | some (p, pending) =>
    ({ e with pending }.recordError p.key.identifier).note (.reported kind source p.key report.code)

/-! ## Sessions -/

/-- The next identifier.  The multiplier is odd, so every identifier comes up once before one comes
again, and two in a row differ in more than their low bits. -/
def takeIdentifier (e : Engine) : Engine × UInt16 :=
  let n := e.identifiersUsed + 1
  ({ e with identifiersUsed := n }, n * 31421 + 6927)

/-- Starts a session, if the engine is ready and none runs. -/
def beginSession (e : Engine) (now : Instant) (destination : Address) (mode : Ping.Mode)
    (config : Ping.Config) : Engine × Except Error UInt16 :=
  if !e.ready then (e, .error .notReady)
  else if e.session.isSome then (e.note (.sessionRunning destination), .error .busy)
  else
    let (e, identifier) := e.takeIdentifier
    ({ e with
        session := some
          { mode, destination, identifier, nextSequence := 0, config, nextSendAt := now }
        statistics := .start destination now
        active := true },
      .ok identifier)

/-- Ends the session that runs.  Its echoes in flight are lost. -/
def finishSession (e : Engine) (now : Instant) : Engine :=
  match e.session with
  | none => e
  | some session =>
    let (pending, inFlight) := e.pending.removeIdentifier session.identifier
    let statistics := inFlight.foldl (fun s _ => s.recordLost) e.statistics
    { e with pending, session := none, active := false, statistics := statistics.finish now }

def endSession (e : Engine) (now : Instant) (identifier : UInt16) : Engine :=
  if e.owns identifier then e.finishSession now else e

def summarize (e : Engine) : Engine :=
  let s := e.statistics
  let e := e.note (.summary s)
  if 0 < s.received then e.note (.roundTrips s) else e

def report (e : Engine) : Engine :=
  let e := e.note (.receivedTotals e.counters)
  let e := e.note (.dropTotals e.counters)
  let e := e.note (.sentTotals e.counters)
  let e := e.note (.pendingTotals e.pending.count e.counters)
  match e.session with
  | some s => e.note (.session s.mode s.destination s.identifier e.statistics)
  | none => e.note .idle

end Engine

end NetHost.Icmp
