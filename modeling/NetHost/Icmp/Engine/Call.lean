import NetHost.Icmp.Engine.Basic

/-!
# Calls of the ICMP engine

A call runs in turns.  `Engine.start` takes it to its end, or to the first point where a packet
has to be handed to the IP layer or the caller has to sleep; there it is suspended, as a `Sending`
or a `Sleeping`, until `Engine.sent` or `Engine.woken` goes on with it.  The engine is free while a
call is suspended: any other call may be made before the first one is resumed, and each resumption
starts from the state and the time it finds.  A turn may look at the clock more than once.
-/

namespace NetHost.Icmp

open Ipv4 (Address)

inductive Call where
  | init
  /-- Timer: frees expired slots, and sends the next echo of a continuous session when due. -/
  | poll
  | report
  | input (source : Address) (packet : Bytes)
  /-- Sends an echo request that nothing keeps track of. -/
  | sendRequest (destination : Address) (echo : Echo)
  | sendReply (destination : Address) (echo : Echo)
  /-- Tells a sender that its datagram cannot be delivered. -/
  | sendUnreachable (destination : Address) (report : Report)
  /-- Tells a sender that its datagram was too long under way. -/
  | sendTimeExceeded (destination : Address) (report : Report)
  /-- Pings with the engine's settings, given how many echoes and how long to wait for each. -/
  | ping (destination : Address) (count timeout : UInt32)
  | pingWith (destination : Address) (config : Ping.Config)
  /-- Starts a continuous session with the engine's settings. -/
  | startPing (destination : Address)
  | startPingWith (destination : Address) (config : Ping.Config)
  | stopPing
  deriving DecidableEq, Repr

/-- What a call answers: a failure, or success, with the statistics where it gives some. -/
abbrev Reply := Except Error (Option Ping.Statistics)

/-- A blocking session, seen from the call that runs it. -/
structure Run where
  destination : Address
  identifier : UInt16
  config : Ping.Config
  /-- The sequence number of the present echo. -/
  sequence : UInt16
  /-- How many echoes come after the present one. -/
  left : Nat
  deriving DecidableEq, Repr

namespace Run

/-- The present echo. -/
def key (r : Run) : EchoKey := ⟨r.destination, r.identifier, r.sequence⟩

def next (r : Run) : Run := { r with sequence := r.sequence + 1, left := r.left - 1 }

end Run

/-- A call suspended while the IP layer takes a packet. -/
inductive Sending where
  | message (kind : Kind) (destination : Address)
  /-- An echo of a continuous session. -/
  | polled (key : EchoKey)
  /-- The present echo of a blocking session. -/
  | pinged (run : Run)
  deriving DecidableEq, Repr

/-- A call suspended while its caller sleeps. -/
inductive Sleeping where
  /-- Waiting for the present echo to be settled. -/
  | awaiting (run : Run)
  /-- Waiting for the present echo to become due. -/
  | pausing (run : Run)
  deriving DecidableEq, Repr

inductive Turn where
  | done (e : Engine) (reply : Reply)
  /-- A packet goes to the IP layer, then `Engine.sent`. -/
  | send (e : Engine) (destination : Address) (packet : Bytes) (rest : Sending)
  /-- The caller sleeps, then `Engine.woken`. -/
  | sleep (e : Engine) (ms : UInt32) (rest : Sleeping)

namespace Engine

/-! ## Single messages -/

def transmit (e : Engine) (destination : Address) (kind : Kind) (packet : Bytes) : Turn :=
  .send e destination packet (.message kind destination)

/-- Sends an echo message with a payload of at most `limit` bytes. -/
def sendEcho (e : Engine) (destination : Address) (kind : Kind) (limit : Nat) (echo : Echo) :
    Turn :=
  if !e.ready then .done e (.error .notReady)
  else if echo.payload.length > limit then .done e (.error .invalid)
  else e.transmit destination kind (Packet.echo kind echo)

/-- Sends an echo request.  Only requests are held to a single frame. -/
def sendRequest (e : Engine) (destination : Address) (echo : Echo) : Turn :=
  e.sendEcho destination .echoRequest maxEchoData echo

/-- Sends an echo reply, which carries whatever the request did. -/
def sendReply (e : Engine) (destination : Address) (echo : Echo) : Turn :=
  e.sendEcho destination .echoReply maxPayload echo

/-- Sends an error message, if its code is one of its kind and there is something to quote. -/
def sendReport (e : Engine) (destination : Address) (kind : Kind) (isCode : Bool)
    (report : Report) : Turn :=
  if !e.ready then .done e (.error .notReady)
  else if !isCode || report.datagram.isEmpty then .done e (.error .invalid)
  else e.transmit destination kind (Packet.report kind report)

/-- Takes a message that came in.  An echo request is answered, and nothing else is. -/
def input (e : Engine) (t : Clock) (source : Address) (packet : Bytes) : Turn :=
  if !e.ready then .done e (.error .notReady)
  else
    let e := { e with counters.received.packets := e.counters.received.packets + 1 }
    let r := e.counters.received
    match Message.decode packet with
    | .error damage => .done (e.drop source damage) (.error damage.toError)
    | .ok (.echoRequest echo) =>
      { e with counters.received.echoRequests := r.echoRequests + 1 }.sendReply source echo
    | .ok (.echoReply echo) =>
      let e := { e with counters.received.echoReplies := r.echoReplies + 1 }
      .done (e.handleReply source echo t.now) (.ok none)
    | .ok (.unreachable report) =>
      let e := { e with counters.received.unreachable := r.unreachable + 1 }
      .done (e.handleReport source .unreachable report) (.ok none)
    | .ok (.timeExceeded report) =>
      let e := { e with counters.received.timeExceeded := r.timeExceeded + 1 }
      .done (e.handleReport source .timeExceeded report) (.ok none)
    | .ok (.other kind code) =>
      let e := { e with counters.received.unknown := r.unknown + 1 }
      .done (e.note (.ignored kind code source)) (.ok none)

/-! ## Ping sessions -/

def echoPacket (key : EchoKey) (config : Ping.Config) : Bytes :=
  Packet.echo .echoRequest
    ⟨key.identifier, key.sequence, Packet.filler config.payloadSize.toNat⟩

def conclude (e : Engine) (t : Clock) (run : Run) : Turn :=
  let e := e.endSession t.now run.identifier
  .done e.summarize (.ok (some e.statistics))

/-- Sends the present echo of a blocking session.  If the session is gone, no echo is sent any
more; the pauses between them are still made. -/
def attempt (e : Engine) (t : Clock) (run : Run) : Turn :=
  if e.owns run.identifier then
    match e.register t.now run.key run.config.timeout with
    | .error cause => .done (e.endSession t.later.now run.identifier) (.error cause)
    | .ok e => .send e run.destination (echoPacket run.key run.config) (.pinged run)
  else if run.left = 0 ∨ run.config.interval = 0 then e.conclude t.later run
  else .sleep e run.config.interval (.pausing run.next)

def proceed (e : Engine) (t : Clock) (run : Run) : Turn :=
  if run.left = 0 then e.conclude t run
  else if run.config.interval = 0 then e.attempt t run.next
  else .sleep e run.config.interval (.pausing run.next)

def await (e : Engine) (t : Clock) (run : Run) : Turn :=
  let e := e.sweep t.now
  if e.pending.contains run.key then .sleep e run.config.pollInterval (.awaiting run)
  else e.proceed t.later run

def pingWith (e : Engine) (t : Clock) (destination : Address) (config : Ping.Config) : Turn :=
  let config := config.normalized
  if config.payloadSize.toNat > maxEchoData then .done e (.error .invalid)
  else match e.beginSession t.now destination .blocking config with
    | (e, .error cause) => .done e (.error cause)
    | (e, .ok identifier) =>
      (e.note (.blockingStarted destination config)).attempt t.later
        { destination, identifier, config, sequence := 0, left := config.count.toNat - 1 }

/-- Sends the next echo of a continuous session, as the session was when it gave the echo out.  If
the session is gone by now, no echo is sent any more. -/
def sendNext (e : Engine) (t : Clock) (s : Ping.Session) : Turn :=
  let key : EchoKey := ⟨s.destination, s.identifier, s.nextSequence⟩
  if e.owns s.identifier then
    match e.register t.now key s.config.timeout with
    | .ok e => .send e s.destination (echoPacket key s.config) (.polled key)
    | .error cause =>
      .done ((e.note (.pingNotSent key cause)).recordError s.identifier) (.ok none)
  else .done e (.ok none)

/-- Frees expired slots, and sends the next echo of a continuous session when it is due.  The next
one is scheduled before this one is sent, so a call made meanwhile does not send it again. -/
def poll (e : Engine) (t : Clock) : Turn :=
  if !e.ready then .done e (.ok none)
  else
    let e := e.sweep t.now
    match e.session with
    | none => .done e (.ok none)
    | some s =>
      if s.mode = .continuous ∧ s.nextSendAt ≤ t.now then
        { e with session := some (s.advance t.now) }.sendNext t.later s
      else .done e (.ok none)

/-- Starts a continuous session and sends its first echo. -/
def startPingWith (e : Engine) (t : Clock) (destination : Address) (config : Ping.Config) : Turn :=
  let config := config.normalized
  if config.payloadSize.toNat > maxEchoData then .done e (.error .invalid)
  else match e.beginSession t.now destination .continuous config with
    | (e, .error cause) => .done e (.error cause)
    | (e, .ok _) => (e.note (.continuousStarted destination config)).poll t.later

def stopPing (e : Engine) (t : Clock) : Turn :=
  if e.session.any (·.mode = .continuous) then
    let e := e.finishSession t.now
    .done e.summarize (.ok (some e.statistics))
  else .done e (.error .invalid)

/-! ## Turns -/

def start (e : Engine) (t : Clock) : Call → Turn
  | .init => .done e.init (.ok none)
  | .poll => e.poll t
  | .report => .done e.report (.ok none)
  | .input source packet => e.input t source packet
  | .sendRequest destination echo => e.sendRequest destination echo
  | .sendReply destination echo => e.sendReply destination echo
  | .sendUnreachable destination report =>
    e.sendReport destination .unreachable (UnreachableReason.ofByte? report.code).isSome report
  | .sendTimeExceeded destination report =>
    e.sendReport destination .timeExceeded (ExpiryReason.ofByte? report.code).isSome report
  | .ping destination count timeout => e.pingWith t destination { e.config with count, timeout }
  | .pingWith destination config => e.pingWith t destination config
  | .startPing destination => e.startPingWith t destination e.config
  | .startPingWith destination config => e.startPingWith t destination config
  | .stopPing => e.stopPing t

/-- Goes on with a call once the IP layer has taken its packet, or has refused it. -/
def sent (e : Engine) (t : Clock) (answer : Except Error Unit) : Sending → Turn
  | .message kind destination =>
    match answer with
    | .ok () => .done (e.countSent kind) (.ok none)
    | .error cause => .done (e.countFailure.note (.sendFailed destination cause)) (.error cause)
  | .polled key =>
    match answer with
    | .ok () => .done (e.countSent .echoRequest) (.ok none)
    | .error cause => .done (e.dropEcho key cause) (.ok none)
  | .pinged run =>
    match answer with
    | .ok () => (e.countSent .echoRequest).await t run
    | .error cause => (e.dropEcho run.key cause).proceed t run

/-- Goes on with a call once its caller has slept. -/
def woken (e : Engine) (t : Clock) : Sleeping → Turn
  | .awaiting run => e.await t run
  | .pausing run => e.attempt t run

end Engine

end NetHost.Icmp
