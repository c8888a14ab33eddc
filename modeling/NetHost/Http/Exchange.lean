import NetHost.Time
import NetHost.Http.Note
import NetHost.Http.Reader

/-!
# Exchanges

A request is one exchange over one connection: connect, send, receive until the response is
complete, close.  The exchange runs in turns.  A `Turn` is either the result or an action that
the embedding system has to take, together with the exchange waiting for its outcome; the functions
`connected`, `sent`, `received`, `awake` and `closed` take that outcome and give the next turn.
Time passes only while an action is taken, so a turn knows one instant.

Once a connection is open, every way to the result leads through one `close`.
-/

namespace NetHost.Http

structure Config where
  /-- Time for a request that names none, in milliseconds. -/
  timeout : UInt32 := 30000
  /-- Longer bodies are refused. -/
  maxBody : Nat := Reader.defaultMaxBody
  /-- How many bytes are asked for at a time. -/
  bufferSize : Nat := 8192
  /-- Sent with the requests that `get`, `post` and `head` build. -/
  userAgent : Bytes := utf8 "Kestrel/1.0"
  /-- Pause before asking again when there was nothing, in milliseconds. -/
  pollInterval : UInt32 := 10
  deriving DecidableEq, Repr

/-- Small buffers and a short time, for checks in a local network. -/
def Config.constrained : Config := { timeout := 5000, maxBody := 64 * 1024, bufferSize := 1024 }

structure Exchange where
  config : Config
  request : Request
  deadline : Deadline
  journal : List Note
  deriving DecidableEq, Repr

inductive Turn where
  /-- Open a connection, then `Exchange.connected`. -/
  | connect (host : Bytes) (port : UInt16) (timeout : UInt32) (x : Exchange) (wire : Bytes)
  /-- Send the request, then `Exchange.sent`. -/
  | send (wire : Bytes) (x : Exchange)
  /-- Receive at most `room` bytes, none meaning that the peer has closed; then
  `Exchange.received`. -/
  | receive (room : Nat) (timeout : UInt32) (x : Exchange) (reader : Reader)
  /-- Wait, then `Exchange.awake`. -/
  | sleep (ms : UInt32) (x : Exchange) (reader : Reader)
  /-- Close the connection, then `Exchange.closed`. -/
  | close (x : Exchange) (result : Except Error Response)
  /-- Nothing: the request has ended. -/
  | finish (result : Except Error Response) (journal : List Note)

namespace Exchange

def note (x : Exchange) (n : Note) : Exchange := { x with journal := x.journal ++ [n] }

/-- Asks for more of the response while there is time. -/
def await (x : Exchange) (reader : Reader) (now : Instant) : Turn :=
  if x.deadline.isExpired now then .close x (.error .timedOut)
  else .receive (max x.config.bufferSize 1) (x.deadline.remaining now) x reader

def reject (x : Exchange) (cause : Error) : Turn := .close (x.note (.rejected cause)) (.error cause)

def connected (x : Exchange) (wire : Bytes) : Except Fault Unit → Turn
  | .error fault =>
    .finish (.error fault.toError) (x.note (.notConnected x.request.target fault)).journal
  | .ok () => .send wire x

/-- After sending: the answer is how many bytes were accepted. -/
def sent (x : Exchange) (wire : Bytes) (answer : Except Fault Nat) (now : Instant) : Turn :=
  match answer with
  | .error fault => .close x (.error fault.toError)
  | .ok n =>
    if n ≠ wire.length then .close x (.error .sendFailed)
    else if max x.config.bufferSize 1 > allocationLimit then .close x (.error .outOfMemory)
    else x.await (.new x.request.method.expectsBody x.config.maxBody) now

/-- After receiving: some bytes, none if the peer has closed, or a fault. -/
def received (x : Exchange) (reader : Reader) (answer : Except Fault Bytes) (now : Instant) :
    Turn :=
  match answer with
  | .ok [] =>
    let reader := reader.close
    match reader.progress with
    | .error e => x.reject e
    | .ok _ => .close x (.ok reader.response)
  | .ok piece =>
    let reader := reader.feed piece
    match reader.progress with
    | .error e => x.reject e
    | .ok .complete => .close x (.ok reader.response)
    | .ok .more => x.await reader now
  | .error .wouldBlock =>
    .sleep (min x.config.pollInterval (x.deadline.remaining now)) x reader
  | .error fault => .close x (.error fault.toError)

def awake (x : Exchange) (reader : Reader) (now : Instant) : Turn := x.await reader now

def ending (x : Exchange) : Except Error Response → Note
  | .ok response => .answered response.status response.reason response.body.size
  | .error e => .failed x.request.method x.request.url e

def closed (x : Exchange) (result : Except Error Response) : Turn :=
  .finish result (x.note (x.ending result)).journal

end Exchange

end NetHost.Http
