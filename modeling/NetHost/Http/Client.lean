import NetHost.Http.Exchange

/-!
# The client

A client holds the settings that its requests have in common.  Each function that starts a request
gives the first turn of its exchange.
-/

namespace NetHost.Http

/-- A client.  It takes requests once it has been made ready. -/
structure Client where
  config : Config := {}
  ready : Bool := false
  deriving DecidableEq, Repr

namespace Client

def init (c : Client) : Client × Note :=
  ({ c with ready := true }, .ready c.config.timeout c.config.maxBody)

/-- When a request that starts at `now` has run out of time. -/
def deadline (c : Client) (request : Request) (now : Instant) : Deadline :=
  .after now (if request.timeout = 0 then c.config.timeout else request.timeout)

/-- Starts a request.  One that cannot be written opens no connection. -/
def start (c : Client) (request : Request) (now : Instant) : Turn :=
  if !c.ready then .finish (.error .notReady) []
  else match request.resolve with
    | .error e => .finish (.error e) []
    | .ok request =>
      match request.writeTo (List.replicate request.wireSize 0) with
      | (.error e, _) => .finish (.error e) []
      | (.ok _, wire) =>
        let deadline := c.deadline request now
        let target := request.target
        .connect target.host target.port (deadline.remaining now)
          { config := c.config, request, deadline, journal := [.requesting request.method target] }
          wire

/-- The request with a header field that the client supplies unless it is there. -/
def supply (request : Request) (name value : Bytes) : Except Error Request :=
  if request.headers.contains name then .ok request else request.setHeader name value

/-- Starts a request that was just built, with the client's own header fields. -/
def startNew (c : Client) (request : Except Error Request) (now : Instant) : Turn :=
  let request := do
    let request ← request
    let request ← supply request (utf8 "User-Agent") c.config.userAgent
    supply request (utf8 "Connection") (utf8 "close")
  match request with
  | .error e => .finish (.error e) []
  | .ok request => c.start request now

def get (c : Client) (url : Bytes) (now : Instant) : Turn := c.startNew (Request.get url) now

def head (c : Client) (url : Bytes) (now : Instant) : Turn := c.startNew (Request.head url) now

def post (c : Client) (url body : Bytes) (now : Instant) : Turn :=
  c.startNew (Request.post url body) now

end Client

end NetHost.Http
