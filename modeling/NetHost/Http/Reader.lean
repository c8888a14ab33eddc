import NetHost.Http.Response
import NetHost.Http.Chunked

/-!
# Reading a response

A response is a status line, header lines, an empty line, and a body that is delimited in one of
three ways: by its announced length, by its chunks, or by the end of the connection.

The reader takes the bytes in whatever pieces they come (`Reader.feed`).  It keeps the part of a
line that a piece ends in, and stores the body as it arrives, save for a chunked one, which its
decoder holds until it is complete.  Any failure is final.  It empties the response and is what
every later call reports.
-/

namespace NetHost.Http

inductive Reader.Phase where
  | statusLine
  | headers
  /-- A body of announced length, with so many bytes to come. -/
  | sized (left : Nat)
  | chunked (decoder : Chunked.Decoder)
  /-- A body that ends with the connection. -/
  | untilClose
  | done
  | failed (cause : Error)
  deriving DecidableEq, Repr

structure Reader where
  /-- Whether the response may have a body; it has none after `HEAD`. -/
  expectBody : Bool
  /-- The body may not grow longer than this. -/
  maxBody : Nat
  phase : Reader.Phase := .statusLine
  /-- The part of a status or header line read so far. -/
  line : Array UInt8 := #[]
  response : Response := {}
  deriving DecidableEq, Repr

inductive Progress where
  | more
  | complete
  deriving DecidableEq, Repr

namespace Reader

/-- A status or header line has at most this many bytes before its line feed. -/
def maxLine : Nat := 8192

/-- Phrases are shorter than this. -/
def maxPhrase : Nat := 64

def defaultMaxBody : Nat := 1024 * 1024

def new (expectBody : Bool) (maxBody : Nat) : Reader := { expectBody, maxBody }

def isDone (r : Reader) : Bool := r.phase == .done

def failure? (r : Reader) : Option Error :=
  match r.phase with
  | .failed e => some e
  | _ => none

/-- The failed reader: nothing of the response is left. -/
def fail (r : Reader) (cause : Error) : Reader :=
  { expectBody := r.expectBody, maxBody := r.maxBody, phase := .failed cause }

def progress (r : Reader) : Except Error Progress :=
  match r.phase with
  | .failed e => .error e
  | .done => .ok .complete
  | _ => .ok .more

/-! ## Lines -/

/-- The code and the phrase of a status line: a version, a code from 100 to 599, and the rest. -/
def readStatusLine (line : Bytes) : Except Error (Nat × Bytes) :=
  let (version, rest) := Ascii.cut Ascii.space line
  let (code, phrase) := Ascii.cut Ascii.space (rest.getD [])
  let phrase := Ascii.trim (phrase.getD [])
  if !(utf8 "HTTP/").isPrefixOf version then .error .malformed
  else match Numeral.decimal? code with
    | none => .error .malformed
    | some code =>
      if code < 100 ∨ 599 < code then .error .malformed
      else if phrase.length ≥ maxPhrase then .error .limitExceeded
      else .ok (code, phrase)

/-- The name and the value of a header line, without the blanks around them. -/
def readHeaderLine (line : Bytes) : Except Error (Bytes × Bytes) :=
  match Ascii.cut Ascii.colon line with
  | (_, none) => .error .malformed
  | (name, some value) =>
    let name := Ascii.trim name
    if name.isEmpty then .error .malformed else .ok (name, Ascii.trim value)

/-- Whether a list of codings, separated by commas, has `chunked` among them. -/
def namesChunked (value : Bytes) : Bool :=
  (value.splitOn Ascii.comma).any fun coding =>
    Ascii.sameIgnoringCase (Ascii.trim coding) (utf8 "chunked")

def addHeader (response : Response) (name value : Bytes) : Except Error Response := do
  let headers ← response.headers.push name value
  let response := { response with headers }
  if Ascii.sameIgnoringCase name (utf8 "Content-Length") then
    match Numeral.decimal? value with
    | some n => return { response with contentLength := some n }
    | none => throw .malformed
  else if Ascii.sameIgnoringCase name (utf8 "Transfer-Encoding") && namesChunked value then
    return { response with chunked := true }
  else return response

/-- How the body is delimited, known once all header fields are.  A response that has no body is
complete; chunks go before an announced length. -/
def bodyPhase (r : Reader) : Except Error Phase :=
  if !r.expectBody || Response.isBodyless r.response.status then .ok .done
  else if r.response.chunked then .ok (.chunked (.new r.maxBody))
  else match r.response.contentLength with
    | none => .ok .untilClose
    | some n =>
      if n > r.maxBody then .error .limitExceeded
      else if n = 0 then .ok .done
      else if n > allocationLimit then .error .outOfMemory
      else .ok (.sized n)

/-- The reader after a complete line, if it accepts that line. -/
def readLine (r : Reader) (line : Bytes) : Except Error Reader :=
  if !Utf8.isValid line then .error .malformed
  else if r.phase = .statusLine then do
    let (status, phrase) ← readStatusLine line
    return { r with phase := .headers, response := { r.response with status, phrase } }
  else if line.isEmpty then do
    let phase ← r.bodyPhase
    return { r with phase }
  else do
    let (name, value) ← readHeaderLine line
    let response ← addHeader r.response name value
    return { r with response }

def endLine (r : Reader) : Except Error Reader :=
  readLine { r with line := #[] } (Ascii.dropCr r.line.toList)

def addToLine (r : Reader) (part : Bytes) : Except Error Reader :=
  if r.line.size + part.length > maxLine then .error .malformed
  else .ok { r with line := r.line ++ part }

/-! ## Bodies -/

def addToBody (r : Reader) (part : Bytes) : Reader :=
  { r with response := { r.response with body := r.response.body ++ part } }

/-- Reads a piece of a body of which `left` bytes are to come. -/
def readSized (r : Reader) (left : Nat) (s : Bytes) : Reader :=
  { r.addToBody (s.take left) with
    phase := if left ≤ s.length then .done else .sized (left - s.length) }

/-- The reader with the decoder `d` of a chunked body.  The body is stored when it is complete. -/
def withDecoder (r : Reader) (d : Chunked.Decoder) : Reader :=
  if d.isDone then { r with phase := .done, response := { r.response with body := d.output } }
  else { r with phase := .chunked d }

def readChunks (r : Reader) (d : Chunked.Decoder) (s : Bytes) : Except Error Reader :=
  match d.feed s with
  | (_, .error e) => .error e
  | (d, .ok _) => .ok (r.withDecoder d)

def readUntilClose (r : Reader) (s : Bytes) : Except Error Reader :=
  if s.length > r.maxBody - r.response.body.size then .error .limitExceeded
  else .ok (r.addToBody s)

/-- Reads a piece of what follows the header.  Bytes after the end of the response change
nothing. -/
def readBody (r : Reader) (s : Bytes) : Except Error Reader :=
  match r.phase with
  | .sized left => .ok (r.readSized left s)
  -- The decoder is taken out while it reads, so that its output can grow in place.
  | .chunked d => { r with phase := .done }.readChunks d s
  | .untilClose => r.readUntilClose s
  | .failed e => .error e
  | _ => .ok r

/-! ## Pieces -/

def inLines (r : Reader) : Bool := r.phase = .statusLine || r.phase = .headers

/-- Reads a piece: the lines it ends, then what it has of the next line or of the body. -/
def step (r : Reader) (s : Bytes) : Except Error Reader :=
  if r.inLines then
    match _h : Ascii.cut Ascii.lf s with
    | (part, none) => r.addToLine part
    | (part, some rest) => do
      let r ← r.addToLine part
      let r ← r.endLine
      r.step rest
  else r.readBody s
termination_by s.length
decreasing_by
  have := congrArg List.length (Ascii.cut_eq Ascii.lf s)
  simp only [_h, List.length_append, List.length_cons] at this
  omega

/-- Reads a piece as it comes from the connection.  After a failure nothing is read. -/
def feed (r : Reader) (s : Bytes) : Reader :=
  match r.phase with
  | .failed _ => r
  | _ =>
    match r.step s with
    | .ok r => r
    | .error e => r.fail e

/-- The connection has ended.  That completes a body that ends with it, and is a failure anywhere
else before the end of the response. -/
def close (r : Reader) : Reader :=
  match r.phase with
  | .done => r
  | .failed _ => r
  | .untilClose => { r with phase := .done }
  | _ => r.fail .incomplete

/-- Reads a response whose bytes have come in full, the connection having ended after them. -/
def readAll (r : Reader) (s : Bytes) : Except Error Response := do
  let r := r.feed s
  match ← r.progress with
  | .complete => return r.response
  | .more =>
    let r := r.close
    let _ ← r.progress
    return r.response

end Reader

/-- The response that `s` holds, its end being that of the connection. -/
def Response.parse (s : Bytes) : Except Error Response :=
  (Reader.new true Reader.defaultMaxBody).readAll s

end NetHost.Http
