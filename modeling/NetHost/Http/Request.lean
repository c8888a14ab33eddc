import NetHost.Http.Url
import NetHost.Http.Headers

/-!
# Requests

A request is built from a URL by adding header fields and a body.  Its written form is the request
line, the header fields, a blank line and the body; `Host` and `Content-Length` are supplied
unless the caller has set them.  The form is given as a list of pieces, from which the size
(`wireSize`), the bytes (`wire`) and the copy into a buffer (`writeTo`) are taken.
-/

namespace NetHost.Http

inductive Method where
  | get
  | post
  | head
  | put
  | delete
  deriving DecidableEq, Repr

namespace Method

def name : Method → String
  | get => "GET"
  | post => "POST"
  | head => "HEAD"
  | put => "PUT"
  | delete => "DELETE"

/-- Whether a response to the method has a body; it has none for `HEAD` alone. -/
def expectsBody : Method → Bool
  | head => false
  | _ => true

end Method

structure Request where
  method : Method
  /-- The URL as it was given. -/
  url : Bytes
  /-- The URL taken apart; its host is empty as long as that has not been done. -/
  target : Url
  headers : Headers := {}
  body : Option Bytes := none
  /-- Time for the whole exchange in milliseconds; zero stands for the client's own. -/
  timeout : UInt32 := 30000
  deriving DecidableEq, Repr

namespace Request

def new (method : Method) (url : Bytes) : Except Error Request := do
  let target ← Url.parse url
  return { method, url, target }

def withBody (r : Request) (body : Bytes) : Request := { r with body := some body }

def get (url : Bytes) : Except Error Request := new .get url

def head (url : Bytes) : Except Error Request := new .head url

def post (url body : Bytes) : Except Error Request := do
  let r ← new .post url
  return r.withBody body

/-- Takes the URL apart if the host is not known yet. -/
def resolve (r : Request) : Except Error Request :=
  if r.target.host.isEmpty then do
    let target ← Url.parse r.url
    return { r with target }
  else .ok r

/-- Whether a header field can be written on one line and read back. -/
def isWritable (name value : Bytes) : Bool :=
  !(name.isEmpty || name.contains Ascii.colon || name.any Ascii.isLineBreak ||
    value.any Ascii.isLineBreak)

/-- Adds a header field.  A name set twice is sent twice. -/
def setHeader (r : Request) (name value : Bytes) : Except Error Request :=
  if isWritable name value then do
    let headers ← r.headers.push name value
    return { r with headers }
  else .error .invalidHeader

/-! ## The written form -/

def version : Bytes := utf8 "HTTP/1.1"

def linePieces (name value : Bytes) : List Bytes := [name, utf8 ": ", value, Ascii.crlf]

/-- The pieces of the written form, in order. -/
def pieces (r : Request) : List Bytes :=
  [utf8 r.method.name, [Ascii.space], r.target.path, [Ascii.space], version, Ascii.crlf]
    ++ (if r.headers.contains (utf8 "Host") then []
        else linePieces (utf8 "Host") r.target.authority)
    ++ r.headers.toList.flatMap (fun h => linePieces h.name h.value)
    ++ (match r.body with
        | some body =>
          if r.headers.contains (utf8 "Content-Length") then []
          else linePieces (utf8 "Content-Length") (Numeral.decimal body.length)
        | none => [])
    ++ [Ascii.crlf]
    ++ r.body.toList

def wireSize (r : Request) : Nat := r.pieces.foldl (fun n part => n + part.length) 0

def wire (r : Request) : Bytes := r.pieces.flatten

/-- Copies one piece into a buffer behind those already there. -/
def copyPiece (written : Nat × Bytes) (part : Bytes) : Nat × Bytes :=
  (written.1 + part.length, written.2.overwrite written.1 part)

/-- Writes the request into a buffer, if it fits.  The answer is the length written, and comes
with the buffer as it is afterwards. -/
def writeTo (r : Request) (buffer : Bytes) : Except Error Nat × Bytes :=
  if r.wireSize > buffer.length then (.error .limitExceeded, buffer)
  else
    let (n, buffer) := r.pieces.foldl copyPiece (0, buffer)
    (.ok n, buffer)

end Request

end NetHost.Http
