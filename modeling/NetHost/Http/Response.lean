import NetHost.Http.Headers
import NetHost.Text.Utf8

/-!
# Responses

What a server answered: status, header fields and body.  The response with every field empty is
what remains of one that could not be read.
-/

namespace NetHost.Http

structure Response where
  /-- Status code, from 100 to 599 in a response that was read. -/
  status : Nat := 0
  /-- The phrase after the code, as the server sent it. -/
  phrase : Bytes := []
  headers : Headers := {}
  body : Array UInt8 := #[]
  chunked : Bool := false
  /-- The length announced for the body. -/
  contentLength : Option Nat := none
  deriving DecidableEq, Repr

namespace Response

def isText (r : Response) : Bool := Utf8.isValid r.body.toList

def isSuccess (r : Response) : Bool := 200 ≤ r.status && r.status < 300

def isRedirect (r : Response) : Bool := 300 ≤ r.status && r.status < 400

def isClientError (r : Response) : Bool := 400 ≤ r.status && r.status < 500

def isServerError (r : Response) : Bool := 500 ≤ r.status && r.status < 600

/-- Whether a response with that status never has a body. -/
def isBodyless (status : Nat) : Bool :=
  (100 ≤ status && status < 200) || status = 204 || status = 304

def defaultPhrase : Nat → String
  | 100 => "Continue"
  | 101 => "Switching Protocols"
  | 200 => "OK"
  | 201 => "Created"
  | 202 => "Accepted"
  | 204 => "No Content"
  | 206 => "Partial Content"
  | 301 => "Moved Permanently"
  | 302 => "Found"
  | 303 => "See Other"
  | 304 => "Not Modified"
  | 307 => "Temporary Redirect"
  | 308 => "Permanent Redirect"
  | 400 => "Bad Request"
  | 401 => "Unauthorized"
  | 403 => "Forbidden"
  | 404 => "Not Found"
  | 405 => "Method Not Allowed"
  | 408 => "Request Timeout"
  | 413 => "Content Too Large"
  | 416 => "Range Not Satisfiable"
  | 500 => "Internal Server Error"
  | 501 => "Not Implemented"
  | 502 => "Bad Gateway"
  | 503 => "Service Unavailable"
  | 504 => "Gateway Timeout"
  | _ => "Unknown"

/-- The server's phrase, or the usual one if it sent none. -/
def reason (r : Response) : Bytes :=
  if r.phrase.isEmpty then utf8 (defaultPhrase r.status) else r.phrase

end Response

end NetHost.Http
