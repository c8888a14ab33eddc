import NetHost.Level
import NetHost.Http.Request
import NetHost.Http.Fault

/-!
# Notes of the client

The notes tell of the client becoming ready, of each request, and of how it ended.
-/

namespace NetHost.Http

inductive Note where
  | ready (timeout : UInt32) (maxBody : Nat)
  | requesting (method : Method) (target : Url)
  | notConnected (target : Url) (cause : Fault)
  | rejected (cause : Error)
  | answered (status : Nat) (reason : Bytes) (bodySize : Nat)
  | failed (method : Method) (url : Bytes) (cause : Error)
  deriving DecidableEq, Repr

namespace Note

def level : Note → Level
  | ready .. => .info
  | requesting .. => .debug
  | notConnected .. => .warn
  | rejected .. => .debug
  | answered .. => .debug
  | failed .. => .warn

/-- `host:port`, also where the port is the default one. -/
def hostAndPort (target : Url) : Bytes :=
  target.host ++ Ascii.colon :: Numeral.decimal target.port.toNat

/-- The text of a note, in UTF-8. -/
def text : Note → Bytes
  | ready timeout maxBody =>
    utf8 "http: client ready (timeout " ++ Numeral.decimal timeout.toNat ++ utf8 " ms, body cap " ++
      Numeral.decimal maxBody ++ utf8 " bytes)"
  | requesting method target =>
    utf8 "http: " ++ utf8 method.name ++ Ascii.space :: hostAndPort target ++ target.path
  | notConnected target cause =>
    utf8 "http: connect to " ++ hostAndPort target ++ utf8 " failed: " ++ utf8 cause.message
  | rejected cause => utf8 "http: response rejected: " ++ utf8 cause.message
  | answered status reason bodySize =>
    utf8 "http: " ++ Numeral.decimal status ++ Ascii.space :: reason ++ utf8 " (" ++
      Numeral.decimal bodySize ++ utf8 " bytes)"
  | failed method url cause =>
    utf8 "http: " ++ utf8 method.name ++ Ascii.space :: url ++ utf8 " failed: " ++
      utf8 cause.message

end Note

end NetHost.Http
