import NetHost.Http.Error
import NetHost.Text.Ascii
import NetHost.Text.Numeral

/-!
# URLs

A URL has the form `http://host[:port][/path]`, the path with its query.  Host and path go as they
are into the request line and the `Host` header, so neither may hold a space or a control byte.
-/

namespace NetHost.Http

structure Url where
  /-- Host name or dotted address. -/
  host : Bytes
  /-- Port, 80 when the URL names none. -/
  port : UInt16
  /-- Path and query, `/` when the URL has none. -/
  path : Bytes
  deriving DecidableEq, Repr

namespace Url

def scheme : Bytes := utf8 "http://"

def defaultPort : UInt16 := 80

/-- URLs are shorter than this. -/
def maxLength : Nat := 2048

def maxHost : Nat := 256

def maxPath : Nat := 1024

/-- Digits name a port from 1 to 65535; any other text stands for the default port. -/
def readPort (text : Bytes) : Except Error UInt16 :=
  if text.isEmpty || !text.all Ascii.isDigit then .ok defaultPort
  else match Numeral.decimal? text with
    | some n => if 1 ≤ n ∧ n ≤ 65535 then .ok n.toUInt16 else .error .invalidUrl
    | none => .error .invalidUrl

/-- The port and the path in what follows a host. -/
def readTail : Bytes → Except Error (UInt16 × Bytes)
  | 0x3A :: t => do
    let port ← readPort (t.takeWhile (· ≠ Ascii.slash))
    return (port, t.dropWhile (· ≠ Ascii.slash))
  | t => .ok (defaultPort, t)

def parse (u : Bytes) : Except Error Url :=
  if u.length ≥ maxLength || !Ascii.sameIgnoringCase (u.take scheme.length) scheme then
    .error .invalidUrl
  else
    let rest := u.drop scheme.length
    let host := rest.takeWhile fun b => b ≠ Ascii.colon && b ≠ Ascii.slash
    if host.isEmpty || host.length ≥ maxHost || !host.all Ascii.isWireSafe then .error .invalidUrl
    else match readTail (rest.drop host.length) with
      | .error e => .error e
      | .ok (port, tail) =>
        let path := if tail.isEmpty then [Ascii.slash] else tail
        if path.length ≥ maxPath || !path.all Ascii.isWireSafe then .error .invalidUrl
        else .ok { host, port, path }

/-- `host[:port]` as the `Host` header has it: the default port is left out. -/
def authority (u : Url) : Bytes :=
  if u.port = defaultPort then u.host
  else u.host ++ Ascii.colon :: Numeral.decimal u.port.toNat

def render (u : Url) : Bytes := scheme ++ u.authority ++ u.path

example : parse (utf8 "HTTP://h:080/a?b") = .ok ⟨utf8 "h", 80, utf8 "/a?b"⟩ := by rfl

example : parse (utf8 "http://h:65536") = .error .invalidUrl := by rfl

end Url

end NetHost.Http
