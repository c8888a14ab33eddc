import NetHost.Http.Error
import NetHost.Text.Ascii
import NetHost.Text.Utf8
import NetHost.Text.Numeral

/-!
# Percent coding

Text in a query is written with the bytes that need no escape as they are, a space as `+`, and
every other byte as `%` and two hexadecimal digits in upper case.  Both directions work under a
limit on the length of their result.
-/

namespace NetHost.Http.Percent

/-- Letters, digits and `-`, `_`, `.`, `~` stand for themselves. -/
def isUnreserved (b : UInt8) : Bool :=
  Ascii.isUpper b || Ascii.isLower b || Ascii.isDigit b ||
    b = 0x2D || b = 0x5F || b = 0x2E || b = 0x7E

/-- The upper-case hexadecimal digit of a value below sixteen. -/
def hexDigit (n : UInt8) : UInt8 := if n < 10 then 0x30 + n else 0x41 + (n - 10)

def escape (b : UInt8) : Bytes :=
  if isUnreserved b then [b]
  else if b = Ascii.space then [Ascii.plus]
  else [Ascii.percent, hexDigit (b >>> 4), hexDigit (b &&& 0x0F)]

/-- `out` with one more byte written after it, unless that takes it past the limit. -/
def put (limit : Nat) (out : Array UInt8) (b : UInt8) : Except Error (Array UInt8) :=
  if out.size + (escape b).length > limit then .error .limitExceeded else .ok (out ++ escape b)

/-- The written form of `s`, if it has at most `limit` bytes. -/
def encode (s : Bytes) (limit : Nat) : Except Error Bytes :=
  match s.foldlM (put limit) #[] with
  | .ok out => .ok out.toList
  | .error e => .error e

/-- The value of an escape with the given two digits. -/
def unescape? (hi lo : UInt8) : Option UInt8 :=
  match Numeral.hex? [hi, lo] with
  | some n => some n.toUInt8
  | none => none

/-- Reads a written form after `out`.  An escape is looked at before the limit is, so a bad escape
just past the limit is a bad escape. -/
def decodeFrom (limit : Nat) (out : Array UInt8) : Bytes → Except Error (Array UInt8)
  | [] => .ok out
  | 0x25 :: hi :: lo :: s =>
    match unescape? hi lo with
    | none => .error .invalidUrl
    | some b => if out.size = limit then .error .limitExceeded else decodeFrom limit (out.push b) s
  | b :: s =>
    if b = Ascii.percent then .error .invalidUrl
    else if out.size = limit then .error .limitExceeded
    else decodeFrom limit (out.push (if b = Ascii.plus then Ascii.space else b)) s

/-- The text that `s` is a written form of, which has to be UTF-8 of at most `limit` bytes. -/
def decode (s : Bytes) (limit : Nat) : Except Error Bytes :=
  match decodeFrom limit #[] s with
  | .error e => .error e
  | .ok out => if Utf8.isValid out.toList then .ok out.toList else .error .invalidUrl

example : encode (utf8 "a b&c") 64 = .ok (utf8 "a+b%26c") := by rfl

example : decode (utf8 "a+b%26c") 5 = .ok (utf8 "a b&c") := by rfl

end NetHost.Http.Percent
