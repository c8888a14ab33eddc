import NetHost.Http.Error
import NetHost.Text.Ascii
import NetHost.Text.Utf8
import NetHost.Text.Numeral

/-!
# Chunked bodies

A chunked body is a row of chunks, each a line with its size in hexadecimal (an extension after
`;` is skipped), that many bytes, and the end of a line; a chunk of size zero is the last, and
trailer lines up to an empty one follow it.  Lines end at a line feed, one carriage return before
it is dropped.

The decoder takes pieces of any length.  The data of a chunk it copies as far as a piece has it;
everything else it reads byte by byte.  It stops at the end of the body and leaves what follows
unread.  A refused byte counts as read, and the decoder goes on from there if it is fed again.
-/

namespace NetHost.Http.Chunked

/-- A size or trailer line has at most this many bytes before its line feed. -/
def maxLine : Nat := 8192

inductive Phase where
  /-- The line with the size of a chunk. -/
  | size
  | data (left : Nat)
  /-- The end of the line after the data. -/
  | dataEnd
  /-- The line feed of that end, its carriage return having come. -/
  | dataLineFeed
  /-- The trailer lines after the last chunk. -/
  | trailer
  | done
  deriving DecidableEq, Repr

/-- How many steps a phase takes without reading: one, if a chunk has nothing left to come. -/
def Phase.idle : Phase → Nat
  | data 0 => 1
  | _ => 0

theorem Phase.idle_le (p : Phase) : p.idle ≤ 1 := by
  unfold idle
  split <;> omega

structure Decoder where
  phase : Phase := .size
  /-- The part of a size or trailer line read so far. -/
  line : Array UInt8 := #[]
  /-- The body may not grow longer than this. -/
  maxOutput : Nat
  output : Array UInt8 := #[]
  deriving DecidableEq, Repr

namespace Decoder

def new (maxOutput : Nat) : Decoder := { maxOutput }

def isDone (d : Decoder) : Bool := d.phase == .done

/-- The size that a line gives: the part before the first `;`, in hexadecimal. -/
def readSize (line : Bytes) : Except Error Nat :=
  if Utf8.isValid line then
    match Numeral.hex? (Ascii.trim (line.takeWhile (· ≠ Ascii.semicolon))) with
    | some n => .ok n
    | none => .error .malformed
  else .error .malformed

/-- The end of a size line.  A line that gives no size is kept. -/
def endSize (d : Decoder) : Decoder × Option Error :=
  let line := Ascii.dropCr d.line.toList
  match readSize line with
  | .error e => ({ d with line := line.toArray }, some e)
  | .ok n =>
    if n = 0 then ({ d with line := #[], phase := .trailer }, none)
    else if n > d.maxOutput - d.output.size then ({ d with line := #[] }, some .limitExceeded)
    else ({ d with line := #[], phase := .data n }, none)

/-- The end of a trailer line; an empty one ends the body. -/
def endTrailer (d : Decoder) : Decoder :=
  if (Ascii.dropCr d.line.toList).isEmpty then { d with line := #[], phase := .done }
  else { d with line := #[] }

def addToLine (d : Decoder) (b : UInt8) : Decoder × Option Error :=
  if d.line.size < maxLine then ({ d with line := d.line.push b }, none) else (d, some .malformed)

/-- Reads one byte outside the data of a chunk.  The error, if there is one, comes with the state
the byte leaves. -/
def byte (d : Decoder) (b : UInt8) : Decoder × Option Error :=
  match d.phase with
  | .size => if b = Ascii.lf then d.endSize else d.addToLine b
  | .trailer => if b = Ascii.lf then (d.endTrailer, none) else d.addToLine b
  | .dataEnd =>
    if b = Ascii.cr then ({ d with phase := .dataLineFeed }, none)
    else if b = Ascii.lf then ({ d with phase := .size }, none)
    else (d, some .malformed)
  | .dataLineFeed =>
    if b = Ascii.lf then ({ d with phase := .size }, none) else (d, some .malformed)
  | .data _ => (d, none)
  | .done => (d, none)

/-- Copies bytes of a chunk of which `left` are to come, at most that many. -/
def copy (d : Decoder) (left : Nat) (data : Bytes) : Decoder :=
  { d with
    output := d.output ++ data
    phase := if left ≤ data.length then .dataEnd else .data (left - data.length) }

/-- Reads bytes up to the end of the body or the first error, `n` having been read before. -/
def feedFrom (n : Nat) (d : Decoder) : Bytes → Decoder × Except Error Nat
  | [] => (d, .ok n)
  | b :: s =>
    match _h : d.phase with
    | .done => (d, .ok n)
    | .data left =>
      let data := (b :: s).take left
      feedFrom (n + data.length) (d.copy left data) ((b :: s).drop left)
    | _ =>
      match d.byte b with
      | (d', none) => feedFrom (n + 1) d' s
      | (d', some e) => (d', .error e)
termination_by s => 2 * s.length + d.phase.idle
decreasing_by
  · have := (d.copy left ((b :: s).take left)).phase.idle_le
    rcases Nat.eq_zero_or_pos left with rfl | pos
    · simp [copy, _h, Phase.idle]
    · simp only [List.length_drop, List.length_cons]
      omega
  · have := d'.phase.idle_le
    simp only [List.length_cons]
    omega

/-- Reads bytes up to the end of the body or the first error, and tells how many were read. -/
def feed (d : Decoder) (s : Bytes) : Decoder × Except Error Nat := feedFrom 0 d s

end Decoder

/-- The body that `s` holds in chunked form; it has to be complete. -/
def decode (s : Bytes) (maxOutput : Nat) : Except Error Bytes :=
  match (Decoder.new maxOutput).feed s with
  | (_, .error e) => .error e
  | (d, .ok _) => if d.isDone then .ok d.output.toList else .error .incomplete

example : decode (utf8 "5;x=1\r\nHello\r\n0\r\nt: u\r\n\r\nrest") 5 = .ok (utf8 "Hello") := by cbv

example : decode (utf8 "5\r\nHello\r\n") 5 = .error .incomplete := by cbv

end NetHost.Http.Chunked
