import NetHost.Bytes

/-!
# Numerals

Lengths, ports, status codes and chunk sizes are written as plain digit strings, in base ten or
sixteen.  Reading refuses an empty string, a byte that is no digit of the base, and a value that a
64-bit word cannot hold; leading zeros are free.  Writing gives the shortest numeral, with
lower-case letters.
-/

namespace NetHost.Numeral

/-- Values from here on are too large for a length. -/
def limit : Nat := 0x10000000000000000

/-- The value of a digit, letters of either case standing for ten to fifteen. -/
def digit? (b : UInt8) : Option Nat :=
  if 0x30 ≤ b && b ≤ 0x39 then some (b.toNat - 0x30)
  else if 0x61 ≤ b && b ≤ 0x66 then some (b.toNat - 0x61 + 10)
  else if 0x41 ≤ b && b ≤ 0x46 then some (b.toNat - 0x41 + 10)
  else none

/-- The value of the numeral that ends in the digit `b` after one of value `v`. -/
def extend? (base v : Nat) (b : UInt8) : Option Nat :=
  match digit? b with
  | some d => if d < base ∧ v * base + d < limit then some (v * base + d) else none
  | none => none

/-- The value of a numeral in the given base. -/
def read? (base : Nat) (s : Bytes) : Option Nat :=
  if s.isEmpty then none else s.foldlM (extend? base) 0

def decimal? (s : Bytes) : Option Nat := read? 10 s

def hex? (s : Bytes) : Option Nat := read? 16 s

/-- The numeral of `n` in the given base. -/
def render (base n : Nat) : Bytes := (Nat.toDigits base n).map Char.toUInt8

def decimal (n : Nat) : Bytes := render 10 n

def hex (n : Nat) : Bytes := render 16 n

example :
    decimal? (utf8 "007") = some 7 ∧ hex? (utf8 "fFffffffFFFFFFFF") = some 0xFFFFFFFFFFFFFFFF := by
  decide

example : hex? (utf8 "10000000000000000") = none ∧ decimal? (utf8 "+1") = none := by decide

end NetHost.Numeral
