/-!
# Byte strings

Everything that travels is a list of bytes: request and response lines, bodies, ICMP messages, and
the text fields taken out of them.  Text is kept as the bytes of its UTF-8 form, so that every
limit counts bytes.  This file fixes that type, the bytes of a literal text, and the two halves of
a 16-bit word in network order.
-/

namespace NetHost

abbrev Bytes := List UInt8

/-- The UTF-8 bytes of a text. -/
def utf8 (s : String) : Bytes := s.toUTF8.data.toList

namespace Bytes

/-- The 16-bit word with high byte `hi` and low byte `lo`. -/
def word (hi lo : UInt8) : UInt16 := (hi.toUInt16 <<< 8) ||| lo.toUInt16

/-- A 16-bit word in network order: high byte first. -/
def ofWord (w : UInt16) : Bytes := [(w >>> 8).toUInt8, w.toUInt8]

theorem toNat_word (hi lo : UInt8) : (word hi lo).toNat = hi.toNat * 256 + lo.toNat := by
  have hhi := hi.toNat_lt
  have hlo := lo.toNat_lt
  have hfits : hi.toNat <<< 8 < 2 ^ 16 := by
    rw [Nat.shiftLeft_eq]
    omega
  have hshift : (hi.toUInt16 <<< 8).toNat = hi.toNat <<< 8 := by
    rw [UInt16.toNat_shiftLeft, UInt8.toNat_toUInt16]
    exact Nat.mod_eq_of_lt hfits
  rw [word, UInt16.toNat_or, hshift, UInt8.toNat_toUInt16,
    ← Nat.shiftLeft_add_eq_or_of_lt hlo, Nat.shiftLeft_eq]

theorem word_ofWord (w : UInt16) : word (w >>> 8).toUInt8 w.toUInt8 = w := by
  have hlt := w.toNat_lt
  have hhigh : (w >>> 8).toNat = w.toNat / 256 := by
    rw [UInt16.toNat_shiftRight]
    exact Nat.shiftRight_eq_div_pow w.toNat 8
  rw [← UInt16.toNat_inj, toNat_word, UInt16.toNat_toUInt8, UInt16.toNat_toUInt8, hhigh]
  omega

theorem ofWord_word (hi lo : UInt8) : ofWord (word hi lo) = [hi, lo] := by
  have hhi := hi.toNat_lt
  have hlo := lo.toNat_lt
  have hword := toNat_word hi lo
  have hhigh : (word hi lo >>> 8).toUInt8 = hi := by
    rw [← UInt8.toNat_inj, UInt16.toNat_toUInt8, UInt16.toNat_shiftRight, hword]
    show (hi.toNat * 256 + lo.toNat) >>> 8 % 256 = hi.toNat
    rw [Nat.shiftRight_eq_div_pow]
    omega
  have hlow : (word hi lo).toUInt8 = lo := by
    rw [← UInt8.toNat_inj, UInt16.toNat_toUInt8, hword]
    omega
  rw [ofWord, hhigh, hlow]

/-- `part` written over `buffer` from position `pos` on; the bytes outside keep their values. -/
def overwrite (buffer : Bytes) (pos : Nat) (part : Bytes) : Bytes :=
  buffer.take pos ++ part ++ buffer.drop (pos + part.length)

/-- Storing two parts one after the other is storing them joined. -/
theorem store_append (a : Array UInt8) (x y : Bytes) : a ++ (x ++ y) = a ++ x ++ y :=
  Array.ext' (by simp)

theorem store_empty (x : Bytes) : (#[] : Array UInt8) ++ x = x.toArray := by
  rw [List.toArray_appendList, List.nil_append]

theorem size_store (a : Array UInt8) (x : Bytes) : (a ++ x).size = a.size + x.length := by
  rw [← Array.length_toList, Array.toList_appendList, List.length_append, Array.length_toList]

end Bytes

/-- The largest block of memory that can be asked for. -/
def allocationLimit : Nat := 0x7FFFFFFFFFFFFFFF

end NetHost
