import NetHost.Bytes

/-!
# The Internet checksum

The checksum of RFC 1071 is the complement of the one's-complement sum of the 16-bit words of the
data, in network order, an odd last byte being the high half of a word.  The sum is kept in 32 bits
and its carry is added back after every word, so it never has more than 16 bits between two words.
-/

namespace NetHost.Checksum

/-- Adds the upper half of a sum to its lower half. -/
def carry (sum : UInt32) : UInt32 := (sum &&& (0xFFFF : UInt32)) + (sum >>> (16 : UInt32))

/-- A sum brought down to 16 bits.  Two carries do, since the first leaves at most 17 bits. -/
def fold (sum : UInt32) : UInt16 := (carry (carry sum)).toUInt16

def addWord (sum : UInt32) (w : UInt16) : UInt32 := carry (sum + w.toUInt32)

def addWords : UInt32 → Bytes → UInt32
  | sum, [] => sum
  | sum, [b] => addWord sum (Bytes.word b 0)
  | sum, hi :: lo :: data => addWords (addWord sum (Bytes.word hi lo)) data

/-- The sum over `data`, continuing from `initial`.  The sum over several pieces is taken piece by
piece as long as each but the last has even length. -/
def sumFrom (initial : UInt32) (data : Bytes) : UInt32 := addWords (fold initial).toUInt32 data

def finish (sum : UInt32) : UInt16 := ~~~ fold sum

def checksum (data : Bytes) : UInt16 := finish (sumFrom 0 data)

/-- Whether `data`, which holds its own checksum, is intact. -/
def isIntact (data : Bytes) : Bool := checksum data = 0

example : checksum [0x00, 0x01, 0xF2, 0x03, 0xF4, 0xF5, 0xF6, 0xF7] = ~~~ 0xDDF2 := by decide

end NetHost.Checksum
