import NetHost.Bytes

/-!
# ASCII classes of bytes

HTTP framing is ASCII: blanks are trimmed, names are compared without regard to the case of
letters, and lines are cut at single bytes.  Bytes from 0x80 on belong to no class here, so a byte
inside a longer UTF-8 character is never taken for a delimiter.
-/

namespace NetHost.Ascii

abbrev lf : UInt8 := 0x0A

abbrev cr : UInt8 := 0x0D

abbrev space : UInt8 := 0x20

abbrev percent : UInt8 := 0x25

abbrev plus : UInt8 := 0x2B

abbrev comma : UInt8 := 0x2C

abbrev slash : UInt8 := 0x2F

abbrev colon : UInt8 := 0x3A

abbrev semicolon : UInt8 := 0x3B

def crlf : Bytes := [cr, lf]

/-- Tab, line feed, form feed, carriage return and space. -/
def isBlank (b : UInt8) : Bool := b = 0x09 || b = 0x0A || b = 0x0C || b = 0x0D || b = 0x20

def isDigit (b : UInt8) : Bool := 0x30 ≤ b && b ≤ 0x39

def isUpper (b : UInt8) : Bool := 0x41 ≤ b && b ≤ 0x5A

def isLower (b : UInt8) : Bool := 0x61 ≤ b && b ≤ 0x7A

def isLineBreak (b : UInt8) : Bool := b = cr || b = lf

/-- A byte that can stand in a request line or a host name: neither a control byte, nor a space,
nor DEL. -/
def isWireSafe (b : UInt8) : Bool := 0x20 < b && b ≠ 0x7F

/-- The lower-case form of an upper-case letter; any other byte as it is. -/
def toLower (b : UInt8) : UInt8 := if isUpper b then b + 0x20 else b

/-- Equality that does not tell upper-case letters from lower-case ones. -/
def sameIgnoringCase (a b : Bytes) : Bool := a.map toLower == b.map toLower

/-- `s` without the blanks at its two ends. -/
def trim (s : Bytes) : Bytes := ((s.dropWhile isBlank).reverse.dropWhile isBlank).reverse

/-- The part of `s` before its first `sep`, and what follows that `sep` if there is one. -/
def cut (sep : UInt8) (s : Bytes) : Bytes × Option Bytes :=
  (s.takeWhile (· ≠ sep), (s.dropWhile (· ≠ sep)).tail?)

/-- A line without the one carriage return that may end it. -/
def dropCr (line : Bytes) : Bytes := if line.getLast? = some cr then line.dropLast else line

theorem sameIgnoringCase_refl (a : Bytes) : sameIgnoringCase a a = true := by
  simp [sameIgnoringCase]

theorem length_eq_of_sameIgnoringCase {a b : Bytes} (h : sameIgnoringCase a b = true) :
    a.length = b.length := by
  simpa using congrArg List.length (eq_of_beq h)

/-- What `cut` takes apart is the whole text. -/
theorem cut_eq (sep : UInt8) (s : Bytes) :
    s = (cut sep s).1 ++ (match (cut sep s).2 with | none => [] | some r => sep :: r) := by
  induction s with
  | nil => rfl
  | cons b s ih =>
    by_cases h : b = sep
    · subst h; simp [cut]
    · have e : cut sep (b :: s) = (b :: (cut sep s).1, (cut sep s).2) := by simp [cut, h]
      rw [e]
      exact congrArg (b :: ·) ih

/-- The separator does not occur before the cut. -/
theorem not_mem_cut_fst (sep : UInt8) (s : Bytes) : sep ∉ (cut sep s).1 := by
  induction s with
  | nil => simp [cut]
  | cons b s ih =>
    by_cases h : b = sep
    · simp [cut, h]
    · have e : (cut sep (b :: s)).1 = b :: (cut sep s).1 := by simp [cut, h]
      rw [e, List.mem_cons, not_or]
      exact ⟨Ne.symm h, ih⟩

/-- A text without the separator goes into the first part. -/
theorem cut_append {sep : UInt8} {p : Bytes} (h : sep ∉ p) (t : Bytes) :
    cut sep (p ++ t) = (p ++ (cut sep t).1, (cut sep t).2) := by
  induction p with
  | nil => rfl
  | cons b p ih =>
    rw [List.mem_cons, not_or] at h
    obtain ⟨hb, hp⟩ := h
    have e : cut sep (b :: (p ++ t)) = (b :: (cut sep (p ++ t)).1, (cut sep (p ++ t)).2) := by
      simp [cut, Ne.symm hb]
    rw [List.cons_append, e, ih hp]
    rfl

theorem cut_cons_self (sep : UInt8) (r : Bytes) : cut sep (sep :: r) = ([], some r) := by
  simp [cut]

/-- Without the separator, the cut is made in what follows. -/
theorem cut_append_of_none {sep : UInt8} {s p : Bytes} (h : cut sep s = (p, none)) (t : Bytes) :
    cut sep (s ++ t) = (p ++ (cut sep t).1, (cut sep t).2) := by
  have hp : sep ∉ p := by simpa [h] using not_mem_cut_fst sep s
  have hs : s = p := by simpa [h] using cut_eq sep s
  rw [hs, cut_append hp]

/-- What follows does not move a cut that was made. -/
theorem cut_append_of_some {sep : UInt8} {s p r : Bytes} (h : cut sep s = (p, some r)) (t : Bytes) :
    cut sep (s ++ t) = (p, some (r ++ t)) := by
  have hp : sep ∉ p := by simpa [h] using not_mem_cut_fst sep s
  have hs : s = p ++ sep :: r := by simpa [h] using cut_eq sep s
  rw [hs, List.append_assoc, List.cons_append, cut_append hp, cut_cons_self, List.append_nil]

end NetHost.Ascii
