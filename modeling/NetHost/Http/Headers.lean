import NetHost.Http.Error
import NetHost.Text.Ascii

/-!
# Header fields

The header fields of a message are a list in the order in which they came.  Names keep their case
and are looked up without regard to it; the first match counts.  The list is bounded in length,
and so is every name and value in it.
-/

namespace NetHost.Http

structure Header where
  name : Bytes
  value : Bytes
  deriving DecidableEq, Repr

structure Headers where
  toList : List Header := []
  deriving DecidableEq, Repr

namespace Headers

/-- A message has at most this many header fields. -/
def maxCount : Nat := 32

/-- Names are shorter than this. -/
def maxName : Nat := 64

def maxValue : Nat := 256

def size (h : Headers) : Nat := h.toList.length

def isEmpty (h : Headers) : Bool := h.toList.isEmpty

/-- Adds a field at the end, if it and the list stay within their limits. -/
def push (h : Headers) (name value : Bytes) : Except Error Headers :=
  if h.size ≥ maxCount || name.length ≥ maxName || value.length ≥ maxValue then
    .error .limitExceeded
  else .ok ⟨h.toList ++ [⟨name, value⟩]⟩

def get? (h : Headers) (name : Bytes) : Option Bytes :=
  (h.toList.find? fun f => Ascii.sameIgnoringCase f.name name).map Header.value

def contains (h : Headers) (name : Bytes) : Bool := (h.get? name).isSome

theorem toList_of_push {h h' : Headers} {name value : Bytes} (e : h.push name value = .ok h') :
    h'.toList = h.toList ++ [⟨name, value⟩] := by
  simp only [push] at e
  split at e
  · cases e
  · cases e; rfl

end Headers

end NetHost.Http
