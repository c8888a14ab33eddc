import Mathlib.Data.List.Basic
import NetHost.Http.Request

/-!
# Writing a request

The written form of a request is a list of pieces, which are counted, joined, or copied into a
buffer.  A buffer that has the room gets the joined pieces, and keeps its bytes behind them
(`writeTo_of_le`); no piece is copied past the count (`foldlM_copyPiece?`).
-/

namespace NetHost.Http.Request

variable {r : Request} {parts : List Bytes} {size : Nat}

theorem wireSize_eq (r : Request) : r.wireSize = r.wire.length := by
  rw [wireSize, wire, List.length_flatten, List.sum_eq_foldl, List.foldl_map]

/-- The pieces come one behind the other, and the bytes after them stay. -/
theorem foldl_copyPiece (parts : List Bytes) (written rest : Bytes)
    (h : parts.flatten.length ≤ rest.length) :
    parts.foldl copyPiece (written.length, written ++ rest) =
      ((written ++ parts.flatten).length,
        written ++ parts.flatten ++ rest.drop parts.flatten.length) := by
  induction parts generalizing written rest with
  | nil => simp
  | cons part parts ih =>
    have hlength : (part :: parts).flatten.length = part.length + parts.flatten.length := by
      rw [List.flatten_cons, List.length_append]
    have hcopy : copyPiece (written.length, written ++ rest) part =
        ((written ++ part).length, written ++ part ++ rest.drop part.length) := by
      rw [copyPiece, Bytes.overwrite, List.take_left, List.drop_length_add_append,
        List.length_append]
    have hroom : parts.flatten.length ≤ (rest.drop part.length).length := by
      rw [List.length_drop]
      omega
    rw [List.foldl_cons, hcopy, ih _ _ hroom, hlength, List.flatten_cons, List.drop_drop,
      List.append_assoc written]

theorem writeTo_of_le {buffer : Bytes} (h : r.wire.length ≤ buffer.length) :
    r.writeTo buffer = (.ok r.wire.length, r.wire ++ buffer.drop r.wire.length) := by
  have hcopy := foldl_copyPiece r.pieces [] buffer h
  rw [writeTo, wireSize_eq, if_neg (Nat.not_lt.2 h)]
  rw [List.length_nil, List.nil_append, List.nil_append] at hcopy
  rw [hcopy]
  rfl

theorem writeTo_of_lt {buffer : Bytes} (h : buffer.length < r.wire.length) :
    r.writeTo buffer = (.error .limitExceeded, buffer) := by
  rw [writeTo, wireSize_eq, if_pos h]

/-- Copying that stops at a piece which goes past the first `size` bytes of the buffer. -/
def copyPiece? (size : Nat) (written : Nat × Bytes) (part : Bytes) : Option (Nat × Bytes) :=
  if written.1 + part.length ≤ size then some (copyPiece written part) else none

/-- It does not stop if the pieces have room together. -/
theorem foldlM_copyPiece? {written : Nat × Bytes}
    (h : written.1 + parts.flatten.length ≤ size) :
    parts.foldlM (copyPiece? size) written = some (parts.foldl copyPiece written) := by
  induction parts generalizing written with
  | nil => rfl
  | cons part parts ih =>
    rw [List.flatten_cons, List.length_append] at h
    have hpart : copyPiece? size written part = some (copyPiece written part) :=
      if_pos (by omega)
    have hrest : (copyPiece written part).1 + parts.flatten.length ≤ size := by
      show written.1 + part.length + parts.flatten.length ≤ size
      omega
    rw [List.foldlM_cons, hpart, List.foldl_cons]
    exact ih hrest

/-- What is counted is the length of what is joined.  A buffer that long gets the joined bytes and
keeps those behind them, and a shorter one is left as it is.  No piece goes past the count. -/
theorem writeTo_eq (r : Request) (buffer : Bytes) :
    r.wireSize = r.wire.length ∧
      r.writeTo buffer =
        (if r.wire.length ≤ buffer.length then
          (.ok r.wire.length, r.wire ++ buffer.drop r.wire.length)
        else (.error .limitExceeded, buffer)) ∧
      r.pieces.foldlM (copyPiece? r.wireSize) (0, buffer) =
        some (r.pieces.foldl copyPiece (0, buffer)) := by
  refine ⟨wireSize_eq r, ?_, foldlM_copyPiece? ?_⟩
  · split_ifs with hroom
    · exact writeTo_of_le hroom
    · exact writeTo_of_lt (Nat.not_le.1 hroom)
  · rw [wireSize_eq, Nat.zero_add]
    exact Nat.le_refl _

end NetHost.Http.Request
