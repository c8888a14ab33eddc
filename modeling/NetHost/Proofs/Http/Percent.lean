import Mathlib.Tactic.Common
import NetHost.Http.Percent
import NetHost.Proofs.Text.Numeral

/-!
# Writing and reading percent-coded text

`Percent.form s` is the text `s` in percent-coded form, given byte by byte and without a limit.

* `Percent.encode_eq`: writing gives the form, if the limit has room for it.
* `Percent.decode_form`: a form is read as the text that it is of, if the limit has room for that.
* `Percent.length_le_of_decode`: nothing longer than the limit is read, whatever is read from.
-/

namespace NetHost.Http.Percent

variable {s t : Bytes} {b : UInt8} {limit : Nat} {out out' : Array UInt8}

/-! ## The written form -/

/-- The bytes that stand for themselves. -/
def unreserved : Bytes :=
  utf8 "ABCDEFGHIJKLMNOPQRSTUVWXYZabcdefghijklmnopqrstuvwxyz0123456789-_.~"

/-- The hexadecimal digits, each at the place of its value. -/
def digits : Bytes := utf8 "0123456789ABCDEF"

/-- The form of one byte: itself, a plus for a space, or a percent sign and two digits. -/
def byteForm (b : UInt8) : Bytes :=
  if b ∈ unreserved then [b]
  else if b = Ascii.space then [Ascii.plus]
  else [Ascii.percent, digits.getD (b.toNat / 16) 0, digits.getD (b.toNat % 16) 0]

def form (s : Bytes) : Bytes := s.flatMap byteForm

theorem isUnreserved_iff : isUnreserved b ↔ b ∈ unreserved := by
  constructor
  · have hall : ∀ n : Fin 256, isUnreserved (UInt8.ofFin n) → UInt8.ofFin n ∈ unreserved := by
      decide +kernel
    exact hall b.toFin
  · have hall : unreserved.all isUnreserved := by decide
    exact List.all_eq_true.1 hall b

theorem shiftRight_four (b : UInt8) : b >>> 4 = UInt8.ofNat (b.toNat / 16) := by
  have hb := b.toNat_lt
  have hhigh : b.toNat / 16 < 256 := by omega
  rw [← UInt8.toNat_inj, UInt8.toNat_shiftRight, UInt8.toNat_ofNat_of_lt' hhigh]
  exact Nat.shiftRight_eq_div_pow b.toNat 4

theorem and_fifteen (b : UInt8) : b &&& 0x0F = UInt8.ofNat (b.toNat % 16) := by
  have hlow : b.toNat % 16 < 256 := by omega
  rw [← UInt8.toNat_inj, UInt8.toNat_and, UInt8.toNat_ofNat_of_lt' hlow]
  exact Nat.and_two_pow_sub_one_eq_mod b.toNat 4

theorem hexDigit_ofNat : ∀ n : Fin 16, hexDigit (UInt8.ofNat n) = digits.getD n 0 := by decide

theorem escape_eq (b : UInt8) : escape b = byteForm b := by
  have hb := b.toNat_lt
  have hhigh := hexDigit_ofNat ⟨b.toNat / 16, by omega⟩
  have hlow := hexDigit_ofNat ⟨b.toNat % 16, by omega⟩
  rw [escape, byteForm, shiftRight_four, and_fifteen, hhigh, hlow]
  simp only [isUnreserved_iff]

theorem form_cons (b : UInt8) (s : Bytes) : form (b :: s) = escape b ++ form s := by
  rw [form, List.flatMap_cons, escape_eq]
  rfl

theorem length_byteForm_le (b : UInt8) : (byteForm b).length ≤ 3 := by
  unfold byteForm
  split_ifs <;> simp

theorem length_form_le (s : Bytes) : (form s).length ≤ 3 * s.length := by
  induction s with
  | nil => exact Nat.le_refl 0
  | cons b s ih =>
    have hb := length_byteForm_le b
    rw [form, List.flatMap_cons, List.length_append, List.length_cons]
    rw [form] at ih
    omega

/-! ## Writing -/

theorem foldlM_put (h : out.size ≤ limit) :
    s.foldlM (put limit) out =
      if out.size + (form s).length ≤ limit then .ok (out ++ form s)
      else .error .limitExceeded := by
  induction s generalizing out with
  | nil =>
    have hform : form [] = [] := rfl
    rw [hform, List.length_nil, Nat.add_zero, if_pos h, Array.appendList_nil]
    rfl
  | cons b s ih =>
    rw [List.foldlM_cons, form_cons, List.length_append, put]
    by_cases hroom : out.size + (escape b).length > limit
    · rw [if_pos hroom, if_neg (by omega)]
      rfl
    · rw [if_neg hroom]
      have hsize := Bytes.size_store out (escape b)
      show s.foldlM (put limit) (out ++ escape b) = _
      rw [ih (by omega), hsize, Nat.add_assoc, Bytes.store_append]

theorem encode_eq (s : Bytes) (limit : Nat) :
    encode s limit =
      if (form s).length ≤ limit then .ok (form s) else .error .limitExceeded := by
  rw [encode, foldlM_put (Nat.zero_le limit), Bytes.store_empty]
  simp only [List.size_toArray, List.length_nil, Nat.zero_add]
  split_ifs <;> rfl

/-! ## Reading -/

theorem digit?_hexDigit :
    ∀ n : Fin 16, Numeral.digit? (hexDigit (UInt8.ofNat n)) = some n.val := by decide

/-- The two digits of an escape are those of the byte that it stands for. -/
theorem unescape?_hexDigit (b : UInt8) :
    unescape? (hexDigit (b >>> 4)) (hexDigit (b &&& 0x0F)) = some b := by
  have hb := b.toNat_lt
  have hlimit : 256 < Numeral.limit := by decide
  have hhigh := digit?_hexDigit ⟨b.toNat / 16, by omega⟩
  have hlow := digit?_hexDigit ⟨b.toNat % 16, by omega⟩
  rw [← shiftRight_four] at hhigh
  rw [← and_fifteen] at hlow
  have hfirst : Numeral.extend? 16 0 (hexDigit (b >>> 4)) = some (b.toNat / 16) :=
    Numeral.extend?_eq_some_iff.2 ⟨b.toNat / 16, by omega, hhigh, by omega, by omega⟩
  have hsecond : Numeral.extend? 16 (b.toNat / 16) (hexDigit (b &&& 0x0F)) = some b.toNat :=
    Numeral.extend?_eq_some_iff.2 ⟨b.toNat % 16, by omega, hlow, by omega, by omega⟩
  have hvalue : Numeral.hex? [hexDigit (b >>> 4), hexDigit (b &&& 0x0F)] = some b.toNat := by
    show (Numeral.extend? 16 0 (hexDigit (b >>> 4))).bind _ = _
    rw [hfirst, Option.bind_some, List.foldlM_cons, hsecond]
    rfl
  rw [unescape?, hvalue]
  exact congrArg some UInt8.ofNat_toNat

theorem decodeFrom_of_ne (hb : b ≠ Ascii.percent) :
    decodeFrom limit out (b :: s) =
      if out.size = limit then .error .limitExceeded
      else decodeFrom limit (out.push (if b = Ascii.plus then Ascii.space else b)) s := by
  rw [decodeFrom.eq_def]
  split
  · rename_i h
    cases h
  · rename_i h
    cases h
    exact absurd rfl hb
  · rename_i h
    cases h
    rw [if_neg hb]

theorem decodeFrom_percent {hi lo : UInt8} (h : unescape? hi lo = some b) :
    decodeFrom limit out (Ascii.percent :: hi :: lo :: s) =
      if out.size = limit then .error .limitExceeded else decodeFrom limit (out.push b) s := by
  rw [decodeFrom]
  simp only [h]

theorem ne_of_isUnreserved (h : isUnreserved b) : b ≠ Ascii.percent ∧ b ≠ Ascii.plus := by
  constructor
  · rintro rfl
    cases h
  · rintro rfl
    cases h

/-- Every byte is read from its form, and the rest is what comes after that. -/
theorem decodeFrom_escape (b : UInt8) (t : Bytes) :
    decodeFrom limit out (escape b ++ t) =
      if out.size = limit then .error .limitExceeded else decodeFrom limit (out.push b) t := by
  rw [escape]
  by_cases hplain : isUnreserved b
  · obtain ⟨hpercent, hplus⟩ := ne_of_isUnreserved hplain
    rw [if_pos hplain, List.singleton_append, decodeFrom_of_ne hpercent, if_neg hplus]
  · rw [if_neg hplain]
    by_cases hspace : b = Ascii.space
    · have hplus : Ascii.plus ≠ Ascii.percent := by decide
      rw [if_pos hspace, List.singleton_append, decodeFrom_of_ne hplus, if_pos rfl, hspace]
    · rw [if_neg hspace]
      exact decodeFrom_percent (unescape?_hexDigit b)

theorem decodeFrom_form (h : out.size ≤ limit) :
    decodeFrom limit out (form s) =
      if out.size + s.length ≤ limit then .ok (out ++ s) else .error .limitExceeded := by
  induction s generalizing out with
  | nil =>
    rw [List.length_nil, Nat.add_zero, if_pos h, Array.appendList_nil]
    rfl
  | cons b s ih =>
    rw [form_cons, decodeFrom_escape, List.length_cons]
    by_cases hfull : out.size = limit
    · rw [if_pos hfull, if_neg (by omega)]
    · have hsize : (out.push b).size = out.size + 1 := Array.size_push b
      have hpush : out ++ (b :: s) = out.push b ++ s := Array.appendList_cons
      rw [if_neg hfull, ih (by omega), hsize, hpush, Nat.add_assoc, Nat.add_comm 1]

theorem decode_form (hs : Utf8.isValid s) (limit : Nat) :
    decode (form s) limit = if s.length ≤ limit then .ok s else .error .limitExceeded := by
  rw [decode, decodeFrom_form (Nat.zero_le limit), Bytes.store_empty]
  simp only [List.size_toArray, List.length_nil, Nat.zero_add]
  split_ifs
  · dsimp only
    rw [if_pos hs]
  · rfl

theorem size_le_of_decodeFrom (h : decodeFrom limit out t = .ok out') (hout : out.size ≤ limit) :
    out'.size ≤ limit := by
  fun_induction decodeFrom limit out t with
  | case1 =>
    cases h
    exact hout
  | case4 out _ _ _ _ _ hfull ih | case7 out _ _ _ _ hfull ih =>
    refine ih h ?_
    rw [Array.size_push]
    omega
  | _ => cases h

theorem length_le_of_decode (h : decode t limit = .ok s) : s.length ≤ limit ∧ Utf8.isValid s := by
  rw [decode] at h
  rcases hfrom : decodeFrom limit #[] t with e | out
  · rw [hfrom] at h
    cases h
  · rw [hfrom] at h
    dsimp only at h
    split_ifs at h with hvalid
    cases h
    exact ⟨size_le_of_decodeFrom hfrom (Nat.zero_le limit), hvalid⟩

/-- Writing gives the form of a text, and reading a form gives the text, each just if the limit has
room for that.  What is read, from whatever form, fits the limit, and written out in full it is read
as the same. -/
theorem decode_encode (m : Nat) :
    (∀ s, encode s m = if (form s).length ≤ m then .ok (form s) else .error .limitExceeded) ∧
      (∀ s, Utf8.isValid s →
        decode (form s) m = if s.length ≤ m then .ok s else .error .limitExceeded) ∧
      ∀ t r, decode t m = .ok r →
        r.length ≤ m ∧ ∃ w, encode r (3 * r.length) = .ok w ∧ decode w m = .ok r := by
  refine ⟨fun s => encode_eq s m, fun s hs => decode_form hs m, fun t r h => ?_⟩
  obtain ⟨hlength, hvalid⟩ := length_le_of_decode h
  have hwritten : encode r (3 * r.length) = .ok (form r) := by
    rw [encode_eq, if_pos (length_form_le r)]
  have hread : decode (form r) m = .ok r := by
    rw [decode_form hvalid, if_pos hlength]
  exact ⟨hlength, form r, hwritten, hread⟩

/-- The text has a character of two bytes, a plus and a percent sign in it; the form that is read at
last has escapes where none is needed, and a digit in lower case. -/
theorem decode_encode_at_limit :
    form (utf8 "é +%") = utf8 "%C3%A9+%2B%25" ∧
      encode (utf8 "é +%") 12 = .error .limitExceeded ∧
      encode (utf8 "é +%") 13 = .ok (utf8 "%C3%A9+%2B%25") ∧
      decode (form (utf8 "é +%")) 4 = .error .limitExceeded ∧
      decode (form (utf8 "é +%")) 5 = .ok (utf8 "é +%") ∧
      decode (utf8 "%2b%61") 2 = .ok (utf8 "+a") ∧ (utf8 "+a").length ≤ 2 ∧
        ∃ w, encode (utf8 "+a") 6 = .ok w ∧ decode w 2 = .ok (utf8 "+a") := by
  have hform : form (utf8 "é +%") = utf8 "%C3%A9+%2B%25" := by decide
  have hvalid : Utf8.isValid (utf8 "é +%") := by decide
  have hread : decode (utf8 "%2b%61") 2 = .ok (utf8 "+a") := by rfl
  obtain ⟨hfits, hagain⟩ := (decode_encode 2).2.2 _ _ hread
  refine ⟨hform, ?_, ?_, ?_, ?_, hread, hfits, hagain⟩
  · rw [(decode_encode 12).1, hform]
    rfl
  · rw [(decode_encode 13).1, hform]
    rfl
  · rw [(decode_encode 4).2.1 _ hvalid]
    rfl
  · rw [(decode_encode 5).2.1 _ hvalid]
    rfl

end NetHost.Http.Percent
