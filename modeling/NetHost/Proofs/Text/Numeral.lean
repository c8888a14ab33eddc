import Mathlib.Data.List.Forall2
import Mathlib.Data.List.Induction
import Mathlib.Data.List.TakeWhile
import Mathlib.Data.Nat.Digits.Defs
import Mathlib.Tactic.Common
import NetHost.Text.Ascii
import NetHost.Text.Numeral
import NetHost.Text.Utf8

/-!
# Reading and writing numerals

* `read?_eq_some_iff`: a text is read as the number that it denotes, if a 64-bit word holds that
  number.
* `read?_render`: a numeral that was written is read back.
* `isValid_render`, `trim_render`, `not_mem_render`: it can stand in a line, and nothing of it is
  taken for something else there.
* `decimal_hex_exact`: both bases are read exactly, what a text stands for being said by the
  alphabet of the digits (`IsNumeral`) and not by the reader.
-/

namespace NetHost

theorem Ascii.trim_of_forall {s : Bytes} (h : ∀ b ∈ s, ¬ isBlank b) : trim s = s := by
  have hdrop {t : Bytes} (ht : ∀ b ∈ t, ¬ isBlank b) : t.dropWhile isBlank = t :=
    List.dropWhile_eq_self_iff.2 fun _ => ht _ (List.getElem_mem _)
  rw [trim, hdrop h, hdrop fun b hb => h b (List.mem_reverse.1 hb), List.reverse_reverse]

namespace Numeral

variable {base n : Nat} {s : Bytes} {b : UInt8}

/-! ## Reading -/

/-- The number that a row of digits stands for, the first one being the most significant. -/
def value (base : Nat) (s : Bytes) : Nat :=
  Nat.ofDigits base (s.reverse.map fun b => (digit? b).getD 0)

/-- `s` is a numeral of `n`: digits of the base, one at least. -/
structure Denotes (base : Nat) (s : Bytes) (n : Nat) : Prop where
  ne_nil : s ≠ []
  digits : ∀ b ∈ s, ∃ d < base, digit? b = some d
  value : value base s = n

theorem value_append_singleton (base : Nat) (s : Bytes) (b : UInt8) :
    value base (s ++ [b]) = value base s * base + (digit? b).getD 0 := by
  simp only [value, List.reverse_append, List.reverse_singleton, List.singleton_append,
    List.map_cons, Nat.ofDigits_cons]
  rw [Nat.add_comm, Nat.mul_comm]

theorem extend?_eq_some_iff {v : Nat} :
    extend? base v b = some n ↔
      ∃ d < base, digit? b = some d ∧ v * base + d = n ∧ n < limit := by
  unfold extend?
  cases digit? b with
  | none => simp
  | some d =>
    simp only [Option.some.injEq, Option.ite_none_right_eq_some]
    constructor
    · rintro ⟨⟨hd, hlimit⟩, rfl⟩
      exact ⟨d, hd, rfl, rfl, hlimit⟩
    · rintro ⟨_, hd, rfl, rfl, hlimit⟩
      exact ⟨⟨hd, hlimit⟩, rfl⟩

/-- A value that has become too large stays so, whatever digits follow. -/
theorem foldlM_extend?_eq_some_iff (hbase : 0 < base) :
    s.foldlM (extend? base) 0 = some n ↔
      (∀ b ∈ s, ∃ d < base, digit? b = some d) ∧ value base s = n ∧ n < limit := by
  induction s using List.reverseRecOn generalizing n with
  | nil =>
    simp only [List.foldlM_nil, value, List.reverse_nil, List.map_nil, Nat.ofDigits_nil]
    constructor
    · rintro ⟨⟩
      exact ⟨nofun, rfl, by decide⟩
    · rintro ⟨-, rfl, -⟩
      rfl
  | append_singleton s b ih =>
    rw [List.foldlM_append, value_append_singleton]
    constructor
    · intro h
      obtain ⟨v, hv, h⟩ := Option.bind_eq_some_iff.1 h
      obtain ⟨hdigits, rfl, -⟩ := ih.1 hv
      rw [List.foldlM_cons] at h
      obtain ⟨_, h, ⟨⟩⟩ := Option.bind_eq_some_iff.1 h
      obtain ⟨d, hd, hb, hn, hlimit⟩ := extend?_eq_some_iff.1 h
      refine ⟨fun c hc => ?_, by rw [hb]; exact hn, hlimit⟩
      rcases List.mem_append.1 hc with hc | hc
      · exact hdigits c hc
      · rw [List.mem_singleton.1 hc]
        exact ⟨d, hd, hb⟩
    · rintro ⟨hdigits, hn, hlimit⟩
      obtain ⟨d, hd, hb⟩ := hdigits b (List.mem_append_right s (List.mem_singleton_self b))
      rw [hb, Option.getD_some] at hn
      have hle : value base s ≤ value base s * base := Nat.le_mul_of_pos_right _ hbase
      have hs : s.foldlM (extend? base) 0 = some (value base s) :=
        ih.2 ⟨fun c hc => hdigits c (List.mem_append_left _ hc), rfl, by omega⟩
      have hlast : extend? base (value base s) b = some n :=
        extend?_eq_some_iff.2 ⟨d, hd, hb, hn, hlimit⟩
      rw [hs, Option.bind_eq_bind, Option.bind_some, List.foldlM_cons, hlast]
      rfl

theorem read?_eq_some_iff (hbase : 0 < base) :
    read? base s = some n ↔ Denotes base s n ∧ n < limit := by
  unfold read?
  split_ifs with hs
  · rw [List.isEmpty_iff] at hs
    exact ⟨nofun, fun h => absurd hs h.1.ne_nil⟩
  · rw [List.isEmpty_iff] at hs
    rw [foldlM_extend?_eq_some_iff hbase]
    exact ⟨fun ⟨hdigits, hn, hlimit⟩ => ⟨⟨hs, hdigits, hn⟩, hlimit⟩,
      fun ⟨h, hlimit⟩ => ⟨h.digits, h.value, hlimit⟩⟩

/-! ## Writing -/

theorem digit?_digitChar : ∀ d : Fin 16, digit? (Nat.digitChar d).toUInt8 = some d.val := by
  decide

theorem render_of_lt (h : n < base) : render base n = [(Nat.digitChar n).toUInt8] := by
  rw [render, Nat.toDigits_of_lt_base h]
  rfl

theorem render_of_le (hbase : 1 < base) (h : base ≤ n) :
    render base n = render base (n / base) ++ [(Nat.digitChar (n % base)).toUInt8] := by
  rw [render, Nat.toDigits_of_base_le hbase h, List.map_append]
  rfl

theorem render_ne_nil (base n : Nat) : render base n ≠ [] := by
  rw [render, ne_eq, List.map_eq_nil_iff]
  exact Nat.toDigits_ne_nil

theorem denotes_render (hbase : 1 < base) (hmax : base ≤ 16) (n : Nat) :
    Denotes base (render base n) n := by
  have hdigit (d : Nat) (hd : d < base) : digit? (Nat.digitChar d).toUInt8 = some d :=
    digit?_digitChar ⟨d, by omega⟩
  refine ⟨render_ne_nil base n, ?_, ?_⟩
  -- Both by recursion on the numeral, its last digit coming off at a time.
  · induction n using Nat.strongRecOn with
    | _ n ih =>
      rcases Nat.lt_or_ge n base with hn | hn
      · rw [render_of_lt hn]
        intro b hb
        rw [List.mem_singleton.1 hb]
        exact ⟨n, hn, hdigit n hn⟩
      · rw [render_of_le hbase hn]
        intro b hb
        rcases List.mem_append.1 hb with hb | hb
        · exact ih (n / base) (Nat.div_lt_self (by omega) hbase) b hb
        · have hlt : n % base < base := Nat.mod_lt n (by omega)
          rw [List.mem_singleton.1 hb]
          exact ⟨n % base, hlt, hdigit _ hlt⟩
  · induction n using Nat.strongRecOn with
    | _ n ih =>
      rcases Nat.lt_or_ge n base with hn | hn
      · rw [render_of_lt hn, value, List.reverse_singleton, List.map_singleton, hdigit n hn,
          Option.getD_some, Nat.ofDigits_singleton]
      · have hlt : n % base < base := Nat.mod_lt n (by omega)
        rw [render_of_le hbase hn, value_append_singleton, hdigit _ hlt, Option.getD_some,
          ih (n / base) (Nat.div_lt_self (by omega) hbase)]
        exact Nat.div_add_mod' n base

theorem read?_render (hbase : 1 < base) (hmax : base ≤ 16) (hn : n < limit) :
    read? base (render base n) = some n :=
  (read?_eq_some_iff (by omega)).2 ⟨denotes_render hbase hmax n, hn⟩

theorem length_render_le (hbase : 1 < base) (hn : n < limit) : (render base n).length ≤ 64 := by
  rw [render, List.length_map]
  apply Nat.toDigits_length base n 64 (by omega)
  calc n < 2 ^ 64 := hn
    _ ≤ base ^ 64 := Nat.pow_le_pow_left hbase 64

/-! ## Numerals in a line -/

/-- A digit is ASCII, and none of the bytes that a line is taken apart at. -/
theorem plain_of_digit? {d : Nat} (h : digit? b = some d) :
    b < 0x80 ∧ ¬ Ascii.isBlank b ∧ b ≠ Ascii.semicolon := by
  have hb : (0x30 ≤ b.toNat ∧ b.toNat ≤ 0x39) ∨ (0x61 ≤ b.toNat ∧ b.toNat ≤ 0x66) ∨
      (0x41 ≤ b.toNat ∧ b.toNat ≤ 0x46) := by
    unfold digit? at h
    split_ifs at h <;> simp_all [UInt8.le_iff_toNat_le]
  simp only [Ascii.isBlank, Bool.or_eq_true, decide_eq_true_eq, UInt8.lt_iff_toNat_lt, ne_eq,
    ← UInt8.toNat_inj, UInt8.toNat_ofNat]
  omega

theorem plain_of_mem_render (hbase : 1 < base) (hmax : base ≤ 16) (h : b ∈ render base n) :
    b < 0x80 ∧ ¬ Ascii.isBlank b ∧ b ≠ Ascii.semicolon := by
  obtain ⟨d, -, hd⟩ := (denotes_render hbase hmax n).digits b h
  exact plain_of_digit? hd

theorem isValid_render (hbase : 1 < base) (hmax : base ≤ 16) (n : Nat) :
    Utf8.isValid (render base n) :=
  Utf8.isValid_of_ascii fun _ hb => (plain_of_mem_render hbase hmax hb).1

theorem not_mem_render (hbase : 1 < base) (hmax : base ≤ 16) (n : Nat)
    (hb : Ascii.isBlank b ∨ b = Ascii.semicolon) : b ∉ render base n := by
  intro h
  obtain ⟨-, hblank, hsemicolon⟩ := plain_of_mem_render hbase hmax h
  exact hb.elim hblank hsemicolon

theorem trim_render (hbase : 1 < base) (hmax : base ≤ 16) (n : Nat) :
    Ascii.trim (render base n) = render base n :=
  Ascii.trim_of_forall fun _ hb => (plain_of_mem_render hbase hmax hb).2.1

/-! ## Numerals by the alphabet

What a text stands for, without the reader: the value of a digit is its place in the alphabet. -/

/-- The digits in the order of their values. -/
def lowerCase : Bytes := utf8 "0123456789abcdef"

/-- The digits in the order of their values, with capital letters. -/
def upperCase : Bytes := utf8 "0123456789ABCDEF"

/-- `b` is a digit of the base, and `d` its value. -/
def IsDigit (base : Nat) (b : UInt8) (d : Nat) : Prop :=
  d < base ∧ (lowerCase[d]? = some b ∨ upperCase[d]? = some b)

/-- `s` is the number `n` in digits of the base, one at least, the most significant first. -/
def IsNumeral (base : Nat) (s : Bytes) (n : Nat) : Prop :=
  s ≠ [] ∧ ∃ ds, List.Forall₂ (IsDigit base) s ds ∧ Nat.ofDigits base ds.reverse = n

/-- Numbers in the base are read and written exactly, as long as 64 bits hold them. -/
structure Exact (base : Nat) (read : Bytes → Option Nat) (write : Nat → Bytes) : Prop where
  read_eq_some_iff : ∀ s n, read s = some n ↔ IsNumeral base s n ∧ n < 2 ^ 64
  /-- A numeral is refused for its size only, and that is the size of the whole number. -/
  read_eq_none_iff : ∀ s n, IsNumeral base s n → (read s = none ↔ 2 ^ 64 ≤ n)
  read_zeros : ∀ s k, s ≠ [] → read (List.replicate k 0x30 ++ s) = read s
  read_write : ∀ n < 2 ^ 64, read (write n) = some n

theorem exists_eq_ofNat (low count : Nat) (h : low ≤ b.toNat ∧ b.toNat < low + count) :
    ∃ i : Fin count, b = UInt8.ofNat (low + i) := by
  refine ⟨⟨b.toNat - low, by omega⟩, ?_⟩
  rw [Nat.add_sub_cancel' h.1, UInt8.ofNat_toNat]

theorem digit?_lowerCase : ∀ d : Fin 16, lowerCase[d.val]?.bind digit? = some d.val := by decide

theorem digit?_upperCase : ∀ d : Fin 16, upperCase[d.val]?.bind digit? = some d.val := by decide

theorem getElem?_of_digit? {d : Nat} (h : digit? b = some d) :
    lowerCase[d]? = some b ∨ upperCase[d]? = some b := by
  unfold digit? at h
  simp only [Bool.and_eq_true, decide_eq_true_eq, UInt8.le_iff_toNat_le, UInt8.reduceToNat] at h
  split_ifs at h with hdecimal hlower hupper
  · obtain ⟨i, rfl⟩ := exists_eq_ofNat (b := b) 0x30 10 (by omega)
    cases h
    left
    revert i
    decide
  · obtain ⟨i, rfl⟩ := exists_eq_ofNat (b := b) 0x61 6 (by omega)
    cases h
    left
    revert i
    decide
  · obtain ⟨i, rfl⟩ := exists_eq_ofNat (b := b) 0x41 6 (by omega)
    cases h
    right
    revert i
    decide

theorem isDigit_iff {d : Nat} : IsDigit base b d ↔ d < base ∧ digit? b = some d := by
  refine and_congr_right fun _ => ⟨?_, getElem?_of_digit?⟩
  rintro (h | h)
  · obtain ⟨hd, -⟩ := List.getElem?_eq_some_iff.1 h
    simpa only [h, Option.bind_some] using digit?_lowerCase ⟨d, hd⟩
  · obtain ⟨hd, -⟩ := List.getElem?_eq_some_iff.1 h
    simpa only [h, Option.bind_some] using digit?_upperCase ⟨d, hd⟩

theorem forall₂_isDigit_iff {ds : List Nat} :
    List.Forall₂ (IsDigit base) s ds ↔
      (∀ b ∈ s, ∃ d < base, digit? b = some d) ∧ s.map (fun b => (digit? b).getD 0) = ds := by
  induction s generalizing ds with
  | nil =>
    rw [List.forall₂_nil_left_iff, List.map_nil]
    exact ⟨fun h => ⟨nofun, h.symm⟩, fun h => h.2.symm⟩
  | cons b s ih =>
    rw [List.forall₂_cons_left_iff, List.forall_mem_cons, List.map_cons]
    constructor
    · rintro ⟨d, ds, hb, hs, rfl⟩
      obtain ⟨hd, hdigit⟩ := isDigit_iff.1 hb
      obtain ⟨hdigits, rfl⟩ := ih.1 hs
      exact ⟨⟨⟨d, hd, hdigit⟩, hdigits⟩, by rw [hdigit, Option.getD_some]⟩
    · rintro ⟨⟨⟨d, hd, hdigit⟩, hdigits⟩, rfl⟩
      refine ⟨d, _, isDigit_iff.2 ⟨hd, hdigit⟩, ih.2 ⟨hdigits, rfl⟩, ?_⟩
      rw [hdigit, Option.getD_some]

theorem isNumeral_iff_denotes : IsNumeral base s n ↔ Denotes base s n := by
  simp only [IsNumeral, forall₂_isDigit_iff]
  constructor
  · rintro ⟨hs, _, ⟨hdigits, rfl⟩, hn⟩
    exact ⟨hs, hdigits, by rw [value, List.map_reverse, hn]⟩
  · rintro ⟨hs, hdigits, hn⟩
    exact ⟨hs, _, ⟨hdigits, rfl⟩, by rw [← List.map_reverse, ← value, hn]⟩

theorem extend?_zero (hbase : 0 < base) : extend? base 0 0x30 = some 0 :=
  extend?_eq_some_iff.2 ⟨0, hbase, by decide, by rw [Nat.zero_mul], by decide⟩

theorem read?_zeros (hbase : 0 < base) (hs : s ≠ []) (k : Nat) :
    read? base (List.replicate k 0x30 ++ s) = read? base s := by
  have hzeros : (List.replicate k 0x30).foldlM (extend? base) 0 = some 0 := by
    induction k with
    | zero => rfl
    | succ k ih =>
      rw [List.replicate_succ, List.foldlM_cons, extend?_zero hbase]
      exact ih
  rw [read?, read?, if_neg (by simp [hs]), if_neg (by simp [hs]), List.foldlM_append, hzeros]
  rfl

/-- The check for size at each digit fails if and only if the whole number is too large. -/
theorem exact_read? (hbase : 1 < base) (hmax : base ≤ 16) :
    Exact base (read? base) (render base) := by
  have hread (s : Bytes) (n : Nat) : read? base s = some n ↔ IsNumeral base s n ∧ n < limit := by
    rw [read?_eq_some_iff (by omega), isNumeral_iff_denotes]
  refine ⟨hread, fun s n hs => ?_, fun s k hs => read?_zeros (by omega) hs k,
    fun n hn => read?_render hbase hmax hn⟩
  constructor
  · intro hnone
    by_contra hlt
    rw [(hread s n).2 ⟨hs, Nat.lt_of_not_le hlt⟩] at hnone
    cases hnone
  · intro hle
    refine Option.eq_none_iff_forall_ne_some.2 fun m hm => ?_
    obtain ⟨hm, hlt⟩ := (hread s m).1 hm
    rw [isNumeral_iff_denotes] at hs hm
    exact absurd hle (Nat.not_le_of_lt (hs.value ▸ hm.value ▸ hlt))

/-- Lengths in either base are read as the exact number, or refused. -/
theorem decimal_hex_exact : Exact 10 decimal? decimal ∧ Exact 16 hex? hex :=
  ⟨exact_read? (by decide) (by decide), exact_read? (by decide) (by decide)⟩

end Numeral

end NetHost
