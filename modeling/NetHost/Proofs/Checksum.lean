import Mathlib.Algebra.GroupWithZero.Nat
import Mathlib.Data.Nat.ModEq
import Mathlib.Tactic.Common
import NetHost.Checksum

/-!
# What the checksum tells

The sum in one's complement is the exact sum of the words modulo 65535 (`toNat_sumFrom`), where a
multiple of 65535 is written as 65535 unless all words are zero.

* No addition on the way to it wraps around, and pieces of even length are summed one after the
  other (`sumFrom_exact`).
* Data is intact if and only if the exact sum of its words is a multiple of 65535 and not zero
  (`isIntact_iff`).  That is why one word of intact data cannot be replaced by another, save for
  one way to write zero by the other (`not_isIntact_of_set`).
-/

namespace NetHost.Checksum

/-- The 16-bit words of the data, an odd last byte being the high half of one. -/
def words : Bytes → List UInt16
  | [] => []
  | [b] => [Bytes.word b 0]
  | hi :: lo :: data => Bytes.word hi lo :: words data

/-- The exact sum of the words. -/
def total (data : Bytes) : Nat := ((words data).map UInt16.toNat).sum

theorem total_cons_cons (hi lo : UInt8) (data : Bytes) :
    total (hi :: lo :: data) = (Bytes.word hi lo).toNat + total data := rfl

/-- A sum modulo 65535, as a number from 1 to 65535; zero stays zero. -/
def residue (n : Nat) : Nat := if n = 0 then 0 else (n - 1) % 65535 + 1

/-! ## Residues -/

theorem residue_le (n : Nat) : residue n ≤ 65535 := by
  unfold residue
  split_ifs <;> omega

theorem residue_of_le {n : Nat} (h : n ≤ 65535) : residue n = n := by
  unfold residue
  split_ifs <;> omega

theorem residue_residue_add (m n : Nat) : residue (residue m + n) = residue (m + n) := by
  unfold residue
  split_ifs <;> omega

theorem residue_mod_add_div (n : Nat) : residue (n % 65536 + n / 65536) = residue n := by
  unfold residue
  split_ifs <;> omega

theorem residue_eq_iff {n : Nat} : residue n = 65535 ↔ n ≠ 0 ∧ n % 65535 = 0 := by
  unfold residue
  split_ifs with h
  · simp only [h, ne_eq, not_true_eq_false, false_and]
  · rw [ne_eq, and_iff_right h]
    omega

/-! ## The sum -/

variable {sum : UInt32} {data : Bytes}

theorem toNat_low (sum : UInt32) : (sum &&& (0xFFFF : UInt32)).toNat = sum.toNat % 65536 := by
  rw [UInt32.toNat_and]
  exact Nat.and_two_pow_sub_one_eq_mod sum.toNat 16

theorem toNat_high (sum : UInt32) : (sum >>> (16 : UInt32)).toNat = sum.toNat / 65536 := by
  rw [UInt32.toNat_shiftRight]
  exact Nat.shiftRight_eq_div_pow sum.toNat 16

theorem toNat_carry (sum : UInt32) :
    (carry sum).toNat = sum.toNat % 65536 + sum.toNat / 65536 := by
  have := sum.toNat_lt
  rw [carry, UInt32.toNat_add, toNat_low, toNat_high]
  omega

theorem toNat_fold (sum : UInt32) : (fold sum).toNat = residue sum.toNat := by
  have hlt := sum.toNat_lt
  have hfirst := toNat_carry sum
  have hsecond := toNat_carry (carry sum)
  have hle : (carry (carry sum)).toNat ≤ 65535 := by omega
  calc (fold sum).toNat
      = (carry (carry sum)).toNat % 65536 := UInt32.toNat_toUInt16 _
    _ = (carry (carry sum)).toNat := Nat.mod_eq_of_lt (by omega)
    _ = residue (carry (carry sum)).toNat := (residue_of_le hle).symm
    _ = residue (carry sum).toNat := by rw [hsecond, residue_mod_add_div]
    _ = residue sum.toNat := by rw [hfirst, residue_mod_add_div]

theorem toNat_addWord (hsum : sum.toNat ≤ 65535) (w : UInt16) :
    (addWord sum w).toNat = residue (sum.toNat + w.toNat) := by
  have hw := w.toNat_lt
  have hadd : (sum + w.toUInt32).toNat = sum.toNat + w.toNat := by
    rw [UInt32.toNat_add, UInt16.toNat_toUInt32]
    omega
  rw [addWord, toNat_carry, hadd, ← residue_mod_add_div, residue_of_le]
  omega

theorem addWord_le (hsum : sum.toNat ≤ 65535) (w : UInt16) : (addWord sum w).toNat ≤ 65535 := by
  rw [toNat_addWord hsum]
  exact residue_le _

theorem addWords_eq_foldl (sum : UInt32) (data : Bytes) :
    addWords sum data = (words data).foldl addWord sum := by
  induction data using words.induct generalizing sum with
  | case1 => rfl
  | case2 b => rfl
  | case3 hi lo data ih => exact ih _

theorem toNat_foldl_addWord (hsum : sum.toNat ≤ 65535) (ws : List UInt16) :
    (ws.foldl addWord sum).toNat = residue (sum.toNat + (ws.map UInt16.toNat).sum) := by
  induction ws generalizing sum with
  | nil => exact (residue_of_le hsum).symm
  | cons w ws ih =>
    rw [List.foldl_cons, ih (addWord_le hsum w), toNat_addWord hsum, residue_residue_add,
      List.map_cons, List.sum_cons, Nat.add_assoc]

theorem toNat_folded (initial : UInt32) :
    (fold initial).toUInt32.toNat = residue initial.toNat := by
  rw [UInt16.toNat_toUInt32, toNat_fold]

theorem folded_le (initial : UInt32) : (fold initial).toUInt32.toNat ≤ 65535 := by
  rw [toNat_folded]
  exact residue_le _

/-- The exact value of a sum, whatever it is continued from. -/
theorem toNat_sumFrom (initial : UInt32) (data : Bytes) :
    (sumFrom initial data).toNat = residue (initial.toNat + total data) := by
  rw [sumFrom, addWords_eq_foldl, toNat_foldl_addWord (folded_le initial), toNat_folded,
    residue_residue_add]
  rfl

theorem sumFrom_le (initial : UInt32) (data : Bytes) : (sumFrom initial data).toNat ≤ 65535 := by
  rw [toNat_sumFrom]
  exact residue_le _

theorem toNat_finish (sum : UInt32) : (finish sum).toNat = 65535 - residue sum.toNat := by
  rw [finish, UInt16.toNat_not, toNat_fold]
  rfl

theorem toNat_checksum (data : Bytes) :
    (checksum data).toNat = 65535 - residue (total data) := by
  rw [checksum, toNat_finish, residue_of_le (sumFrom_le 0 data), toNat_sumFrom, UInt32.toNat_zero,
    Nat.zero_add]

theorem isIntact_iff : isIntact data ↔ total data ≠ 0 ∧ total data % 65535 = 0 := by
  have hle := residue_le (total data)
  rw [isIntact, decide_eq_true_eq, ← UInt16.toNat_inj, toNat_checksum, ← residue_eq_iff]
  simp only [UInt16.toNat_zero]
  omega

/-- Data is intact once its second word is the checksum of what it was with a zero there. -/
theorem isIntact_of_checksum {hi lo : UInt8} {w : UInt16}
    (hw : w = checksum (hi :: lo :: 0 :: 0 :: data)) :
    isIntact (hi :: lo :: (Bytes.ofWord w ++ data)) := by
  have hblank : total (hi :: lo :: 0 :: 0 :: data) = (Bytes.word hi lo).toNat + total data := by
    rw [total_cons_cons, total_cons_cons, Bytes.toNat_word 0 0, UInt8.toNat_zero]
    omega
  have hsealed : total (hi :: lo :: (Bytes.ofWord w ++ data)) =
      (Bytes.word hi lo).toNat + (w.toNat + total data) := by
    rw [total_cons_cons, Bytes.ofWord, List.cons_append, List.cons_append, List.nil_append,
      total_cons_cons, Bytes.word_ofWord]
  have hcheck := toNat_checksum (hi :: lo :: 0 :: 0 :: data)
  rw [← hw, hblank] at hcheck
  rw [isIntact_iff, hsealed, hcheck]
  unfold residue
  split_ifs <;> omega

theorem total_eq_zero_iff (data : Bytes) : total data = 0 ↔ ∀ b ∈ data, b = 0 := by
  have hzero (b : UInt8) : b = 0 ↔ b.toNat = 0 := UInt8.toNat_inj.symm
  induction data using words.induct with
  | case1 => simp [total, words]
  | case2 b => simp [total, words, Bytes.toNat_word, hzero]
  | case3 hi lo data ih =>
    rw [total_cons_cons, Bytes.toNat_word, List.forall_mem_cons, List.forall_mem_cons, hzero, hzero]
    refine ⟨fun h => ⟨by omega, by omega, ih.1 (by omega)⟩, fun ⟨hhi, hlo, hdata⟩ => ?_⟩
    have := ih.2 hdata
    omega

/-- The second word of intact data is the checksum of what it is with a zero there, unless it
writes zero the other way. -/
theorem checksum_of_isIntact {hi lo c₁ c₂ : UInt8} (h : isIntact (hi :: lo :: c₁ :: c₂ :: data)) :
    checksum (hi :: lo :: 0 :: 0 :: data) =
      if Bytes.word c₁ c₂ = 0xFFFF ∧ total (hi :: lo :: 0 :: 0 :: data) ≠ 0 then 0
      else Bytes.word c₁ c₂ := by
  have hword := (Bytes.word c₁ c₂).toNat_lt
  have hcheck := toNat_checksum (hi :: lo :: 0 :: 0 :: data)
  have htotal : total (hi :: lo :: c₁ :: c₂ :: data) =
      total (hi :: lo :: 0 :: 0 :: data) + (Bytes.word c₁ c₂).toNat := by
    rw [total_cons_cons, total_cons_cons, total_cons_cons, total_cons_cons, Bytes.toNat_word 0 0,
      UInt8.toNat_zero]
    omega
  rw [isIntact_iff, htotal] at h
  have hother : Bytes.word c₁ c₂ = 0xFFFF ↔ (Bytes.word c₁ c₂).toNat = 65535 :=
    UInt16.toNat_inj.symm
  rw [residue] at hcheck
  split_ifs with hchanged
  · rw [hother] at hchanged
    rw [← UInt16.toNat_inj, hcheck, if_neg hchanged.2, UInt16.toNat_zero]
    omega
  · rw [hother] at hchanged
    rw [← UInt16.toNat_inj, hcheck]
    split_ifs <;> omega

/-! ## Additions that do not wrap around -/

/-- The sum of two numbers, if 32 bits can hold it. -/
def add? (x y : UInt32) : Option UInt32 :=
  if x.toNat + y.toNat < 2 ^ 32 then some (x + y) else none

def carry? (sum : UInt32) : Option UInt32 :=
  add? (sum &&& (0xFFFF : UInt32)) (sum >>> (16 : UInt32))

def addWord? (sum : UInt32) (w : UInt16) : Option UInt32 := add? sum w.toUInt32 >>= carry?

/-- The sum over `data`, continuing from `initial`, by additions none of which may wrap around. -/
def sumFrom? (initial : UInt32) (data : Bytes) : Option UInt32 := do
  let folded ← carry? (← carry? initial)
  (words data).foldlM addWord? folded.toUInt16.toUInt32

theorem add?_of_lt {x y : UInt32} (h : x.toNat + y.toNat < 2 ^ 32) : add? x y = some (x + y) :=
  if_pos h

theorem carry?_eq (sum : UInt32) : carry? sum = some (carry sum) := by
  have hsum := sum.toNat_lt
  apply add?_of_lt
  rw [toNat_low, toNat_high]
  omega

theorem addWord?_eq (hsum : sum.toNat ≤ 65535) (w : UInt16) :
    addWord? sum w = some (addWord sum w) := by
  have hw := w.toNat_lt
  have hadd : add? sum w.toUInt32 = some (sum + w.toUInt32) := by
    apply add?_of_lt
    rw [UInt16.toNat_toUInt32]
    omega
  rw [addWord?, hadd]
  exact carry?_eq _

theorem foldlM_addWord? (hsum : sum.toNat ≤ 65535) (ws : List UInt16) :
    ws.foldlM addWord? sum = some (ws.foldl addWord sum) := by
  induction ws generalizing sum with
  | nil => rfl
  | cons w ws ih =>
    rw [List.foldlM_cons, addWord?_eq hsum]
    exact ih (addWord_le hsum w)

theorem sumFrom?_eq (initial : UInt32) (data : Bytes) :
    sumFrom? initial data = some (sumFrom initial data) := by
  rw [sumFrom, addWords_eq_foldl, ← foldlM_addWord? (folded_le initial), sumFrom?, carry?_eq]
  show (carry? (carry initial) >>= fun folded => _) = _
  rw [carry?_eq]
  rfl

/-! ## Pieces -/

theorem total_append {x : Bytes} (hx : x.length % 2 = 0) (y : Bytes) :
    total (x ++ y) = total x + total y := by
  induction x using words.induct with
  | case1 => exact (Nat.zero_add _).symm
  | case2 b => cases hx
  | case3 hi lo x ih =>
    have hx : x.length % 2 = 0 := by
      rw [List.length_cons, List.length_cons] at hx
      omega
    rw [List.cons_append, List.cons_append, total_cons_cons, total_cons_cons, ih hx, Nat.add_assoc]

theorem total_flatten {pieces : List Bytes} (h : ∀ p ∈ pieces.dropLast, p.length % 2 = 0) :
    total pieces.flatten = (pieces.map total).sum := by
  induction pieces with
  | nil => rfl
  | cons p pieces ih =>
    cases pieces with
    | nil => rw [List.flatten_singleton, List.map_singleton, List.sum_singleton]
    | cons q pieces =>
      rw [List.dropLast_cons_cons] at h
      have hrest := ih fun p hp => h p (List.mem_cons_of_mem _ hp)
      rw [List.flatten_cons, total_append (h p List.mem_cons_self), hrest]
      rfl

/-- Sums over pieces add up, however large the number is that the first one continues from. -/
theorem residue_foldl_sumFrom (initial : UInt32) (pieces : List Bytes) :
    residue (pieces.foldl sumFrom initial).toNat =
      residue (initial.toNat + (pieces.map total).sum) := by
  induction pieces generalizing initial with
  | nil => rfl
  | cons p pieces ih =>
    rw [List.foldl_cons, ih, toNat_sumFrom, residue_residue_add, List.map_cons, List.sum_cons,
      Nat.add_assoc]

theorem foldl_sumFrom_le {initial : UInt32} {pieces : List Bytes}
    (h : pieces ≠ [] ∨ initial.toNat ≤ 65535) :
    (pieces.foldl sumFrom initial).toNat ≤ 65535 := by
  induction pieces generalizing initial with
  | nil => exact h.resolve_left (not_not_intro rfl)
  | cons p pieces ih => exact ih (.inr (sumFrom_le initial p))

/-- The sum is zero if all that is added up is zero, and otherwise it is that number from 1 to 65535
which has the exact sum's remainder modulo 65535.  All its additions are exact.  Over pieces that
are of even length, save for the last, it may be taken one piece after the other.  No piece at all
leaves the number that the sum was to continue from, which need not be carried yet. -/
theorem sumFrom_exact (initial : UInt32) :
    (∀ data, sumFrom? initial data = some (sumFrom initial data) ∧
      (initial.toNat + total data = 0 → sumFrom initial data = 0) ∧
      (initial.toNat + total data ≠ 0 → ∀ v, v = (sumFrom initial data).toNat ↔
        1 ≤ v ∧ v ≤ 65535 ∧ v ≡ initial.toNat + total data [MOD 65535])) ∧
    ∀ pieces : List Bytes, (∀ p ∈ pieces.dropLast, p.length % 2 = 0) →
      (pieces ≠ [] ∨ initial.toNat ≤ 65535 →
        pieces.foldl sumFrom initial = sumFrom initial pieces.flatten) ∧
      finish (pieces.foldl sumFrom 0) = checksum pieces.flatten := by
  constructor
  · intro data
    refine ⟨sumFrom?_eq initial data, fun hzero => ?_, fun hsome v => ?_⟩
    · rw [← UInt32.toNat_inj, toNat_sumFrom, hzero]
      rfl
    · rw [toNat_sumFrom, residue, if_neg hsome, Nat.ModEq]
      omega
  · intro pieces heven
    have hresidue (initial : UInt32) : residue (pieces.foldl sumFrom initial).toNat =
        residue (initial.toNat + total pieces.flatten) := by
      rw [total_flatten heven, residue_foldl_sumFrom]
    refine ⟨fun hcarried => ?_, ?_⟩
    · rw [← UInt32.toNat_inj, toNat_sumFrom, ← hresidue, residue_of_le (foldl_sumFrom_le hcarried)]
    · rw [← UInt16.toNat_inj, toNat_finish, toNat_checksum, hresidue, UInt32.toNat_zero,
        Nat.zero_add]

/-- The first sum has to carry what it continues from, and the last piece ends in half a word. -/
theorem sumFrom_three_pieces :
    let pieces : List Bytes := [[0xFF, 0xFE], [], [0x12, 0x34, 0x56]]
    pieces.foldl sumFrom 0xFFFFFFFF = sumFrom 0xFFFFFFFF pieces.flatten ∧
      (sumFrom 0xFFFFFFFF pieces.flatten).toNat = 0x6833 ∧
      finish (pieces.foldl sumFrom 0) = checksum pieces.flatten := by
  intro pieces
  obtain ⟨hvalue, hpieces⟩ := sumFrom_exact 0xFFFFFFFF
  obtain ⟨hchain, hfinish⟩ := hpieces pieces (by decide)
  refine ⟨hchain (.inl nofun), ?_, hfinish⟩
  exact (((hvalue pieces.flatten).2.2 (by decide) 0x6833).2 (by decide)).symm

/-! ## Words in place of others -/

theorem sum_set {ws : List UInt16} {i : Nat} {w : UInt16} (h : ws[i]? = some w) (w' : UInt16) :
    ((ws.set i w').map UInt16.toNat).sum + w.toNat = (ws.map UInt16.toNat).sum + w'.toNat := by
  induction ws generalizing i with
  | nil => cases h
  | cons v ws ih =>
    cases i with
    | zero =>
      cases h
      simp only [List.set_cons_zero, List.map_cons, List.sum_cons]
      omega
    | succ i =>
      have hrest := ih (i := i) h
      simp only [List.set_cons_succ, List.map_cons, List.sum_cons]
      omega

/-- Two words that count the same: they are equal, or the two ways to write zero. -/
def SameValue (w w' : UInt16) : Prop := w = w' ∨ w = 0 ∧ w' = 0xFFFF ∨ w = 0xFFFF ∧ w' = 0

theorem sameValue_of_mod_eq {w w' : UInt16} (h : w.toNat % 65535 = w'.toNat % 65535) :
    SameValue w w' := by
  have hw := w.toNat_lt
  have hw' := w'.toNat_lt
  simp only [SameValue, ← UInt16.toNat_inj]
  simp only [UInt16.toNat_zero, UInt16.reduceToNat]
  omega

/-- The ways to write zero differ in both halves, so words that count the same do so or are
equal. -/
theorem SameValue.halves {hi lo hi' lo' : UInt8}
    (h : SameValue (Bytes.word hi lo) (Bytes.word hi' lo')) : hi = hi' ↔ lo = lo' := by
  have := hi.toNat_lt
  have := lo.toNat_lt
  have := hi'.toNat_lt
  have := lo'.toNat_lt
  simp only [SameValue, ← UInt16.toNat_inj, Bytes.toNat_word, UInt16.toNat_zero,
    UInt16.reduceToNat] at h
  simp only [← UInt8.toNat_inj]
  omega

/-- A changed byte changes what the word counts that it is in. -/
theorem exists_set_words {j : Nat} {b b' : UInt8} (hb : data[j]? = some b) (hne : b' ≠ b) :
    ∃ i w w', (words data)[i]? = some w ∧ words (data.set j b') = (words data).set i w' ∧
      ¬ SameValue w w' := by
  induction data using words.induct generalizing j with
  | case1 => cases hb
  | case2 last =>
    cases j with
    | zero =>
      obtain rfl : last = b := Option.some.inj hb
      exact ⟨0, Bytes.word last 0, Bytes.word b' 0, rfl, rfl, fun h => hne (h.halves.2 rfl).symm⟩
    | succ j => cases hb
  | case3 hi lo data ih =>
    match j with
    | 0 =>
      obtain rfl : hi = b := Option.some.inj hb
      exact ⟨0, Bytes.word hi lo, Bytes.word b' lo, rfl, rfl, fun h => hne (h.halves.2 rfl).symm⟩
    | 1 =>
      obtain rfl : lo = b := Option.some.inj hb
      exact ⟨0, Bytes.word hi lo, Bytes.word hi b', rfl, rfl, fun h => hne (h.halves.1 rfl).symm⟩
    | j + 2 =>
      obtain ⟨i, w, w', hw, hset, hvalue⟩ := ih hb
      exact ⟨i + 1, w, w', hw, congrArg (Bytes.word hi lo :: ·) hset, hvalue⟩

/-- Replacing one word of intact data shows, unless the new word counts the same. -/
theorem not_isIntact_of_set {data' : Bytes} {i : Nat} {w w' : UInt16} (hintact : isIntact data)
    (hw : (words data)[i]? = some w) (hset : words data' = (words data).set i w')
    (hvalue : ¬ SameValue w w') : ¬ isIntact data' := by
  intro hintact'
  have htotal : total data' + w.toNat = total data + w'.toNat := by
    rw [total, hset]
    exact sum_set hw w'
  obtain ⟨-, hmod⟩ := isIntact_iff.1 hintact
  obtain ⟨-, hmod'⟩ := isIntact_iff.1 hintact'
  exact hvalue (sameValue_of_mod_eq (by omega))

end NetHost.Checksum
