/-!
# Saturating sums

Counts and clock readings have a fixed width.  Sums that would leave it stop at the largest value,
and differences that would fall below zero stop there.
-/

namespace NetHost.Saturating

/-- `a + b`, or the largest 32-bit value if that is too large. -/
def add32 (a b : UInt32) : UInt32 := if b ≤ 0xFFFFFFFF - a then a + b else 0xFFFFFFFF

/-- `a + b`, or the largest 64-bit value if that is too large. -/
def add64 (a b : UInt64) : UInt64 :=
  if b ≤ 0xFFFFFFFFFFFFFFFF - a then a + b else 0xFFFFFFFFFFFFFFFF

/-- `a - b`, or zero if `b` is the larger one. -/
def sub64 (a b : UInt64) : UInt64 := if b ≤ a then a - b else 0

/-- A 64-bit value as a 32-bit one, the largest one if it does not fit. -/
def clamp32 (a : UInt64) : UInt32 := (min a 0xFFFFFFFF).toUInt32

theorem toNat_add32 (a b : UInt32) : (add32 a b).toNat = min (a.toNat + b.toNat) 0xFFFFFFFF := by
  have ha := a.toNat_lt
  have hs : (0xFFFFFFFF - a : UInt32).toNat = 0xFFFFFFFF - a.toNat := by
    rw [UInt32.toNat_sub_of_le _ _ (by rw [UInt32.le_iff_toNat_le]; simp; omega)]
    rfl
  unfold add32
  split
  · rename_i h
    rw [UInt32.le_iff_toNat_le, hs] at h
    rw [UInt32.toNat_add]
    omega
  · rename_i h
    rw [UInt32.le_iff_toNat_le, hs] at h
    simp
    omega

theorem toNat_add32_one (a : UInt32) : (add32 a 1).toNat = min (a.toNat + 1) 0xFFFFFFFF := by
  rw [toNat_add32, UInt32.toNat_one]

theorem toNat_add64 (a b : UInt64) :
    (add64 a b).toNat = min (a.toNat + b.toNat) 0xFFFFFFFFFFFFFFFF := by
  have ha := a.toNat_lt
  have hs : (0xFFFFFFFFFFFFFFFF - a : UInt64).toNat = 0xFFFFFFFFFFFFFFFF - a.toNat := by
    rw [UInt64.toNat_sub_of_le _ _ (by rw [UInt64.le_iff_toNat_le]; simp; omega)]
    rfl
  unfold add64
  split
  · rename_i h
    rw [UInt64.le_iff_toNat_le, hs] at h
    rw [UInt64.toNat_add]
    omega
  · rename_i h
    rw [UInt64.le_iff_toNat_le, hs] at h
    simp
    omega

theorem toNat_sub64 (a b : UInt64) : (sub64 a b).toNat = a.toNat - b.toNat := by
  unfold sub64
  split
  · rename_i h
    exact UInt64.toNat_sub_of_le _ _ h
  · rename_i h
    rw [UInt64.le_iff_toNat_le] at h
    simp
    omega

theorem toNat_min32 (a b : UInt32) : (min a b).toNat = min a.toNat b.toNat := by
  rw [show min a b = if a ≤ b then a else b from rfl, Nat.min_def]
  simp only [UInt32.le_iff_toNat_le, apply_ite UInt32.toNat]

theorem toNat_min64 (a b : UInt64) : (min a b).toNat = min a.toNat b.toNat := by
  rw [show min a b = if a ≤ b then a else b from rfl, Nat.min_def]
  simp only [UInt64.le_iff_toNat_le, apply_ite UInt64.toNat]

theorem toNat_clamp32 (a : UInt64) : (clamp32 a).toNat = min a.toNat 0xFFFFFFFF := by
  rw [clamp32, UInt64.toNat_toUInt32, toNat_min64]
  have : (0xFFFFFFFF : UInt64).toNat = 0xFFFFFFFF := rfl
  omega

end NetHost.Saturating
