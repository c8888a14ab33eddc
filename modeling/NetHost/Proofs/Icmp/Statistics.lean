import Mathlib.Logic.Function.Iterate
import Mathlib.Tactic.Common
import NetHost.Icmp.Ping.Statistics

/-!
# Counting in the statistics of a session

What each operation changes: one count goes up by one, unless it is at its largest value.  Losses
are at most a hundred per cent (`lossPercent_le`).
-/

namespace NetHost.Icmp.Ping.Statistics

theorem recordSent_eq (s : Statistics) :
    ∃ sent, s.recordSent = { s with sent } ∧
      sent.toNat = min (s.sent.toNat + 1) 0xFFFFFFFF :=
  ⟨_, rfl, Saturating.toNat_add32_one s.sent⟩

theorem recordReply_eq (s : Statistics) (rtt : UInt32) :
    ∃ received rttMin rttMax rttSum,
      s.recordReply rtt = { s with received, rttMin, rttMax, rttSum } ∧
      received.toNat = min (s.received.toNat + 1) 0xFFFFFFFF :=
  ⟨_, _, _, _, rfl, Saturating.toNat_add32_one s.received⟩

theorem recordError_eq (s : Statistics) :
    ∃ errors, s.recordError = { s with errors } ∧
      errors.toNat = min (s.errors.toNat + 1) 0xFFFFFFFF :=
  ⟨_, rfl, Saturating.toNat_add32_one s.errors⟩

theorem active_recordReply (s : Statistics) (rtt : UInt32) :
    (s.recordReply rtt).active = s.active := by
  obtain ⟨_, _, _, _, hs, -⟩ := s.recordReply_eq rtt
  rw [hs]

theorem active_recordError (s : Statistics) : s.recordError.active = s.active := by
  obtain ⟨_, hs, -⟩ := s.recordError_eq
  rw [hs]

theorem iterate_recordLost (s : Statistics) (k : Nat) :
    ∃ lost, recordLost^[k] s = { s with lost } ∧
      lost.toNat = min (s.lost.toNat + k) 0xFFFFFFFF := by
  induction k with
  | zero =>
    have := s.lost.toNat_lt
    exact ⟨s.lost, rfl, by omega⟩
  | succ k ih =>
    obtain ⟨lost, h, hlost⟩ := ih
    refine ⟨Saturating.add32 lost 1, ?_, ?_⟩
    · rw [Function.iterate_succ_apply', h]
      rfl
    · rw [Saturating.toNat_add32_one, hlost]
      omega

theorem recordError_iterate_recordLost (s : Statistics) (k : Nat) :
    (recordLost^[k] s).recordError = recordLost^[k] s.recordError := by
  have hcommute : Function.Commute recordError recordLost := fun s => by
    rw [recordError, recordLost, recordLost, recordError]
  exact hcommute.iterate_right k s

theorem lossPercent_le {s : Statistics} (h : s.lost.toNat ≤ s.sent.toNat) :
    s.lossPercent.toNat ≤ 100 := by
  have hlost := s.lost.toNat_lt
  unfold lossPercent
  split_ifs with hsent
  · exact Nat.zero_le 100
  · have hhundred : (100 : UInt64).toNat = 100 := rfl
    have hdiv : (s.lost.toUInt64 * 100 / s.sent.toUInt64).toNat =
        s.lost.toNat * 100 / s.sent.toNat := by
      rw [UInt64.toNat_div, UInt64.toNat_mul, UInt32.toNat_toUInt64, UInt32.toNat_toUInt64,
        hhundred, Nat.mod_eq_of_lt (by omega)]
    have hle : s.lost.toNat * 100 / s.sent.toNat ≤ 100 := by
      apply Nat.div_le_of_le_mul
      omega
    rw [UInt64.toNat_toUInt32, hdiv]
    exact Nat.le_trans (Nat.mod_le _ _) hle

end NetHost.Icmp.Ping.Statistics
