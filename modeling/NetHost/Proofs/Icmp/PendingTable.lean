import Mathlib.Data.List.Perm.Subperm
import Mathlib.Tactic.Common
import NetHost.Icmp.PendingTable

/-!
# The echoes in flight

How each operation of the table changes its entries and their number, when the table is full
(`allocate_eq_error_iff`), and when it has no echo with a given key (`take?_eq_none_iff`).  Echoes
with other keys may be removed before one is taken out or after (`take?_remove`).
-/

namespace NetHost.Icmp

namespace PendingEcho

variable {p : PendingEcho} {now later : Instant}

theorem isExpired_eq_false_iff :
    p.isExpired now = false ↔ now.toNat ≤ p.sentAt.toNat + p.timeout.toNat := by
  rw [isExpired, decide_eq_false_iff_not, gt_iff_lt, UInt64.lt_iff_toNat_lt,
    Saturating.toNat_sub64, UInt32.toNat_toUInt64]
  omega

theorem isExpired_mono (h : p.isExpired now = true) (hle : now ≤ later) :
    p.isExpired later = true := by
  rw [← Bool.not_eq_false, isExpired_eq_false_iff] at h ⊢
  rw [UInt64.le_iff_toNat_le] at hle
  omega

end PendingEcho

namespace Slot

variable {p : PendingEcho} {slots : List Slot}

theorem claim?_eq_none_iff :
    claim? p slots = none ↔ (slots.filterMap echo?).length = slots.length := by
  induction slots with
  | nil => exact ⟨fun _ => rfl, fun _ => rfl⟩
  | cons s slots ih =>
    rcases s with ⟨q, _ | _⟩
    · have hlength : (slots.filterMap echo?).length ≤ slots.length :=
        List.length_filterMap_le echo? slots
      rw [claim?_free, echoes_free, List.length_cons]
      simp only [reduceCtorEq, false_iff]
      omega
    · rw [claim?_active, Option.map_eq_none_iff, ih, echoes_active, List.length_cons,
        List.length_cons, Nat.add_right_cancel_iff]

theorem release?_eq_none_iff {key : EchoKey} :
    release? key slots = none ↔ ∀ p ∈ slots.filterMap echo?, p.key ≠ key := by
  induction slots with
  | nil => exact ⟨fun _ p hp => absurd hp List.not_mem_nil, fun _ => rfl⟩
  | cons s slots ih =>
    rcases s with ⟨q, _ | _⟩
    · rw [release?_free, Option.map_eq_none_iff, ih, echoes_free]
    · rw [release?_active, echoes_active, List.forall_mem_cons]
      split_ifs with hq
      · simp only [ne_eq, hq, not_true_eq_false, false_and]
      · rw [Option.map_eq_none_iff, ih]
        exact ⟨fun h => ⟨hq, h⟩, fun h => h.2⟩

/-- What is released is the first echo with the key. -/
theorem map_fst_release? {key : EchoKey} :
    (release? key slots).map Prod.fst = (slots.filterMap echo?).find? (·.key = key) := by
  induction slots with
  | nil => rfl
  | cons s slots ih =>
    rcases s with ⟨q, _ | _⟩
    · rw [release?_free, Option.map_map, echoes_free, ← ih]
      rfl
    · rw [release?_active, echoes_active]
      split_ifs with hq
      · rw [List.find?_cons_of_pos (by simpa using hq)]
        rfl
      · rw [List.find?_cons_of_neg (by simpa using hq), Option.map_map, ← ih]
        rfl

/-- The slot is freed if its echo is chosen. -/
def without (chosen : PendingEcho → Bool) (s : Slot) : Slot := if s.holds chosen then s.free else s

theorem without_free (chosen : PendingEcho → Bool) (q : PendingEcho) :
    without chosen ⟨q, false⟩ = ⟨q, false⟩ := rfl

theorem without_active (chosen : PendingEcho → Bool) (q : PendingEcho) :
    without chosen ⟨q, true⟩ = ⟨q, !chosen q⟩ := by
  rw [without, holds_active]
  split_ifs with hq
  · rw [hq]
    rfl
  · rw [Bool.not_eq_true] at hq
    rw [hq]
    rfl

/-- Each slot is freed or left on its own. -/
theorem fst_clear (chosen : PendingEcho → Bool) (slots : List Slot) :
    (clear chosen slots).1 = slots.map (without chosen) := by
  induction slots with
  | nil => rfl
  | cons s slots ih =>
    simp only [clear, List.map_cons, without, ← ih]
    split_ifs <;> rfl

/-- The first echo with a key stays the first if none with the key is taken away. -/
theorem release?_map_without {key : EchoKey} {chosen : PendingEcho → Bool}
    (h : ∀ p ∈ slots.filterMap echo?, p.key = key → chosen p = false) :
    release? key (slots.map (without chosen)) =
      (release? key slots).map fun r => (r.1, r.2.map (without chosen)) := by
  induction slots with
  | nil => rfl
  | cons s slots ih =>
    rcases s with ⟨q, _ | _⟩
    · rw [echoes_free] at h
      rw [List.map_cons, without_free, release?_free, release?_free, ih h, Option.map_map,
        Option.map_map]
      rfl
    · rw [echoes_active, List.forall_mem_cons] at h
      rw [List.map_cons, without_active, release?_active]
      cases hchosen : chosen q with
      | false =>
        rw [Bool.not_false, release?_active]
        split_ifs
        · rfl
        · rw [ih h.2, Option.map_map, Option.map_map]
          simp only [Function.comp_def, List.map_cons, without_active, hchosen, Bool.not_false]
      | true =>
        have hq : q.key ≠ key := fun hq => by
          rw [h.1 hq] at hchosen
          cases hchosen
        rw [Bool.not_true, release?_free, if_neg hq, ih h.2, Option.map_map, Option.map_map]
        simp only [Function.comp_def, List.map_cons, without_active, hchosen, Bool.not_true]

end Slot

namespace PendingTable

variable {t t' : PendingTable} {p : PendingEcho} {key : EchoKey}

/-- There is no slot for one more echo if and only if sixteen are in flight. -/
theorem allocate_eq_error_iff : (∃ cause, t.allocate p = .error cause) ↔ t.count = capacity := by
  have hfull : Slot.claim? p t.slots = none ↔ t.count = capacity := by
    rw [Slot.claim?_eq_none_iff, t.length_slots, count_eq]
    rfl
  rw [← hfull]
  unfold allocate
  split
  · exact ⟨fun _ => ‹_›, fun _ => ⟨.busy, rfl⟩⟩
  · rename_i slots h
    constructor
    · rintro ⟨_, h'⟩
      cases h'
    · intro h'
      rw [h] at h'
      cases h'

theorem count_eq_zero_iff : t.count = 0 ↔ t.entries = [] := by
  rw [count_eq, List.length_eq_zero_iff]

theorem count_of_perm (h : t.entries.Perm (p :: t'.entries)) : t.count = t'.count + 1 := by
  rw [count_eq, count_eq, h.length_eq, List.length_cons]

theorem count_of_allocate (h : t.allocate p = .ok t') : t'.count = t.count + 1 :=
  count_of_perm (perm_entries_of_allocate h)

theorem mem_entries_of_allocate (h : t.allocate p = .ok t') {q : PendingEcho} :
    q ∈ t'.entries ↔ q = p ∨ q ∈ t.entries := by
  rw [(perm_entries_of_allocate h).mem_iff, List.mem_cons]

theorem take?_eq_none_iff : t.take? key = none ↔ ∀ p ∈ t.entries, p.key ≠ key := by
  rw [entries, ← Slot.release?_eq_none_iff]
  unfold take?
  split
  · exact ⟨fun _ => ‹_›, fun _ => rfl⟩
  · rename_i r h
    constructor
    · intro h'
      cases h'
    · intro h'
      rw [h] at h'
      cases h'

theorem map_fst_take? (t : PendingTable) (key : EchoKey) :
    (t.take? key).map Prod.fst = t.entries.find? (·.key = key) := by
  rw [entries, ← Slot.map_fst_release?]
  unfold take?
  split
  · rename_i h
    rw [h]
    rfl
  · rename_i r h
    exact (congrArg (Option.map Prod.fst) h).symm

theorem count_of_take? (h : t.take? key = some (p, t')) : t.count = t'.count + 1 :=
  count_of_perm (perm_entries_of_take? h).2

theorem mem_entries_of_take? (h : t.take? key = some (p, t')) {q : PendingEcho} :
    q ∈ t.entries ↔ q = p ∨ q ∈ t'.entries := by
  rw [(perm_entries_of_take? h).2.mem_iff, List.mem_cons]

theorem subperm_of_take? (h : t.take? key = some (p, t')) : t'.entries.Subperm t.entries :=
  (List.sublist_cons_self p t'.entries).subperm.trans (perm_entries_of_take? h).2.symm.subperm

theorem subperm_remove (t : PendingTable) (chosen : PendingEcho → Bool) :
    (t.remove chosen).1.entries.Subperm t.entries := by
  rw [entries_remove]
  exact List.filter_sublist.subperm

theorem count_remove (t : PendingTable) (chosen : PendingEcho → Bool) :
    t.count = (t.remove chosen).1.count + (t.remove chosen).2.length := by
  rw [count_eq, count_eq, entries_remove, removed_eq, Nat.add_comm]
  exact List.length_eq_length_filter_add chosen

theorem mem_entries_remove {chosen : PendingEcho → Bool} {q : PendingEcho} :
    q ∈ (t.remove chosen).1.entries ↔ q ∈ t.entries ∧ chosen q = false := by
  rw [entries_remove, List.mem_filter, Bool.not_eq_true']

theorem mem_removed {chosen : PendingEcho → Bool} {q : PendingEcho} :
    q ∈ (t.remove chosen).2 ↔ q ∈ t.entries ∧ chosen q = true := by
  rw [removed_eq, List.mem_filter]

theorem contains_iff : t.contains key = true ↔ ∃ p ∈ t.entries, p.key = key := by
  simp only [contains_eq, List.any_eq_true, decide_eq_true_eq]

theorem ext_slots (h : t.slots = t'.slots) : t = t' := by
  cases t
  cases t'
  cases h
  rfl

theorem slots_remove (t : PendingTable) (chosen : PendingEcho → Bool) :
    (t.remove chosen).1.slots = t.slots.map (Slot.without chosen) :=
  Slot.fst_clear chosen t.slots

theorem remove_remove (t : PendingTable) (chosen chosen' : PendingEcho → Bool) :
    ((t.remove chosen).1.remove chosen').1 = (t.remove fun p => chosen p || chosen' p).1 := by
  apply ext_slots
  rw [slots_remove, slots_remove, slots_remove, List.map_map]
  refine List.map_congr_left fun s _ => ?_
  rcases s with ⟨q, _ | _⟩
  · rfl
  · rw [Function.comp_apply, Slot.without_active, Slot.without_active]
    cases chosen q with
    | false => exact Slot.without_active chosen' q
    | true => rfl

/-- Nothing changes if none of the echoes is chosen. -/
theorem remove_of_forall {chosen : PendingEcho → Bool} (h : ∀ p ∈ t.entries, chosen p = false) :
    (t.remove chosen).1 = t := by
  apply ext_slots
  rw [slots_remove]
  refine (List.map_congr_left fun s hs => ?_).trans t.slots.map_id
  rcases s with ⟨q, _ | _⟩
  · rfl
  · have hq : q ∈ t.entries := List.mem_filterMap.2 ⟨_, hs, rfl⟩
    rw [Slot.without_active, h q hq]
    rfl

theorem map_slots_take? (t : PendingTable) (key : EchoKey) :
    (t.take? key).map (fun r => (r.1, r.2.slots)) = Slot.release? key t.slots := by
  unfold take?
  split
  · rename_i h
    exact h.symm
  · rename_i r h
    exact h.symm

/-- The first echo with a key stays the first if none with the key is removed. -/
theorem take?_remove {chosen : PendingEcho → Bool}
    (h : ∀ p ∈ t.entries, p.key = key → chosen p = false) :
    (t.remove chosen).1.take? key =
      (t.take? key).map fun r => (r.1, (r.2.remove chosen).1) := by
  have hinj : Function.Injective fun r : PendingEcho × PendingTable => (r.1, r.2.slots) := by
    rintro ⟨p, t₁⟩ ⟨q, t₂⟩ heq
    obtain ⟨hp, hslots⟩ := Prod.mk.inj heq
    exact Prod.ext hp (ext_slots hslots)
  apply Option.map_injective hinj
  rw [map_slots_take?, slots_remove, Slot.release?_map_without h, ← map_slots_take?,
    Option.map_map, Option.map_map]
  simp only [Function.comp_def, slots_remove]

end PendingTable

end NetHost.Icmp
