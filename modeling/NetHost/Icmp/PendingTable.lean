import NetHost.Icmp.Error
import NetHost.Icmp.Message
import NetHost.Time

/-!
# The table of echoes in flight

The table has sixteen slots, each free or holding an echo request that waits for its answer.  An
entry carries its own timeout, so entries expire without regard to who sent them.  A slot that
becomes free is only marked so and keeps what it held, so whoever looks through the slots has to
look at the mark first (`Slot.holds`).  What counts is the entries in slot order
(`PendingTable.entries`): a new one takes the first free slot.
-/

namespace NetHost.Icmp

structure PendingEcho where
  key : EchoKey
  /-- When it was handed to the IP layer. -/
  sentAt : Instant
  /-- Milliseconds it is waited for. -/
  timeout : UInt32
  deriving DecidableEq, Repr

namespace PendingEcho

def blank : PendingEcho := ⟨⟨.unspecified, 0, 0⟩, 0, 0⟩

def isExpired (p : PendingEcho) (now : Instant) : Bool :=
  Saturating.sub64 now p.sentAt > p.timeout.toUInt64

end PendingEcho

structure Slot where
  /-- What the slot holds, or has held last if it is free. -/
  echo : PendingEcho := .blank
  active : Bool := false
  deriving DecidableEq, Repr

namespace Slot

/-- The slot holds an echo, and that one is chosen. -/
def holds (s : Slot) (chosen : PendingEcho → Bool) : Bool := s.active && chosen s.echo

def isExpired (s : Slot) (now : Instant) : Bool := s.holds (·.isExpired now)

def free (s : Slot) : Slot := { s with active := false }

/-- The echo that the slot holds, if it holds one. -/
def echo? (s : Slot) : Option PendingEcho := if s.active then some s.echo else none

/-- The slots with `p` in the first free one. -/
def claim? (p : PendingEcho) : List Slot → Option (List Slot)
  | [] => none
  | s :: slots => if s.active then (claim? p slots).map (s :: ·) else some (⟨p, true⟩ :: slots)

/-- The first echo with the given key, and the slots after that one is freed. -/
def release? (key : EchoKey) : List Slot → Option (PendingEcho × List Slot)
  | [] => none
  | s :: slots =>
    if s.holds (·.key = key) then some (s.echo, s.free :: slots)
    else (release? key slots).map fun r => (r.1, s :: r.2)

/-- The slots after all whose echo is chosen are freed, and these echoes in slot order. -/
def clear (chosen : PendingEcho → Bool) : List Slot → List Slot × List PendingEcho
  | [] => ([], [])
  | s :: slots =>
    let (slots, cleared) := clear chosen slots
    if s.holds chosen then (s.free :: slots, s.echo :: cleared) else (s :: slots, cleared)

/-! A free slot counts for nothing, whatever it has held. -/

theorem holds_active (q : PendingEcho) (chosen : PendingEcho → Bool) :
    holds ⟨q, true⟩ chosen = chosen q := rfl

theorem echoes_free (q : PendingEcho) (slots : List Slot) :
    (⟨q, false⟩ :: slots).filterMap echo? = slots.filterMap echo? := rfl

theorem echoes_active (q : PendingEcho) (slots : List Slot) :
    (⟨q, true⟩ :: slots).filterMap echo? = q :: slots.filterMap echo? := rfl

theorem claim?_free (p q : PendingEcho) (slots : List Slot) :
    claim? p (⟨q, false⟩ :: slots) = some (⟨p, true⟩ :: slots) := rfl

theorem claim?_active (p q : PendingEcho) (slots : List Slot) :
    claim? p (⟨q, true⟩ :: slots) = (claim? p slots).map (⟨q, true⟩ :: ·) := rfl

theorem release?_free (q : PendingEcho) (key : EchoKey) (slots : List Slot) :
    release? key (⟨q, false⟩ :: slots) =
      (release? key slots).map fun r => (r.1, ⟨q, false⟩ :: r.2) := rfl

theorem release?_active (q : PendingEcho) (key : EchoKey) (slots : List Slot) :
    release? key (⟨q, true⟩ :: slots) =
      if q.key = key then some (q, ⟨q, false⟩ :: slots)
      else (release? key slots).map fun r => (r.1, ⟨q, true⟩ :: r.2) := by
  simp only [release?, holds_active, decide_eq_true_eq]
  rfl

theorem length_of_claim? {p : PendingEcho} {slots r : List Slot} (h : claim? p slots = some r) :
    r.length = slots.length := by
  induction slots generalizing r with
  | nil => cases h
  | cons s slots ih =>
    simp only [claim?] at h
    split at h
    · obtain ⟨t, ht, rfl⟩ := Option.map_eq_some_iff.1 h
      simp [ih ht]
    · cases h
      rfl

theorem length_of_release? {key : EchoKey} {slots : List Slot} {r : PendingEcho × List Slot}
    (h : release? key slots = some r) : r.2.length = slots.length := by
  induction slots generalizing r with
  | nil => cases h
  | cons s slots ih =>
    simp only [release?] at h
    split at h
    · cases h
      rfl
    · obtain ⟨t, ht, rfl⟩ := Option.map_eq_some_iff.1 h
      simp [ih ht]

theorem length_clear (chosen : PendingEcho → Bool) (slots : List Slot) :
    (clear chosen slots).1.length = slots.length := by
  induction slots with
  | nil => rfl
  | cons s slots ih =>
    simp only [clear]
    split <;> simp [ih]

/-- Claiming a slot adds one echo to those that the slots hold. -/
theorem perm_of_claim? {p : PendingEcho} {slots r : List Slot} (h : claim? p slots = some r) :
    (r.filterMap echo?).Perm (p :: slots.filterMap echo?) := by
  induction slots generalizing r with
  | nil => cases h
  | cons s slots ih =>
    rcases s with ⟨q, _ | _⟩
    · cases h
      exact .refl _
    · obtain ⟨t, ht, rfl⟩ := Option.map_eq_some_iff.1 h
      exact ((ih ht).cons q).trans (.swap p q _)

/-- Releasing a slot takes out one echo, which has the key. -/
theorem perm_of_release? {key : EchoKey} {slots : List Slot} {r : PendingEcho × List Slot}
    (h : release? key slots = some r) :
    r.1.key = key ∧ (slots.filterMap echo?).Perm (r.1 :: r.2.filterMap echo?) := by
  induction slots generalizing r with
  | nil => cases h
  | cons s slots ih =>
    rcases s with ⟨q, _ | _⟩
    · rw [release?_free] at h
      obtain ⟨t, ht, rfl⟩ := Option.map_eq_some_iff.1 h
      exact ⟨(ih ht).1, (ih ht).2⟩
    · rw [release?_active] at h
      split at h
      · cases h
        exact ⟨‹_›, .refl _⟩
      · obtain ⟨t, ht, rfl⟩ := Option.map_eq_some_iff.1 h
        exact ⟨(ih ht).1, ((ih ht).2.cons q).trans (.swap t.1 q _)⟩

/-- What is cleared are the chosen ones among the echoes that the slots hold, and the others are
left. -/
theorem echoes_clear (chosen : PendingEcho → Bool) (slots : List Slot) :
    (clear chosen slots).1.filterMap echo? =
        (slots.filterMap echo?).filter (fun p => !chosen p) ∧
      (clear chosen slots).2 = (slots.filterMap echo?).filter chosen := by
  induction slots with
  | nil => exact ⟨rfl, rfl⟩
  | cons s slots ih =>
    rcases s with ⟨q, _ | _⟩
    · exact ih
    · rw [echoes_active]
      cases hq : chosen q with
      | false =>
        rw [List.filter_cons_of_pos (by simp [hq]),
          List.filter_cons_of_neg (p := chosen) (by simp [hq]), ← ih.1, ← ih.2]
        simp only [clear, holds_active, hq]
        exact ⟨rfl, rfl⟩
      | true =>
        rw [List.filter_cons_of_pos (p := chosen) hq,
          List.filter_cons_of_neg (by simp [hq]), ← ih.1, ← ih.2]
        simp only [clear, holds_active, hq]
        exact ⟨rfl, rfl⟩

end Slot

structure PendingTable where
  slots : List Slot
  length_slots : slots.length = 16
  deriving DecidableEq

namespace PendingTable

def capacity : Nat := 16

def empty : PendingTable := ⟨List.replicate 16 {}, List.length_replicate⟩

instance : Inhabited PendingTable := ⟨empty⟩

/-- The echoes in flight, in slot order. -/
def entries (t : PendingTable) : List PendingEcho := t.slots.filterMap Slot.echo?

def count (t : PendingTable) : Nat := t.slots.countP (·.active)

def allocate (t : PendingTable) (p : PendingEcho) : Except Error PendingTable :=
  match h : Slot.claim? p t.slots with
  | none => .error .busy
  | some slots => .ok ⟨slots, (Slot.length_of_claim? h).trans t.length_slots⟩

/-- Frees the first slot with a given key, and tells what it held. -/
def take? (t : PendingTable) (key : EchoKey) : Option (PendingEcho × PendingTable) :=
  match h : Slot.release? key t.slots with
  | none => none
  | some r => some (r.1, ⟨r.2, (Slot.length_of_release? h).trans t.length_slots⟩)

def contains (t : PendingTable) (key : EchoKey) : Bool := t.slots.any (·.holds (·.key = key))

/-- Frees every slot whose echo is chosen, and tells what these held, in slot order. -/
def remove (t : PendingTable) (chosen : PendingEcho → Bool) : PendingTable × List PendingEcho :=
  (⟨(Slot.clear chosen t.slots).1, (Slot.length_clear chosen t.slots).trans t.length_slots⟩,
    (Slot.clear chosen t.slots).2)

def sweep (t : PendingTable) (now : Instant) : PendingTable × List PendingEcho :=
  t.remove (·.isExpired now)

def removeIdentifier (t : PendingTable) (identifier : UInt16) : PendingTable × List PendingEcho :=
  t.remove (·.key.identifier = identifier)

theorem count_eq (t : PendingTable) : t.count = t.entries.length := by
  rw [count, entries]
  induction t.slots with
  | nil => rfl
  | cons s slots ih =>
    rcases s with ⟨q, _ | _⟩
    · exact ih
    · rw [List.countP_cons_of_pos (p := Slot.active) rfl, ih]
      rfl

theorem perm_entries_of_allocate {t t' : PendingTable} {p : PendingEcho}
    (h : t.allocate p = .ok t') : t'.entries.Perm (p :: t.entries) := by
  unfold allocate at h
  split at h
  · cases h
  · cases h
    exact Slot.perm_of_claim? ‹_›

theorem perm_entries_of_take? {t t' : PendingTable} {key : EchoKey} {p : PendingEcho}
    (h : t.take? key = some (p, t')) : p.key = key ∧ t.entries.Perm (p :: t'.entries) := by
  unfold take? at h
  split at h
  · cases h
  · cases h
    exact Slot.perm_of_release? ‹_›

theorem entries_remove (t : PendingTable) (chosen : PendingEcho → Bool) :
    (t.remove chosen).1.entries = t.entries.filter fun p => !chosen p :=
  (Slot.echoes_clear chosen t.slots).1

theorem removed_eq (t : PendingTable) (chosen : PendingEcho → Bool) :
    (t.remove chosen).2 = t.entries.filter chosen :=
  (Slot.echoes_clear chosen t.slots).2

theorem contains_eq (t : PendingTable) (key : EchoKey) :
    t.contains key = t.entries.any (·.key = key) := by
  rw [contains, entries]
  induction t.slots with
  | nil => rfl
  | cons s slots ih =>
    rcases s with ⟨q, _ | _⟩
    · exact ih
    · rw [List.any_cons, ih]
      rfl

end PendingTable

end NetHost.Icmp
