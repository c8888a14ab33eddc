import Mathlib.Data.Multiset.Filter
import NetHost.Proofs.Icmp.PendingTable

/-!
# The table as a bag of echoes

Nothing shows the slot of an echo but the order in which a sweep reports.  Apart from that order
the table is a bag of at most sixteen echoes, in which several may have one key.

* `Bag.Answers` says, without slots, what may be answered to a request and which bag is left.
* `PendingTable.answers_ask`: the table gives such an answer to every request, whatever it holds.
* `PendingTable.refines_bag`: so it does throughout any sequence of requests, and sweeps report in
  slot order.
-/

namespace NetHost.Icmp

abbrev Bag := Multiset PendingEcho

/-- The echo is older than its timeout.  One that was sent later than `now` has no age. -/
def PendingEcho.Overdue (now : Instant) (p : PendingEcho) : Prop :=
  p.timeout.toNat < now.toNat - p.sentAt.toNat

instance (now : Instant) : DecidablePred (PendingEcho.Overdue now) :=
  fun p => inferInstanceAs (Decidable (p.timeout.toNat < now.toNat - p.sentAt.toNat))

theorem PendingEcho.overdue_iff {now : Instant} {p : PendingEcho} :
    p.Overdue now ↔ p.isExpired now = true := by
  rw [← Bool.not_eq_false, isExpired_eq_false_iff, Overdue]
  omega

namespace PendingTable

inductive Request where
  | allocate (p : PendingEcho)
  | take (key : EchoKey)
  | contains (key : EchoKey)
  | sweep (now : Instant)
  | removeIdentifier (identifier : UInt16)
  | count
  deriving DecidableEq

inductive Answer where
  | allocated
  | refused (cause : Error)
  | taken (p? : Option PendingEcho)
  | held (isHeld : Bool)
  /-- The expired echoes, as they were reported one after the other, and their number. -/
  | swept (expired : List PendingEcho) (number : Nat)
  | removed (number : Nat)
  | counted (number : Nat)
  deriving DecidableEq

/-- The table after a request, and the answer.  A table that refuses an echo stays as it is. -/
def ask (t : PendingTable) : Request → PendingTable × Answer
  | .allocate p =>
    match t.allocate p with
    | .ok t' => (t', .allocated)
    | .error cause => (t, .refused cause)
  | .take key =>
    match t.take? key with
    | some (p, t') => (t', .taken (some p))
    | none => (t, .taken none)
  | .contains key => (t, .held (t.contains key))
  | .sweep now => ((t.sweep now).1, .swept (t.sweep now).2 (t.sweep now).2.length)
  | .removeIdentifier identifier =>
    ((t.removeIdentifier identifier).1, .removed (t.removeIdentifier identifier).2.length)
  | .count => (t, .counted t.count)

/-- The table after some requests, and the answers. -/
def run (t : PendingTable) : List Request → PendingTable × List Answer
  | [] => (t, [])
  | request :: requests =>
    let (t', answer) := t.ask request
    let (t'', answers) := t'.run requests
    (t'', answer :: answers)

/-- The echoes in flight, no matter in which slots. -/
def bag (t : PendingTable) : Bag := t.entries

end PendingTable

open PendingTable (Request Answer)

/-! ## The bag -/

namespace Bag

/-- The answers that a bag of echoes may give to a request, and the bag it then is. -/
inductive Answers : Bag → Request → Answer → Bag → Prop where
  | allocated {bag : Bag} {p : PendingEcho} (hroom : bag.card < 16) :
    Answers bag (.allocate p) .allocated (p ::ₘ bag)
  | refused {bag : Bag} {p : PendingEcho} (hfull : 16 ≤ bag.card) :
    Answers bag (.allocate p) (.refused .busy) bag
  /-- Any one of the echoes with the key, if there are several. -/
  | taken {bag : Bag} {key : EchoKey} {p : PendingEcho} (hkey : p.key = key) :
    Answers (p ::ₘ bag) (.take key) (.taken (some p)) bag
  | absent {bag : Bag} {key : EchoKey} (habsent : ∀ p ∈ bag, p.key ≠ key) :
    Answers bag (.take key) (.taken none) bag
  | held {bag : Bag} {key : EchoKey} (hheld : ∃ p ∈ bag, p.key = key) :
    Answers bag (.contains key) (.held true) bag
  | notHeld {bag : Bag} {key : EchoKey} (habsent : ∀ p ∈ bag, p.key ≠ key) :
    Answers bag (.contains key) (.held false) bag
  | swept {bag : Bag} {now : Instant} {expired : List PendingEcho}
      (hexpired : (expired : Bag) = bag.filter (·.Overdue now)) :
    Answers bag (.sweep now) (.swept expired expired.length) (bag.filter (¬ ·.Overdue now))
  | removed (bag : Bag) (identifier : UInt16) :
    Answers bag (.removeIdentifier identifier)
      (.removed (bag.filter (·.key.identifier = identifier)).card)
      (bag.filter (·.key.identifier ≠ identifier))
  | counted (bag : Bag) : Answers bag .count (.counted bag.card) bag

/-- The same for one request after the other. -/
inductive Run : Bag → List Request → List Answer → Bag → Prop where
  | nil (bag : Bag) : Run bag [] [] bag
  | cons {bag bag' bag'' : Bag} {request : Request} {requests : List Request} {answer : Answer}
      {answers : List Answer} (h : Answers bag request answer bag')
      (hrest : Run bag' requests answers bag'') :
    Run bag (request :: requests) (answer :: answers) bag''

end Bag

/-! ## The table -/

namespace PendingTable

variable {t t' : PendingTable} {p : PendingEcho} {key : EchoKey}

theorem bag_empty : empty.bag = 0 := rfl

theorem count_le_capacity (t : PendingTable) : t.count ≤ capacity := by
  have hle : t.count ≤ t.slots.length := List.countP_le_length
  rwa [t.length_slots] at hle

theorem card_bag (t : PendingTable) : t.bag.card = t.count := t.count_eq.symm

theorem bag_of_allocate (h : t.allocate p = .ok t') : t'.bag = p ::ₘ t.bag :=
  Multiset.coe_eq_coe.2 (perm_entries_of_allocate h)

theorem card_of_allocate (h : t.allocate p = .ok t') : t.bag.card < 16 := by
  have hcount := count_of_allocate h
  have hle : t'.count ≤ 16 := t'.count_le_capacity
  rw [card_bag]
  omega

theorem cause_of_allocate {cause : Error} (h : t.allocate p = .error cause) :
    cause = .busy ∧ 16 ≤ t.bag.card := by
  have hfull : t.count = 16 := allocate_eq_error_iff.1 ⟨cause, h⟩
  refine ⟨?_, (t.card_bag.trans hfull).ge⟩
  unfold allocate at h
  split at h
  · exact (Except.error.inj h).symm
  · cases h

theorem bag_of_take? (h : t.take? key = some (p, t')) : t.bag = p ::ₘ t'.bag :=
  Multiset.coe_eq_coe.2 (perm_entries_of_take? h).2

/-- What a removal leaves, and what it takes out, for a choice made by `gone`. -/
theorem bag_remove (gone : PendingEcho → Prop) [DecidablePred gone] {chosen : PendingEcho → Bool}
    (h : ∀ p, gone p ↔ chosen p = true) (t : PendingTable) :
    (t.remove chosen).1.bag = t.bag.filter (¬ gone ·) ∧
      ((t.remove chosen).2 : Bag) = t.bag.filter gone := by
  obtain rfl : chosen = fun p => decide (gone p) := by
    funext p
    rw [Bool.eq_iff_iff, decide_eq_true_iff, h]
  constructor
  · rw [bag, entries_remove, bag, Multiset.filter_coe]
    simp only [decide_not]
  · rw [removed_eq, bag, Multiset.filter_coe]

theorem bag_sweep (t : PendingTable) (now : Instant) :
    (t.sweep now).1.bag = t.bag.filter (¬ ·.Overdue now) ∧
      ((t.sweep now).2 : Bag) = t.bag.filter (·.Overdue now) :=
  bag_remove (·.Overdue now) (fun _ => PendingEcho.overdue_iff) t

theorem bag_removeIdentifier (t : PendingTable) (identifier : UInt16) :
    (t.removeIdentifier identifier).1.bag = t.bag.filter (·.key.identifier ≠ identifier) ∧
      ((t.removeIdentifier identifier).2 : Bag) = t.bag.filter (·.key.identifier = identifier) :=
  bag_remove (·.key.identifier = identifier) (fun _ => decide_eq_true_iff.symm) t

/-- Every answer of the table is one that its bag may give, and leaves that bag. -/
theorem answers_ask (t : PendingTable) (request : Request) :
    Bag.Answers t.bag request (t.ask request).2 (t.ask request).1.bag := by
  cases request with
  | allocate p =>
    simp only [ask]
    cases h : t.allocate p with
    | ok t' =>
      rw [bag_of_allocate h]
      exact .allocated (card_of_allocate h)
    | error cause =>
      obtain ⟨rfl, hfull⟩ := cause_of_allocate h
      exact .refused hfull
  | take key =>
    simp only [ask]
    cases h : t.take? key with
    | some taken =>
      rw [bag_of_take? h]
      exact .taken (perm_entries_of_take? h).1
    | none => exact .absent (take?_eq_none_iff.1 h)
  | contains key =>
    simp only [ask]
    cases h : t.contains key with
    | true => exact .held (contains_iff.1 h)
    | false =>
      refine .notHeld fun p hp hkey => ?_
      rw [contains_iff.2 ⟨p, hp, hkey⟩] at h
      cases h
  | sweep now =>
    obtain ⟨hleft, hexpired⟩ := t.bag_sweep now
    simp only [ask, hleft]
    exact .swept hexpired
  | removeIdentifier identifier =>
    obtain ⟨hleft, hremoved⟩ := t.bag_removeIdentifier identifier
    have hnumber : (t.removeIdentifier identifier).2.length =
        (t.bag.filter (·.key.identifier = identifier)).card := by
      rw [← hremoved, Multiset.coe_card]
    simp only [ask, hleft, hnumber]
    exact .removed t.bag identifier
  | count =>
    simp only [ask, ← t.card_bag]
    exact .counted t.bag

/-! ## Any sequence of requests -/

theorem bagRun_run (t : PendingTable) (requests : List Request) :
    Bag.Run t.bag requests (t.run requests).2 (t.run requests).1.bag := by
  induction requests generalizing t with
  | nil => exact .nil t.bag
  | cons request requests ih => exact .cons (t.answers_ask request) (ih _)

theorem answers_run_append (t : PendingTable) (before after : List Request) :
    (t.run (before ++ after)).2 = (t.run before).2 ++ ((t.run before).1.run after).2 := by
  induction before generalizing t with
  | nil => rfl
  | cons request before ih =>
    simp only [List.cons_append, run, ih]

/-- Whatever is asked of it, the table answers as a bag of sixteen echoes does and holds what that
bag holds, and each sweep reports in slot order. -/
theorem refines_bag (t : PendingTable) (requests : List Request) :
    empty.bag = 0 ∧ Bag.Run t.bag requests (t.run requests).2 (t.run requests).1.bag ∧
      ∀ now, ∃ expired,
        (t.run (requests ++ [.sweep now])).2 =
            (t.run requests).2 ++ [.swept expired expired.length] ∧
          expired.Sublist (t.run requests).1.entries := by
  refine ⟨bag_empty, t.bagRun_run requests, fun now => ?_⟩
  refine ⟨((t.run requests).1.sweep now).2, ?_, ?_⟩
  · rw [answers_run_append]
    rfl
  · rw [sweep, removed_eq]
    exact List.filter_sublist

/-- Two echoes with one key are two echoes, and what they leave in their slots is none. -/
example : let p : PendingEcho := ⟨⟨⟨10, 0, 2, 2⟩, 1, 0⟩, 7, 100⟩
    (empty.run [.allocate p, .allocate p, .take p.key, .contains p.key, .sweep 108,
        .contains p.key, .count]).2 =
      [.allocated, .allocated, .taken (some p), .held true, .swept [p] 1, .held false,
        .counted 0] := by
  decide

end PendingTable

end NetHost.Icmp
