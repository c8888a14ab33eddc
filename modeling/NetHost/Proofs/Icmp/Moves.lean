import Mathlib.Logic.Function.Iterate
import Mathlib.Tactic.Common
import NetHost.Icmp.Engine.Basic
import NetHost.Proofs.Icmp.PendingTable

/-!
# What can happen to the engine

Whatever a call does to the engine is made up of a few moves on the table, the session and its
statistics (`Move`), and of polls that find the table full (`Moves`).  Much of it does no more than
settle echoes (`Settles`).

* Each operation of the engine that changes one of the three has its equation (`sweep_eq`,
  `recordReply_eq`, `finishSession_of_some`, `register_eq_ok`).
* No move starts a session (`Moves.session`), and without a session none changes the statistics
  (`Moves.statistics_of_idle`).
-/

namespace NetHost.Icmp

open Ipv4 (Address)

variable {e e' : Engine} {now : Instant}

/-! ## The operations -/

namespace Engine

theorem owns_iff (e : Engine) (identifier : UInt16) :
    e.owns identifier ↔ ∃ s, e.session = some s ∧ s.identifier = identifier := by
  simp only [owns, Option.any_eq_true, decide_eq_true_eq]

theorem owns_iff_of_session {s : Ping.Session} (h : e.session = some s) (identifier : UInt16) :
    e.owns identifier ↔ s.identifier = identifier := by
  simp only [owns, h, Option.any_some, decide_eq_true_eq]

theorem not_owns_of_idle (h : e.session = none) (identifier : UInt16) : ¬ e.owns identifier := by
  simp only [owns, h, Option.any_none, Bool.false_eq_true, not_false_eq_true]

/-- How many echoes of a list are the session's. -/
def owned (e : Engine) (echoes : List PendingEcho) : Nat :=
  echoes.countP fun p => e.owns p.key.identifier

theorem owned_of_idle (h : e.session = none) (echoes : List PendingEcho) : e.owned echoes = 0 :=
  List.countP_eq_zero.2 fun _ _ => not_owns_of_idle h _

/-- If the session owns all that is in flight, then all that is taken out of the table. -/
theorem owned_eq_length (h : ∀ p ∈ e.pending.entries, e.owns p.key.identifier)
    (chosen : PendingEcho → Bool) :
    e.owned (e.pending.remove chosen).2 = (e.pending.remove chosen).2.length :=
  List.countP_eq_length.2 fun p hp => h p (PendingTable.mem_removed.1 hp).1

theorem owns_of_take? (h : ∀ p ∈ e.pending.entries, e.owns p.key.identifier) {key : EchoKey}
    {p : PendingEcho} {pending : PendingTable} (htake : e.pending.take? key = some (p, pending)) :
    e.owns key.identifier := by
  have hp := h p ((PendingTable.mem_entries_of_take? htake).2 (.inl rfl))
  rwa [(PendingTable.perm_entries_of_take? htake).1] at hp

theorem foldl_loseExpired (e : Engine) (expired : List PendingEcho) :
    ∃ journal, expired.foldl loseExpired e =
      { e with
        statistics := Ping.Statistics.recordLost^[e.owned expired] e.statistics
        journal } := by
  induction expired generalizing e with
  | nil => exact ⟨e.journal, rfl⟩
  | cons p expired ih =>
    by_cases hp : e.owns p.key.identifier
    · have hlose : e.loseExpired p =
          { e with statistics := e.statistics.recordLost }.note (.pingTimedOut p.key p.timeout) :=
        if_pos hp
      have howned : e.owned (p :: expired) = e.owned expired + 1 := List.countP_cons_of_pos hp
      have hrest (statistics : Ping.Statistics) (n : Note) : ∃ journal,
          expired.foldl loseExpired ({ e with statistics }.note n) =
            { e with
              statistics := Ping.Statistics.recordLost^[e.owned expired] statistics
              journal } := ih _
      rw [List.foldl_cons, hlose, howned, Function.iterate_succ_apply]
      exact hrest _ _
    · have hlose : e.loseExpired p = e := if_neg hp
      have howned : e.owned (p :: expired) = e.owned expired := List.countP_cons_of_neg hp
      rw [List.foldl_cons, hlose, howned]
      exact ih e

/-- A sweep loses what has expired and is the session's. -/
theorem sweep_eq (e : Engine) (now : Instant) :
    ∃ timeouts journal, e.sweep now =
      { e with
        pending := (e.pending.sweep now).1
        statistics := Ping.Statistics.recordLost^[e.owned (e.pending.sweep now).2] e.statistics
        counters := { e.counters with timeouts }
        journal } := by
  obtain ⟨journal, h⟩ := foldl_loseExpired { e with pending := (e.pending.sweep now).1 }
    (e.pending.sweep now).2
  exact ⟨Saturating.add32 e.counters.timeouts (e.pending.sweep now).2.length.toUInt32,
    journal, by simp only [sweep, h]; rfl⟩

theorem session_sweep (e : Engine) (now : Instant) : (e.sweep now).session = e.session := by
  obtain ⟨_, _, h⟩ := e.sweep_eq now
  rw [h]

theorem pending_sweep (e : Engine) (now : Instant) :
    (e.sweep now).pending = (e.pending.sweep now).1 := by
  obtain ⟨_, _, h⟩ := e.sweep_eq now
  rw [h]

theorem recordReply_eq (e : Engine) (identifier : UInt16) (rtt : UInt32) :
    e.recordReply identifier rtt =
      { e with
        statistics :=
          if e.owns identifier then e.statistics.recordReply rtt else e.statistics } := by
  unfold recordReply
  generalize e.statistics.recordReply rtt = statistics
  split_ifs <;> rfl

theorem recordError_eq (e : Engine) (identifier : UInt16) :
    e.recordError identifier =
      { e with
        statistics := if e.owns identifier then e.statistics.recordError else e.statistics } := by
  unfold recordError
  generalize e.statistics.recordError = statistics
  split_ifs <;> rfl

theorem session_dropEcho (e : Engine) (key : EchoKey) (cause : Error) :
    (e.dropEcho key cause).session = e.session := by
  simp only [dropEcho, note]
  split
  · rw [recordError_eq]
    rfl
  · rfl

theorem finishSession_of_none (h : e.session = none) (now : Instant) : e.finishSession now = e := by
  rw [finishSession, h]

/-- The echoes in flight are lost with the session. -/
theorem finishSession_of_some {s : Ping.Session} (h : e.session = some s) (now : Instant) :
    e.finishSession now =
      { e with
        pending := (e.pending.removeIdentifier s.identifier).1
        session := none
        active := false
        statistics := (Ping.Statistics.recordLost^[
          (e.pending.removeIdentifier s.identifier).2.length] e.statistics).finish now } := by
  simp only [finishSession, h, List.foldl_const]

theorem register_eq_ok {key : EchoKey} {timeout : UInt32}
    (h : e.register now key timeout = .ok e') :
    ∃ pending, e.pending.allocate ⟨key, now, timeout⟩ = .ok pending ∧
      e' = { e with pending, statistics := e.statistics.recordSent } := by
  unfold register at h
  split at h
  · cases h
  · cases h
    exact ⟨_, ‹_›, rfl⟩

theorem count_of_register_error {key : EchoKey} {timeout : UInt32} {cause : Error}
    (h : e.register now key timeout = .error cause) : e.pending.count = PendingTable.capacity := by
  unfold register at h
  split at h
  · exact PendingTable.allocate_eq_error_iff.1 ⟨_, ‹_›⟩
  · cases h

theorem count_of_register_ok {key : EchoKey} {timeout : UInt32}
    (h : e.register now key timeout = .ok e') : e.pending.count ≠ PendingTable.capacity := by
  obtain ⟨pending, hallocate, -⟩ := register_eq_ok h
  intro hfull
  obtain ⟨cause, herror⟩ := PendingTable.allocate_eq_error_iff.2 hfull
  rw [hallocate] at herror
  cases herror

theorem summarize_eq (e : Engine) : ∃ journal, e.summarize = { e with journal } := by
  unfold summarize
  dsimp only
  split_ifs
  · exact ⟨_, rfl⟩
  · exact ⟨_, rfl⟩

theorem report_eq (e : Engine) : ∃ journal, e.report = { e with journal } := by
  simp only [report, note]
  split
  · exact ⟨_, rfl⟩
  · exact ⟨_, rfl⟩

end Engine

/-! ## Settling -/

/-- Echoes in flight are settled, and apart from that things are counted and reported. -/
inductive Settles (e : Engine) : Engine → Prop where
  | refl : Settles e e
  | idle {e' : Engine} (h : Settles e e') (counters : Counters) (journal : Array Note) :
    Settles e { e' with counters, journal }
  | sweep {e' : Engine} (h : Settles e e') (now : Instant) : Settles e (e'.sweep now)
  | reply {e' : Engine} {key : EchoKey} {p : PendingEcho} {pending : PendingTable}
      (h : Settles e e') (rtt : UInt32) (htake : e'.pending.take? key = some (p, pending)) :
    Settles e ({ e' with pending }.recordReply key.identifier rtt)
  | fail {e' : Engine} {key : EchoKey} {p : PendingEcho} {pending : PendingTable}
      (h : Settles e e') (htake : e'.pending.take? key = some (p, pending)) :
    Settles e ({ e' with pending }.recordError key.identifier)

namespace Settles

theorem trans {e'' : Engine} (h : Settles e e') (h' : Settles e' e'') : Settles e e'' := by
  induction h' with
  | refl => exact h
  | idle h' counters journal ih => exact ih.idle counters journal
  | sweep h' now ih => exact ih.sweep now
  | reply h' rtt htake ih => exact ih.reply rtt htake
  | fail h' htake ih => exact ih.fail htake

theorem count (h : Settles e e') (counters : Counters) : Settles e { e' with counters } :=
  h.idle counters e'.journal

theorem note (h : Settles e e') (note : Note) : Settles e (e'.note note) :=
  h.idle e'.counters (e'.journal.push note)

theorem dropEcho (h : Settles e e') (key : EchoKey) (cause : Error) :
    Settles e (e'.dropEcho key cause) := by
  have hfailure : Settles e e'.countFailure := h.count _
  simp only [Engine.dropEcho]
  split
  · exact (hfailure.fail ‹_›).note _
  · exact hfailure.note _

theorem handleReply (h : Settles e e') (source : Address) (echo : Echo) (now : Instant) :
    Settles e (e'.handleReply source echo now) := by
  have hsweep := h.sweep now
  simp only [Engine.handleReply]
  split
  · exact (hsweep.count _).note _
  · exact (hsweep.reply _ ‹_›).note _

theorem handleReport (h : Settles e e') (source : Address) (kind : Kind) (report : Report) :
    Settles e (e'.handleReport source kind report) := by
  simp only [Engine.handleReport]
  split
  · exact (h.count _).note _
  · rename_i p pending htake
    obtain ⟨key, -, htake⟩ := Option.bind_eq_some_iff.1 htake
    rw [(PendingTable.perm_entries_of_take? htake).1]
    exact (h.fail htake).note _

theorem summarize (h : Settles e e') : Settles e e'.summarize := by
  obtain ⟨journal, hsummarize⟩ := e'.summarize_eq
  rw [hsummarize]
  exact h.idle e'.counters journal

theorem report (h : Settles e e') : Settles e e'.report := by
  obtain ⟨journal, hreport⟩ := e'.report_eq
  rw [hreport]
  exact h.idle e'.counters journal

theorem session (h : Settles e e') : e'.session = e.session := by
  induction h with
  | refl => rfl
  | idle h counters journal ih => exact ih
  | sweep h now ih =>
    rw [Engine.session_sweep]
    exact ih
  | reply h rtt htake ih =>
    rw [Engine.recordReply_eq]
    exact ih
  | fail h htake ih =>
    rw [Engine.recordError_eq]
    exact ih

end Settles

/-! ## Moves -/

/-- What happens to the engine in one go.  `R` tells which echoes of a session, and with which
timeouts, may get into the table. -/
inductive Move (R : Ping.Session → EchoKey → UInt32 → Prop) : Engine → Engine → Prop where
  /-- Something is counted or reported. -/
  | idle (e : Engine) (counters : Counters) (journal : Array Note) :
    Move R e { e with counters, journal }
  | sweep (e : Engine) (now : Instant) : Move R e (e.sweep now)
  /-- The session moves on to its next echo. -/
  | advance {e : Engine} {s : Ping.Session} (now : Instant) (hs : e.session = some s) :
    Move R e { e with session := some (s.advance now) }
  | register {e e' : Engine} {s : Ping.Session} {now : Instant} {key : EchoKey} {timeout : UInt32}
      (hs : e.session = some s) (hkey : R s key timeout)
      (h : e.register now key timeout = .ok e') : Move R e e'
  | reply {e : Engine} {key : EchoKey} {p : PendingEcho} {pending : PendingTable} (rtt : UInt32)
      (h : e.pending.take? key = some (p, pending)) :
    Move R e ({ e with pending }.recordReply key.identifier rtt)
  | fail {e : Engine} {key : EchoKey} {p : PendingEcho} {pending : PendingTable}
      (h : e.pending.take? key = some (p, pending)) :
    Move R e ({ e with pending }.recordError key.identifier)
  | finish (e : Engine) (now : Instant) : Move R e (e.finishSession now)

/-- Moves one after the other, and so many polls among them that found the table full. -/
inductive Moves (R : Ping.Session → EchoKey → UInt32 → Prop) : Nat → Engine → Engine → Prop where
  | refl (e : Engine) : Moves R 0 e e
  | move {n : Nat} {e e' e'' : Engine} (hs : Moves R n e e') (h : Move R e' e'') : Moves R n e e''
  | refuse {n : Nat} {e e' : Engine} {s : Ping.Session} (hs : Moves R n e e')
      (h : e'.session = some s) (hmode : s.mode = .continuous) :
    Moves R (n + 1) e (e'.recordError s.identifier)

variable {R : Ping.Session → EchoKey → UInt32 → Prop} {n : Nat}

namespace Moves

theorem settles (h : Moves R n e e') {e'' : Engine} (hs : Settles e' e'') : Moves R n e e'' := by
  induction hs with
  | refl => exact h
  | idle hs counters journal ih => exact ih.move (.idle _ counters journal)
  | sweep hs now ih => exact ih.move (.sweep _ now)
  | reply hs rtt htake ih => exact ih.move (.reply rtt htake)
  | fail hs htake ih => exact ih.move (.fail htake)

theorem idle (h : Moves R n e e') (counters : Counters) (journal : Array Note) :
    Moves R n e { e' with counters, journal } :=
  h.move (.idle e' counters journal)

theorem note (h : Moves R n e e') (note : Note) : Moves R n e (e'.note note) :=
  h.idle e'.counters (e'.journal.push note)

theorem count (h : Moves R n e e') (counters : Counters) : Moves R n e { e' with counters } :=
  h.idle counters e'.journal

theorem countSent (h : Moves R n e e') (kind : Kind) : Moves R n e (e'.countSent kind) :=
  h.count _

theorem endSession (h : Moves R n e e') (now : Instant) (identifier : UInt16) :
    Moves R n e (e'.endSession now identifier) := by
  unfold Engine.endSession
  split_ifs
  · exact h.move (.finish e' now)
  · exact h

end Moves

/-! ### What moves keep -/

theorem Move.keeps (h : Move R e e') :
    e'.ready = e.ready ∧ e'.identifiersUsed = e.identifiersUsed := by
  cases h with
  | idle counters journal => exact ⟨rfl, rfl⟩
  | sweep now =>
    obtain ⟨timeouts, journal, h⟩ := e.sweep_eq now
    rw [h]
    exact ⟨rfl, rfl⟩
  | advance now hs => exact ⟨rfl, rfl⟩
  | register hs hkey h =>
    obtain ⟨pending, -, rfl⟩ := Engine.register_eq_ok h
    exact ⟨rfl, rfl⟩
  | reply rtt h =>
    rw [Engine.recordReply_eq]
    exact ⟨rfl, rfl⟩
  | fail h =>
    rw [Engine.recordError_eq]
    exact ⟨rfl, rfl⟩
  | finish now =>
    cases hs : e.session with
    | none =>
      rw [Engine.finishSession_of_none hs]
      exact ⟨rfl, rfl⟩
    | some s =>
      rw [Engine.finishSession_of_some hs]
      exact ⟨rfl, rfl⟩

theorem Moves.keeps (h : Moves R n e e') :
    e'.ready = e.ready ∧ e'.identifiersUsed = e.identifiersUsed := by
  induction h with
  | refl e => exact ⟨rfl, rfl⟩
  | move hs h ih => exact ⟨h.keeps.1.trans ih.1, h.keeps.2.trans ih.2⟩
  | refuse hs h hmode ih =>
    rw [Engine.recordError_eq]
    exact ih

/-- The same session, at another echo. -/
structure Ping.Session.Same (s s' : Ping.Session) : Prop where
  mode : s'.mode = s.mode
  identifier : s'.identifier = s.identifier
  destination : s'.destination = s.destination
  config : s'.config = s.config

theorem Ping.Session.Same.refl (s : Ping.Session) : s.Same s := ⟨rfl, rfl, rfl, rfl⟩

theorem Ping.Session.Same.trans {s₁ s₂ s₃ : Ping.Session} (h : s₁.Same s₂) (h' : s₂.Same s₃) :
    s₁.Same s₃ :=
  ⟨h'.mode.trans h.mode, h'.identifier.trans h.identifier, h'.destination.trans h.destination,
    h'.config.trans h.config⟩

theorem Move.session (h : Move R e e') {s' : Ping.Session} (hs' : e'.session = some s') :
    ∃ s, e.session = some s ∧ s.Same s' := by
  cases h with
  | idle counters journal => exact ⟨s', hs', .refl s'⟩
  | sweep now =>
    rw [Engine.session_sweep] at hs'
    exact ⟨s', hs', .refl s'⟩
  | advance now hs =>
    cases hs'
    exact ⟨_, hs, rfl, rfl, rfl, rfl⟩
  | register hs hkey h =>
    obtain ⟨pending, -, rfl⟩ := Engine.register_eq_ok h
    exact ⟨s', hs', .refl s'⟩
  | reply rtt h =>
    rw [Engine.recordReply_eq] at hs'
    exact ⟨s', hs', .refl s'⟩
  | fail h =>
    rw [Engine.recordError_eq] at hs'
    exact ⟨s', hs', .refl s'⟩
  | finish now =>
    cases hs : e.session with
    | none =>
      rw [Engine.finishSession_of_none hs, hs] at hs'
      cases hs'
    | some s =>
      rw [Engine.finishSession_of_some hs] at hs'
      cases hs'

theorem Moves.session (h : Moves R n e e') {s' : Ping.Session} (hs' : e'.session = some s') :
    ∃ s, e.session = some s ∧ s.Same s' := by
  induction h generalizing s' with
  | refl e => exact ⟨s', hs', .refl s'⟩
  | move hs h ih =>
    obtain ⟨s₁, hs₁, hsame₁⟩ := h.session hs'
    obtain ⟨s, hs, hsame⟩ := ih hs₁
    exact ⟨s, hs, hsame.trans hsame₁⟩
  | refuse hs h hmode ih =>
    rw [Engine.recordError_eq] at hs'
    exact ih hs'

/-- Without a session there are no statistics to be kept. -/
theorem Move.statistics_of_idle (h : Move R e e') (hidle : e.session = none) :
    e'.session = none ∧ e'.statistics = e.statistics := by
  have hnone (identifier : UInt16) (pending : PendingTable) :
      ¬ ({ e with pending } : Engine).owns identifier := Engine.not_owns_of_idle hidle identifier
  cases h with
  | idle counters journal => exact ⟨hidle, rfl⟩
  | sweep now =>
    obtain ⟨timeouts, journal, h⟩ := e.sweep_eq now
    rw [h, Engine.owned_of_idle hidle]
    exact ⟨hidle, rfl⟩
  | advance now hs =>
    rw [hidle] at hs
    cases hs
  | register hs hkey h =>
    rw [hidle] at hs
    cases hs
  | reply rtt h =>
    rw [Engine.recordReply, if_neg (hnone _ _)]
    exact ⟨hidle, rfl⟩
  | fail h =>
    rw [Engine.recordError, if_neg (hnone _ _)]
    exact ⟨hidle, rfl⟩
  | finish now =>
    rw [Engine.finishSession_of_none hidle]
    exact ⟨hidle, rfl⟩

theorem Moves.statistics_of_idle (h : Moves R n e e') (hidle : e.session = none) :
    e'.session = none ∧ e'.statistics = e.statistics := by
  induction h with
  | refl e => exact ⟨hidle, rfl⟩
  | move hs h ih =>
    obtain ⟨hsession, hstatistics⟩ := ih hidle
    obtain ⟨hsession', hstatistics'⟩ := h.statistics_of_idle hsession
    exact ⟨hsession', hstatistics'.trans hstatistics⟩
  | refuse hs h hmode ih =>
    rw [(ih hidle).1] at h
    cases h

end NetHost.Icmp
