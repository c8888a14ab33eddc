import Mathlib.Tactic.Common
import NetHost.Proofs.Icmp.Blocking
import NetHost.Proofs.Icmp.Conservation
import NetHost.Proofs.Icmp.Integrity

/-!
# Runs on a clock that never goes back

`World.Timed` has the runs of the engine in which each step starts where the clock was when the one
before ended.  What happened to the session that runs, or ran last, is on record (`Record`): so an
answer to an echo that may still be answered goes on record (`World.Timed.answer`).
-/

namespace NetHost

/-- The clock reads nothing before `first` or after `last`, and never goes back. -/
structure Clock.Runs (t : Clock) (first last : Instant) : Prop where
  first_le : first ≤ t.now
  mono : ∀ n, t.reading n ≤ t.reading (n + 1)
  le_last : ∀ n, t.reading n ≤ last

namespace Clock.Runs

variable {t : Clock} {first last : Instant}

theorem now_le_reading (h : t.Runs first last) (n : Nat) : t.now ≤ t.reading n := by
  induction n with
  | zero => exact UInt64.le_refl t.now
  | succ n ih => exact UInt64.le_trans ih (h.mono n)

theorem still {now : Instant} (h : first ≤ now) : (Clock.still now).Runs first now :=
  ⟨h, fun _ => UInt64.le_refl now, fun _ => UInt64.le_refl now⟩

end Clock.Runs

namespace Icmp

open Ipv4 (Address)

/-! ## What is on record -/

/-- An echo that was answered in time. -/
structure Answer where
  echo : PendingEcho
  arrival : Instant
  deriving DecidableEq, Repr

/-- How many milliseconds the answer took. -/
def Answer.roundTrip (a : Answer) : Nat := a.arrival.toNat - a.echo.sentAt.toNat

/-- The echo in flight with the key, if it may still be answered.  An answer may take as long as the
echo is waited for, and no longer. -/
def Engine.inTime? (e : Engine) (key : EchoKey) (now : Instant) : Option PendingEcho :=
  e.pending.entries.find? fun p =>
    p.key = key ∧ now.toNat - p.sentAt.toNat ≤ p.timeout.toNat

theorem Engine.inTime?_eq_some {e : Engine} {key : EchoKey} {now : Instant} {p : PendingEcho}
    (h : e.inTime? key now = some p) :
    p ∈ e.pending.entries ∧ p.key = key ∧ now.toNat - p.sentAt.toNat ≤ p.timeout.toNat := by
  have hp := List.find?_some h
  rw [decide_eq_true_eq] at hp
  exact ⟨List.mem_of_find?_eq_some h, hp⟩

/-- An answer in time is to the echo with its key, if there is only one. -/
theorem Engine.inTime?_of_perm {e : Engine} {p : PendingEcho} {others : List PendingEcho}
    {now : Instant} (h : e.pending.entries.Perm (p :: others))
    (hothers : ∀ q ∈ others, q.key ≠ p.key)
    (htime : now.toNat - p.sentAt.toNat ≤ p.timeout.toNat) : e.inTime? p.key now = some p := by
  cases hfound : e.inTime? p.key now with
  | none =>
    have hnot := List.find?_eq_none.1 hfound p (h.mem_iff.2 List.mem_cons_self)
    simp [htime] at hnot
  | some q =>
    obtain ⟨hq, hkey, -⟩ := inTime?_eq_some hfound
    rcases List.mem_cons.1 (h.mem_iff.1 hq) with rfl | hq
    · rfl
    · exact absurd hkey (hothers q hq)

/-- The echo that a packet is the answer to. -/
def Engine.answered? (e : Engine) (now : Instant) (source : Address) (packet : Bytes) :
    Option PendingEcho :=
  match Message.decode packet with
  | .ok (.echoReply echo) => e.inTime? ⟨source, echo.identifier, echo.sequence⟩ now
  | _ => none

structure Record where
  now : Instant
  /-- The session that runs, or ran last. -/
  session : Option Ping.Session := none
  /-- Its answers, the latest one first. -/
  answers : List Answer := []

/-- The answer that comes in with a call, if one does. -/
def Engine.heard (e : Engine) (c : Call) (t : Clock) : List Answer :=
  match c with
  | .input source packet => ((e.answered? t.now source packet).map (⟨·, t.now⟩)).toList
  | _ => []

/-- The answer to the echo comes in. -/
def EchoKey.answer (key : EchoKey) : Call :=
  .input key.destination (Packet.echo .echoReply ⟨key.identifier, key.sequence, []⟩)

theorem Engine.heard_answer (e : Engine) (key : EchoKey) (t : Clock) :
    e.heard key.answer t = ((e.inTime? key t.now).map (⟨·, t.now⟩)).toList := by
  rw [EchoKey.answer, heard, answered?, Packet.decode_echo .reply]

namespace World

/-- The steps of the engine in use, with the clock that they are made on. -/
inductive StepAt (t : Clock) : World → Option Call → World → Prop where
  | call (w : World) (c : Call) : StepAt t w (some c) (w.call c t)
  | resume {w : World} {before after : List Frame} {f : Frame} {turn : Turn}
      (hframes : w.frames = before ++ f :: after) (hturn : Resumes w.engine t f.call turn) :
    StepAt t w none
      { w with engine := turn.engine, frames := suspend (before ++ after) turn f.born }

/-- The record after a step from `w` to `w'`.  It begins anew with each session. -/
def recordOf (r : Record) (w w' : World) (c : Option Call) (t : Clock) (later : Instant) :
    Record where
  now := later
  session := w'.engine.session.or r.session
  answers :=
    if c = some .init ∨ w'.starts ≠ w.starts then []
    else c.elim [] (w.engine.heard · t) ++ r.answers

/-- The worlds that a new engine comes to on a clock that never goes back, by steps that are `ok`,
each with the record of what happened. -/
inductive Timed (config : Ping.Config) (ok : Clock → World → Prop) : World → Record → Prop where
  | new (now : Instant) : Timed config ok { engine := .new config } { now }
  | step {w w' : World} {r : Record} {c : Option Call} {t : Clock} {later : Instant}
      (h : Timed config ok w r) (hstep : StepAt t w c w') (hruns : t.Runs r.now later)
      (hok : ok t w') : Timed config ok w' (recordOf r w w' c t later)

variable {config : Ping.Config} {ok : Clock → World → Prop} {w w' : World} {r : Record}
  {c : Option Call} {t : Clock}

theorem StepAt.step (h : StepAt t w c w') : Step w c w' := by
  cases h with
  | call c => exact .call w c t
  | resume hframes hturn => exact .resume hframes hturn

theorem Timed.reach {ok' : World → Prop} (himp : ∀ t w, ok t w → ok' w)
    (h : Timed config ok w r) : Reach config ok' w := by
  induction h with
  | new now => exact .new
  | step _ hstep _ hok ih => exact .step ih hstep.step (himp _ _ hok)

theorem Timed.reach_true (h : Timed config ok w r) : Reach config (fun _ => True) w :=
  h.reach fun _ _ _ => trivial

theorem Timed.conserves (h : Timed config ok w r) : Conserves w.mode w.refused w.engine :=
  h.reach_true.conserves

theorem Timed.ready_or_empty (h : Timed config ok w r) :
    w.engine.ready ∨ w.engine.pending.entries = [] := by
  cases hs : w.engine.session with
  | none => exact .inr (h.conserves.entries_of_idle hs)
  | some s => exact .inl (h.reach_true.ready_of_session hs)

theorem Timed.session (h : Timed config ok w r) {s : Ping.Session}
    (hs : w.engine.session = some s) : r.session = some s := by
  cases h with
  | new now => cases hs
  | step =>
    rw [recordOf, hs]
    rfl

/-! ## Answers -/

variable {key : EchoKey} {p : PendingEcho} {later : Instant}

theorem starts_answer (w : World) (key : EchoKey) (t : Clock) :
    (w.call key.answer t).starts = w.starts := by
  have haside : Aside w.engine (w.engine.start t key.answer) := .input .refl _ _ _
  rw [call_of_keeps ((Moves.refl (R := HasIdentifier) w.engine).settles haside.settles).keeps.2]

theorem ready_answer (w : World) (key : EchoKey) (t : Clock) :
    (w.call key.answer t).engine.ready = w.engine.ready := by
  have haside : Aside w.engine (w.engine.start t key.answer) := .input .refl _ _ _
  rw [engine_call]
  exact ((Moves.refl (R := HasIdentifier) w.engine).settles haside.settles).keeps.1

theorem session_answer (w : World) (key : EchoKey) (t : Clock) :
    (w.call key.answer t).engine.session = w.engine.session := by
  have haside : Aside w.engine (w.engine.start t key.answer) := .input .refl _ _ _
  rw [engine_call, haside.settles.session]

/-- An answer frees the slot that is found for it. -/
theorem pending_answer (hready : w.engine.ready) {pending : PendingTable}
    (htake : (w.engine.pending.sweep later).1.take? key = some (p, pending)) :
    (w.call key.answer (.still later)).engine.pending = pending := by
  have hdecode := Packet.decode_echo .reply ⟨key.identifier, key.sequence, []⟩
  obtain ⟨counters, hinput⟩ :=
    Engine.input_of_echoReply hready hdecode (.still later) key.destination
  have hsweep : (Engine.sweep { w.engine with counters } later).pending =
      (w.engine.pending.sweep later).1 := Engine.pending_sweep _ _
  rw [engine_call]
  show (w.engine.input _ _ _).engine.pending = _
  rw [hinput]
  show (Engine.handleReply _ _ _ later).pending = pending
  simp only [Engine.handleReply, hsweep, htake, Engine.recordReply_eq]
  rfl

theorem Timed.answer (h : Timed config ok w r) (hp : w.engine.inTime? key later = some p)
    (hnow : r.now ≤ later) (hok : ok (.still later) (w.call key.answer (.still later))) :
    ∃ r', Timed config ok (w.call key.answer (.still later)) r' ∧ r'.now = later ∧
      r'.answers = ⟨p, later⟩ :: r.answers ∧
      ∀ s, w.engine.session = some s → r'.session = some s := by
  have hstarts := w.starts_answer key (.still later)
  have hheard : w.engine.heard key.answer (.still later) = [⟨p, later⟩] := by
    have hp' : w.engine.inTime? key (Clock.still later).now = some p := hp
    rw [Engine.heard_answer, hp']
    rfl
  have hinit : some key.answer ≠ some Call.init := by simp [EchoKey.answer]
  have hanswer := h.step (.call w key.answer) (.still hnow) hok
  refine ⟨_, hanswer, rfl, ?_, fun s hs => hanswer.session ((session_answer _ _ _).trans hs)⟩
  simp only [recordOf, hstarts, hinit, ne_eq, not_true_eq_false, or_self, if_false, Option.elim,
    hheard]
  rfl

end World

end Icmp

end NetHost
