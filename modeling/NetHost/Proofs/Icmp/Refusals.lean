import NetHost.Proofs.Icmp.Conservation

/-!
# Calls that are refused

A session is started if the engine is ready and none runs, a continuous one is stopped if one runs,
and messages come in and go out once the engine is ready.  Any other such call fails at once.

* `Turn.Refuses`: a turn that refuses its call hands nothing to the IP layer and waits for nothing,
  and leaves the engine as it was, but for what it has reported.
* `World.refused_calls_change_nothing`: which calls are refused and why, in every state that the
  engine can come to, whatever calls are suspended in it.
-/

namespace NetHost.Icmp

open Ipv4 (Address)

variable {e : Engine} {t : Clock} {cause : Error}

/-- The settings of the session that a call is to start, the engine having the settings `config`. -/
def Call.plan? (config : Ping.Config) : Call → Option Ping.Config
  | .ping _ count timeout => some { config with count, timeout }
  | .pingWith _ plan => some plan
  | .startPing _ => some config
  | .startPingWith _ plan => some plan
  | _ => none

/-- The call takes a message in, or sends one that belongs to no session. -/
def Call.isMessage : Call → Bool
  | .input _ _ => true
  | .sendRequest _ _ => true
  | .sendReply _ _ => true
  | .sendUnreachable _ _ => true
  | .sendTimeExceeded _ _ => true
  | _ => false

/-- The call is over at once, with an error, and the engine has changed in its journal only. -/
def Turn.Refuses (turn : Turn) (e : Engine) (cause : Error) : Prop :=
  ∃ journal, turn = .done { e with journal } (.error cause)

theorem Turn.Refuses.refl (e : Engine) (cause : Error) :
    (Turn.done e (.error cause)).Refuses e cause :=
  ⟨e.journal, rfl⟩

namespace Engine

/-! ## Starting a session -/

/-- Why the engine starts no session now. -/
inductive Bars (e : Engine) : Error → Prop where
  | notReady (hready : ¬ e.ready) : Bars e .notReady
  | busy (hready : e.ready) (hsession : e.session.isSome) : Bars e .busy

theorem Bars.beginSession (h : e.Bars cause) (now : Instant) (destination : Address)
    (mode : Ping.Mode) (config : Ping.Config) :
    ∃ journal, e.beginSession now destination mode config = ({ e with journal }, .error cause) := by
  cases h with
  | notReady hready => exact ⟨e.journal, by rw [Engine.beginSession, if_pos (by simp [hready])]⟩
  | busy hready hsession =>
    rw [Engine.beginSession, if_neg (by simp [hready]), if_pos hsession]
    exact ⟨_, rfl⟩

/-- The error of a call that is to start a session but is refused.  The size of the payload comes
first. -/
def startError (plan : Ping.Config) (cause : Error) : Error :=
  if 1472 < plan.payloadSize.toNat then .invalid else cause

theorem refuses_plan (e : Engine) (journal : Array Note) (plan : Ping.Config) (cause : Error) :
    (if plan.normalized.payloadSize.toNat > maxEchoData then Turn.done e (.error .invalid)
      else .done { e with journal } (.error cause)).Refuses e (startError plan cause) := by
  by_cases hlarge : plan.normalized.payloadSize.toNat > maxEchoData
  · have herror : startError plan cause = .invalid := if_pos hlarge
    rw [if_pos hlarge, herror]
    exact .refl e _
  · have herror : startError plan cause = cause := if_neg hlarge
    rw [if_neg hlarge, herror]
    exact ⟨journal, rfl⟩

theorem Bars.pingWith (h : e.Bars cause) (t : Clock) (destination : Address)
    (plan : Ping.Config) :
    (e.pingWith t destination plan).Refuses e (startError plan cause) := by
  obtain ⟨journal, hbegin⟩ := h.beginSession t.now destination .blocking plan.normalized
  simp only [Engine.pingWith, hbegin]
  exact e.refuses_plan journal plan cause

theorem Bars.startPingWith (h : e.Bars cause) (t : Clock) (destination : Address)
    (plan : Ping.Config) :
    (e.startPingWith t destination plan).Refuses e (startError plan cause) := by
  obtain ⟨journal, hbegin⟩ := h.beginSession t.now destination .continuous plan.normalized
  simp only [Engine.startPingWith, hbegin]
  exact e.refuses_plan journal plan cause

/-- Every call that is to start a session is refused. -/
theorem Bars.start (h : e.Bars cause) (t : Clock) {c : Call} {plan : Ping.Config}
    (hplan : c.plan? e.config = some plan) :
    (e.start t c).Refuses e (startError plan cause) := by
  cases c <;> cases hplan
  · exact h.pingWith t _ _
  · exact h.pingWith t _ _
  · exact h.startPingWith t _ _
  · exact h.startPingWith t _ _

/-! ## Other calls -/

theorem refuses_stopPing (h : ∀ s, e.session = some s → s.mode ≠ .continuous) (t : Clock) :
    (e.start t .stopPing).Refuses e .invalid := by
  have hnot : ¬ e.session.any (·.mode = .continuous) := by
    rw [Option.any_eq_true]
    rintro ⟨s, hs, hmode⟩
    exact h s hs (of_decide_eq_true hmode)
  rw [Engine.start, Engine.stopPing, if_neg hnot]
  exact .refl e _

theorem refuses_sendEcho (hready : ¬ e.ready) (destination : Address) (kind : Kind) (limit : Nat)
    (echo : Echo) : (e.sendEcho destination kind limit echo).Refuses e .notReady := by
  rw [sendEcho, if_pos (by simp [hready])]
  exact .refl e _

theorem refuses_sendReport (hready : ¬ e.ready) (destination : Address) (kind : Kind)
    (isCode : Bool) (report : Report) :
    (e.sendReport destination kind isCode report).Refuses e .notReady := by
  rw [sendReport, if_pos (by simp [hready])]
  exact .refl e _

theorem refuses_message (hready : ¬ e.ready) (t : Clock) {c : Call} (hc : c.isMessage) :
    (e.start t c).Refuses e .notReady := by
  cases c <;> cases hc
  · rw [start, input_of_not_ready hready]
    exact .refl e _
  · exact refuses_sendEcho hready _ _ _ _
  · exact refuses_sendEcho hready _ _ _ _
  · exact refuses_sendReport hready _ _ _ _
  · exact refuses_sendReport hready _ _ _ _

end Engine

namespace World

variable {w : World} {c : Call} {config : Ping.Config}

/-- The call is refused, and no trace of it is left but in the journal.  The calls that it came in
between are suspended where they were. -/
def Refuses (w : World) (t : Clock) (c : Call) (cause : Error) : Prop :=
  ∃ journal, w.engine.start t c = .done { w.engine with journal } (.error cause) ∧
    w.call c t = { w with engine := { w.engine with journal } }

/-- Neither a poll nor a call that makes the engine ready ever fails. -/
theorem ne_of_refuses (h : (w.engine.start t c).Refuses w.engine cause) :
    c ≠ .poll ∧ c ≠ .init := by
  obtain ⟨journal, h⟩ := h
  constructor
  · rintro rfl
    rw [Engine.start] at h
    rcases w.engine.poll_cases t with ⟨-, hpoll⟩ | ⟨-, -, hpoll⟩ |
      ⟨s, -, -, -, ⟨e', -, hpoll⟩ | ⟨_, -, hpoll⟩⟩
    · cases (Turn.done.inj (hpoll.symm.trans h)).2
    · cases (Turn.done.inj (hpoll.symm.trans h)).2
    · cases hpoll.symm.trans h
    · cases (Turn.done.inj (hpoll.symm.trans h)).2
  · rintro rfl
    cases (Turn.done.inj h).2

theorem refuses_of_turn (h : (w.engine.start t c).Refuses w.engine cause) :
    w.Refuses t c cause := by
  obtain ⟨hpoll, hinit⟩ := ne_of_refuses h
  obtain ⟨journal, h⟩ := h
  refine ⟨journal, h, ?_⟩
  rw [call_of_keeps (by rw [h]; rfl), h, if_neg hinit, if_neg fun hrefused => hpoll hrefused.1]
  rfl

/-- While a session runs no other one starts, only a continuous session that runs can be stopped,
and no session and no message begins before the engine is ready.  A call that is refused for one of
these reasons leaves everything as it was, whatever else is under way. -/
theorem refused_calls_change_nothing (h : Reach config (fun _ => True) w) (t : Clock) :
    (∀ c plan, c.plan? w.engine.config = some plan →
      (w.engine.session.isSome →
        w.Refuses t c (if 1472 < plan.payloadSize.toNat then .invalid else .busy)) ∧
      (¬ w.engine.ready →
        w.Refuses t c (if 1472 < plan.payloadSize.toNat then .invalid else .notReady))) ∧
    ((∀ s, w.engine.session = some s → s.mode ≠ .continuous) → w.Refuses t .stopPing .invalid) ∧
    (¬ w.engine.ready → w.Refuses t .stopPing .invalid) ∧
    (¬ w.engine.ready → ∀ c, c.isMessage → w.Refuses t c .notReady) := by
  have hidle (hready : ¬ w.engine.ready) : ∀ s, w.engine.session ≠ some s :=
    fun s hs => hready (h.ready_of_session hs)
  refine ⟨fun c plan hplan => ⟨fun hsession => ?_, fun hready => ?_⟩, fun hmode => ?_,
    fun hready => ?_, fun hready c hc => ?_⟩
  · obtain ⟨s, hs⟩ := Option.isSome_iff_exists.1 hsession
    have hbars : w.engine.Bars .busy := .busy (h.ready_of_session hs) hsession
    exact refuses_of_turn (hbars.start t hplan)
  · have hbars : w.engine.Bars .notReady := .notReady hready
    exact refuses_of_turn (hbars.start t hplan)
  · exact refuses_of_turn (Engine.refuses_stopPing hmode t)
  · exact refuses_of_turn (Engine.refuses_stopPing (fun s hs => absurd hs (hidle hready s)) t)
  · exact refuses_of_turn (Engine.refuses_message hready t hc)

/-- A blocking session has its first echo with the IP layer, when somebody tries to start another
one or to stop it. -/
theorem second_start_is_busy :
    let host : Address := ⟨10, 0, 2, 2⟩
    let ready := ({ engine := .new {} } : World).call .init (.still 7)
    let w := ready.call (.pingWith host {}) (.still 7)
    w.frames.map (·.call) = [.sending (.pinged ⟨host, 38348, {}, 0, 3⟩)] ∧
      w.Refuses (.still 8) (.startPing host) .busy ∧
      w.Refuses (.still 8) (.pingWith host { payloadSize := 1473 }) .invalid ∧
      w.Refuses (.still 8) .stopPing .invalid := by
  intro host ready w
  have hreach : Reach {} (fun _ => True) w :=
    .step (.step .new (.call _ .init _) trivial) (.call ready _ _) trivial
  obtain ⟨hstart, hstop, -⟩ := refused_calls_change_nothing hreach (.still 8)
  refine ⟨by decide +kernel, ?_, ?_, hstop (by decide)⟩
  · have hbusy := (hstart (.startPing host) {} (by decide)).1 (by decide)
    rwa [if_neg (by decide)] at hbusy
  · have hinvalid := (hstart (.pingWith host { payloadSize := 1473 }) _ rfl).1 (by decide)
    rwa [if_pos (by decide)] at hinvalid

end World

end NetHost.Icmp
