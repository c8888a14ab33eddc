import Mathlib.Tactic.Common
import NetHost.Proofs.Icmp.Integrity
import NetHost.Proofs.Icmp.World

/-!
# The echoes that a poll tries

An echo of a continuous session is tried when it goes to the IP layer, or is reported as not sent
because no slot was free (`Turn.tried`).  Which echo goes to the IP layer is read off the packet.

* A poll tries the next echo of the session if that is due, and schedules the one after it
  (`tries_poll`).
* Any other turn tries none, and leaves the session as it is or ends it (`rests_poll`,
  `rests_start`, `rests_resumes`).
-/

namespace NetHost.Icmp

open Ipv4 (Address)

def Note.unsent? : Note → Option EchoKey
  | pingNotSent key _ => some key
  | _ => none

/-- The echoes that were reported as not sent. -/
def Engine.unsent (e : Engine) : List EchoKey := e.journal.toList.filterMap Note.unsent?

/-- The echo that a packet asks `destination` for. -/
def EchoKey.asked? (destination : Address) (packet : Bytes) : Option EchoKey :=
  match Message.decode packet with
  | .ok (.echoRequest echo) => some ⟨destination, echo.identifier, echo.sequence⟩
  | _ => none

theorem EchoKey.asked?_eq_some_iff {destination : Address} {packet : Bytes} {key : EchoKey} :
    asked? destination packet = some key ↔
      destination = key.destination ∧ ∃ payload,
        Message.decode packet = .ok (.echoRequest ⟨key.identifier, key.sequence, payload⟩) := by
  unfold asked?
  constructor
  · intro h
    split at h
    · rename_i echo hdecode
      cases h
      exact ⟨rfl, echo.payload, hdecode⟩
    · cases h
  · rintro ⟨rfl, payload, hdecode⟩
    rw [hdecode]

theorem Engine.asked?_echoPacket (key : EchoKey) (config : Ping.Config) :
    EchoKey.asked? key.destination (echoPacket key config) = some key := by
  rw [EchoKey.asked?, echoPacket, Packet.decode_echo .request]

namespace Turn

/-- The echo of a continuous session that the turn gives to the IP layer. -/
def polled : Turn → List EchoKey
  | .send _ destination packet (.polled _) => (EchoKey.asked? destination packet).toList
  | _ => []

/-- The echoes of continuous sessions that a turn tries, when it starts from the engine `e`. -/
def tried (e : Engine) (turn : Turn) : List EchoKey :=
  turn.engine.unsent.drop e.unsent.length ++ turn.polled

end Turn

variable {e e' e'' : Engine} {n : Note} {t : Clock} {turn : Turn}

theorem Engine.unsent_note (e : Engine) (n : Note) :
    (e.note n).unsent = e.unsent ++ n.unsent?.toList := by
  rw [unsent, unsent, note, Array.toList_push, List.filterMap_append]
  cases h : n.unsent? <;> simp [h]

theorem Turn.tried_eq (keys : List EchoKey) (h : turn.engine.unsent = e.unsent ++ keys) :
    turn.tried e = keys ++ turn.polled := by
  rw [tried, h, List.drop_left]

/-! ## What tries nothing -/

/-- No echo is reported as not sent, and the session stays as it is or ends. -/
structure Engine.Stands (e e' : Engine) : Prop where
  session : e'.session = e.session ∨ e'.session = none
  ready : e.ready → e'.ready
  identifiersUsed : e'.identifiersUsed = e.identifiersUsed
  unsent : e'.unsent = e.unsent

namespace Engine.Stands

theorem session_eq_some (h : Stands e e') {s : Ping.Session} (hs : e'.session = some s) :
    e.session = some s := by
  rcases h.session with heq | hnone
  · rw [← heq, hs]
  · rw [hnone] at hs
    cases hs

theorem refl (e : Engine) : Stands e e := ⟨.inl rfl, id, rfl, rfl⟩

theorem trans (h : Stands e e') (h' : Stands e' e'') : Stands e e'' where
  session := h'.session.elim (fun heq => heq ▸ h.session) .inr
  ready := h'.ready ∘ h.ready
  identifiersUsed := h'.identifiersUsed.trans h.identifiersUsed
  unsent := h'.unsent.trans h.unsent

theorem count (h : Stands e e') (counters : Counters) : Stands e { e' with counters } :=
  h.trans ⟨.inl rfl, id, rfl, rfl⟩

theorem settle (h : Stands e e') (pending : PendingTable) : Stands e { e' with pending } :=
  h.trans ⟨.inl rfl, id, rfl, rfl⟩

theorem tally (h : Stands e e') (statistics : Ping.Statistics) :
    Stands e { e' with statistics } :=
  h.trans ⟨.inl rfl, id, rfl, rfl⟩

theorem note (h : Stands e e') (hn : n.unsent? = none) : Stands e (e'.note n) := by
  refine h.trans ⟨.inl rfl, id, rfl, ?_⟩
  rw [unsent_note, hn]
  exact List.append_nil _

theorem loseExpired (h : Stands e e') (p : PendingEcho) : Stands e (e'.loseExpired p) := by
  unfold Engine.loseExpired
  split_ifs
  · exact (h.tally _).note (by rfl)
  · exact h

theorem sweep (h : Stands e e') (now : Instant) : Stands e (e'.sweep now) := by
  have hlose (expired : List PendingEcho) {e₁ : Engine} (h₁ : Stands e e₁) :
      Stands e (expired.foldl Engine.loseExpired e₁) := by
    induction expired generalizing e₁ with
    | nil => exact h₁
    | cons p expired ih => exact ih (h₁.loseExpired p)
  exact (hlose (e'.pending.sweep now).2 (h.settle (e'.pending.sweep now).1)).count _

theorem recordError (h : Stands e e') (identifier : UInt16) :
    Stands e (e'.recordError identifier) := by
  rw [recordError_eq]
  exact h.tally _

theorem recordReply (h : Stands e e') (identifier : UInt16) (rtt : UInt32) :
    Stands e (e'.recordReply identifier rtt) := by
  rw [recordReply_eq]
  exact h.tally _

theorem dropEcho (h : Stands e e') (key : EchoKey) (cause : Error) :
    Stands e (e'.dropEcho key cause) := by
  have hfailure : Stands e e'.countFailure := h.count _
  simp only [Engine.dropEcho]
  split
  · exact ((hfailure.settle _).recordError key.identifier).note (by rfl)
  · exact hfailure.note (by rfl)

theorem drop (h : Stands e e') (source : Address) (damage : Damage) :
    Stands e (e'.drop source damage) := by
  cases damage with
  | truncated => exact (h.count _).note (by rfl)
  | badChecksum => exact (h.count _).note (by rfl)

theorem handleReply (h : Stands e e') (source : Address) (echo : Echo) (now : Instant) :
    Stands e (e'.handleReply source echo now) := by
  have hsweep := h.sweep now
  simp only [Engine.handleReply]
  split
  · exact (hsweep.count _).note (by rfl)
  · exact ((hsweep.settle _).recordReply echo.identifier _).note (by rfl)

theorem handleReport (h : Stands e e') (source : Address) (kind : Kind) (report : Report) :
    Stands e (e'.handleReport source kind report) := by
  simp only [Engine.handleReport]
  split
  · exact (h.count _).note (by rfl)
  · exact ((h.settle _).recordError _).note (by rfl)

theorem finishSession (h : Stands e e') (now : Instant) : Stands e (e'.finishSession now) := by
  cases hs : e'.session with
  | none =>
    rw [finishSession_of_none hs]
    exact h
  | some s =>
    rw [finishSession_of_some hs]
    exact h.trans ⟨.inr rfl, id, rfl, rfl⟩

theorem endSession (h : Stands e e') (now : Instant) (identifier : UInt16) :
    Stands e (e'.endSession now identifier) := by
  unfold Engine.endSession
  split_ifs
  · exact h.finishSession now
  · exact h

theorem summarize (h : Stands e e') : Stands e e'.summarize := by
  simp only [Engine.summarize]
  split_ifs
  · exact (h.note (by rfl)).note (by rfl)
  · exact h.note (by rfl)

theorem report (h : Stands e e') : Stands e e'.report := by
  simp only [Engine.report]
  split
  · exact ((((h.note (by rfl)).note (by rfl)).note (by rfl)).note (by rfl)).note (by rfl)
  · exact ((((h.note (by rfl)).note (by rfl)).note (by rfl)).note (by rfl)).note (by rfl)

theorem init (h : Stands e e') : Stands e e'.init := by
  have hjournal : e'.init.unsent = (e'.note .ready).unsent := rfl
  refine h.trans ⟨.inr rfl, fun _ => rfl, rfl, ?_⟩
  rw [hjournal, unsent_note]
  exact List.append_nil _

theorem register {now : Instant} {key : EchoKey} {timeout : UInt32} (h : Stands e e')
    (hregister : e'.register now key timeout = .ok e'') : Stands e e'' := by
  obtain ⟨pending, -, rfl⟩ := register_eq_ok hregister
  exact (h.settle pending).tally _

end Engine.Stands

/-- The turn tries no echo, and the session stays as it is or ends. -/
structure Turn.Rests (e : Engine) (turn : Turn) : Prop where
  stands : e.Stands turn.engine
  polled : turn.polled = []

namespace Turn.Rests

theorem tried (h : turn.Rests e) : turn.tried e = [] := by
  rw [tried_eq [] (h.stands.unsent.trans (List.append_nil _).symm), h.polled, List.append_nil]

theorem done (h : e.Stands e') (reply : Reply) : Rests e (.done e' reply) := ⟨h, rfl⟩

theorem transmit (h : e.Stands e') (destination : Address) (kind : Kind) (packet : Bytes) :
    Rests e (e'.transmit destination kind packet) := ⟨h, rfl⟩

theorem sleep (h : e.Stands e') (ms : UInt32) (rest : Sleeping) : Rests e (.sleep e' ms rest) :=
  ⟨h, rfl⟩

theorem sendEcho (h : e.Stands e') (destination : Address) (kind : Kind) (limit : Nat)
    (echo : Echo) : Rests e (e'.sendEcho destination kind limit echo) := by
  unfold Engine.sendEcho
  split_ifs
  · exact done h _
  · exact done h _
  · exact transmit h destination kind _

theorem sendReport (h : e.Stands e') (destination : Address) (kind : Kind) (isCode : Bool)
    (report : Report) : Rests e (e'.sendReport destination kind isCode report) := by
  unfold Engine.sendReport
  split_ifs
  · exact done h _
  · exact done h _
  · exact transmit h destination kind _

theorem input (h : e.Stands e') (t : Clock) (source : Address) (packet : Bytes) :
    Rests e (e'.input t source packet) := by
  unfold Engine.input
  split_ifs
  · exact done h _
  · dsimp only
    split
    · exact done ((h.count _).drop source _) _
    · exact sendEcho ((h.count _).count _) source .echoReply maxPayload _
    · exact done (((h.count _).count _).handleReply source _ t.now) _
    · exact done (((h.count _).count _).handleReport source .unreachable _) _
    · exact done (((h.count _).count _).handleReport source .timeExceeded _) _
    · exact done (((h.count _).count _).note (by rfl)) _

theorem conclude (h : e.Stands e') (t : Clock) (run : Run) : Rests e (e'.conclude t run) :=
  done (h.endSession t.now run.identifier).summarize _

theorem attempt (h : e.Stands e') (t : Clock) (run : Run) : Rests e (e'.attempt t run) := by
  unfold Engine.attempt
  split_ifs
  · split
    · exact done (h.endSession t.later.now run.identifier) _
    · exact ⟨h.register ‹_›, rfl⟩
  · exact conclude h t.later run
  · exact sleep h _ _

theorem proceed (h : e.Stands e') (t : Clock) (run : Run) : Rests e (e'.proceed t run) := by
  unfold Engine.proceed
  split_ifs
  · exact conclude h t run
  · exact attempt h t run.next
  · exact sleep h _ _

theorem await (h : e.Stands e') (t : Clock) (run : Run) : Rests e (e'.await t run) := by
  have hsweep := h.sweep t.now
  simp only [Engine.await]
  split_ifs
  · exact sleep hsweep _ _
  · exact proceed hsweep t.later run

end Turn.Rests

/-- What is left of a poll, once its echo went to the IP layer, tries none. -/
theorem rests_resumes {f : Suspended} (h : Resumes e t f turn) : turn.Rests e := by
  have hrefl : e.Stands e := .refl e
  cases h with
  | sent answer rest =>
    cases rest with
    | message kind destination =>
      cases answer with
      | ok _ => exact .done (hrefl.count _) _
      | error cause => exact .done ((hrefl.count _).note (by rfl)) _
    | polled key =>
      cases answer with
      | ok _ => exact .done (hrefl.count _) _
      | error cause => exact .done (hrefl.dropEcho key cause) _
    | pinged run =>
      cases answer with
      | ok _ => exact .await (hrefl.count _) t run
      | error cause => exact .proceed (hrefl.dropEcho run.key cause) t run
  | woken rest =>
    cases rest with
    | awaiting run => exact .await hrefl t run
    | pausing run => exact .attempt hrefl t run

/-! ## What a poll tries -/

theorem rests_poll (hdue : ∀ s, e.session = some s → s.mode = .continuous → t.now < s.nextSendAt) :
    (e.poll t).Rests e := by
  have hsweep : e.Stands (e.sweep t.now) := (Engine.Stands.refl e).sweep t.now
  rcases e.poll_cases t with ⟨-, hpoll⟩ | ⟨-, -, hpoll⟩ | ⟨s, -, hs, ⟨hmode, hle⟩, -⟩
  · rw [hpoll]
    exact .done (.refl e) _
  · rw [hpoll]
    exact .done hsweep _
  · exact absurd hle (UInt64.not_le.2 (hdue s hs hmode))

/-- The turn tries the next echo of the session `s`, and the session goes on to the one after. -/
structure Turn.Tries (s : Ping.Session) (now : Instant) (e : Engine) (turn : Turn) : Prop where
  session : turn.engine.session = some (s.advance now)
  ready : turn.engine.ready
  tried : turn.tried e = [⟨s.destination, s.identifier, s.nextSequence⟩]

/-- Whether or not there is a free slot. -/
theorem tries_poll {s : Ping.Session} (hready : e.ready) (hs : e.session = some s)
    (hmode : s.mode = .continuous) (hdue : s.nextSendAt ≤ t.now) :
    (e.poll t).Tries s t.now e := by
  have hsweep : e.Stands (e.sweep t.now) := (Engine.Stands.refl e).sweep t.now
  rw [Engine.poll_of_due hready hs ⟨hmode, hdue⟩]
  have hsession : (e.movedOn s t.now).session = some (s.advance t.now) := rfl
  have hready₁ : (e.movedOn s t.now).ready := hsweep.ready hready
  have hunsent : (e.movedOn s t.now).unsent = e.unsent := hsweep.unsent
  -- From here on only session, readiness and journal of the advanced engine matter.
  generalize e.movedOn s t.now = e₁ at hsession hready₁ hunsent
  split
  · rename_i e₂ hregister
    obtain ⟨pending, -, rfl⟩ := Engine.register_eq_ok hregister
    refine ⟨hsession, hready₁, ?_⟩
    refine (Turn.tried_eq [] ?_).trans (congrArg Option.toList
      (Engine.asked?_echoPacket ⟨s.destination, s.identifier, s.nextSequence⟩ s.config))
    exact hunsent.trans (List.append_nil _).symm
  · rename_i cause hregister
    rw [Engine.recordError_eq]
    refine ⟨hsession, hready₁, Turn.tried_eq [_] ?_⟩
    exact (e₁.unsent_note _).trans (by rw [hunsent]; rfl)

/-- What a poll gives to the IP layer asks for the next echo of the session. -/
theorem asked?_of_poll {destination : Address} {packet : Bytes} {rest : Sending}
    (h : e.poll t = .send e' destination packet rest) :
    ∃ s, e.session = some s ∧ EchoKey.asked? destination packet =
      some ⟨s.destination, s.identifier, s.nextSequence⟩ := by
  rcases e.poll_cases t with ⟨-, hpoll⟩ | ⟨-, -, hpoll⟩ |
    ⟨s, -, hs, -, ⟨_, -, hpoll⟩ | ⟨_, -, hpoll⟩⟩
  · cases hpoll.symm.trans h
  · cases hpoll.symm.trans h
  · cases hpoll.symm.trans h
    exact ⟨s, hs, Engine.asked?_echoPacket ⟨s.destination, s.identifier, s.nextSequence⟩ _⟩
  · cases hpoll.symm.trans h

theorem length_tried_poll_le (e : Engine) (t : Clock) : ((e.poll t).tried e).length ≤ 1 := by
  by_cases hdue : ∀ s, e.session = some s → s.mode = .continuous → t.now < s.nextSendAt
  · rw [(rests_poll hdue).tried]
    exact Nat.zero_le 1
  simp only [not_forall, UInt64.not_lt] at hdue
  obtain ⟨s, hs, hmode, hdue⟩ := hdue
  cases hready : e.ready with
  | false =>
    rw [Engine.poll_of_not_ready hready, (Turn.Rests.done (.refl e) _).tried]
    exact Nat.zero_le 1
  | true =>
    rw [(tries_poll hready hs hmode hdue).tried]
    exact Nat.le_refl 1

/-! ## Calls -/

theorem Engine.identifiersUsed_attempt (e : Engine) (t : Clock) (run : Run) :
    (e.attempt t run).engine.identifiersUsed = e.identifiersUsed :=
  (Leads.attempt (R := fun _ _ _ => True) (.refl e) (fun _ _ _ _ => trivial) t).moves.keeps.2

theorem Engine.identifiersUsed_poll (e : Engine) (t : Clock) :
    (e.poll t).engine.identifiersUsed = e.identifiersUsed := by
  have hleads : Leads (fun _ _ _ => True) _ e none (e.poll t) :=
    leads_poll (fun _ _ => trivial) (.refl e) t
  exact hleads.moves.keeps.2

/-- A session that is not started is no more than reported. -/
theorem stands_beginSession (e : Engine) (now : Instant) (destination : Address)
    (mode : Ping.Mode) (config : Ping.Config) :
    (∃ e' cause, e.beginSession now destination mode config = (e', .error cause) ∧
      e.Stands e') ∨ e.ready ∧ e.session = none := by
  by_cases hready : e.ready
  · by_cases hidle : e.session = none
    · exact .inr ⟨hready, hidle⟩
    · rw [Engine.beginSession, if_neg (by simp [hready]),
        if_pos (Option.isSome_iff_ne_none.2 hidle)]
      exact .inl ⟨_, _, rfl, (Engine.Stands.refl e).note (by rfl)⟩
  · rw [Engine.beginSession, if_pos (by simp [hready])]
    exact .inl ⟨_, _, rfl, .refl e⟩

theorem rests_or_starts_pingWith (e : Engine) (t : Clock) (destination : Address)
    (config : Ping.Config) :
    (e.pingWith t destination config).Rests e ∨
      (e.pingWith t destination config).engine.identifiersUsed = e.identifiersUsed + 1 := by
  simp only [Engine.pingWith]
  split_ifs
  · exact .inl (.done (.refl e) _)
  · rcases stands_beginSession e t.now destination .blocking config.normalized with
      ⟨e', cause, hbegin, hstands⟩ | ⟨hready, hidle⟩
    · rw [hbegin]
      exact .inl (.done hstands _)
    · rw [beginSession_of_idle hready hidle]
      exact .inr (Engine.identifiersUsed_attempt _ _ _)

theorem rests_or_starts_startPingWith (e : Engine) (now : Instant) (destination : Address)
    (config : Ping.Config) :
    (e.startPingWith (.still now) destination config).Rests e ∨
      (e.startPingWith (.still now) destination config).engine.identifiersUsed =
          e.identifiersUsed + 1 ∧
        ∃ s : Ping.Session, s.mode = .continuous ∧ s.nextSequence = 0 ∧ s.nextSendAt = now ∧
          (e.startPingWith (.still now) destination config).Tries s now e := by
  simp only [Engine.startPingWith]
  split_ifs
  · exact .inl (.done (.refl e) _)
  · rcases stands_beginSession e (Clock.still now).now destination .continuous config.normalized
      with ⟨e', cause, hbegin, hstands⟩ | ⟨hready, hidle⟩
    · rw [hbegin]
      exact .inl (.done hstands _)
    · rw [beginSession_of_idle hready hidle]
      right
      generalize hs : (⟨.continuous, destination, e.takeIdentifier.2, 0, config.normalized,
        (Clock.still now).now⟩ : Ping.Session) = s
      have hbegun : (e.begun s).Stands
          ((e.begun s).note (.continuousStarted destination config.normalized)) :=
        (Engine.Stands.refl _).note (by rfl)
      have htries := tries_poll (t := Clock.still now) (hbegun.ready hready) (s := s) rfl
        (by rw [← hs]) (by rw [← hs]; exact UInt64.le_refl now)
      refine ⟨Engine.identifiersUsed_poll _ _, s, by rw [← hs], by rw [← hs], by rw [← hs]; rfl,
        htries.session, htries.ready, ?_⟩
      rw [← htries.tried, Turn.tried, Turn.tried, hbegun.unsent]
      rfl

theorem rests_stopPing (e : Engine) (t : Clock) : (e.stopPing t).Rests e := by
  have hrefl : e.Stands e := .refl e
  unfold Engine.stopPing
  split_ifs
  · exact .done (hrefl.finishSession t.now).summarize _
  · exact .done hrefl _

/-- A call that is no poll and starts no session tries nothing. -/
theorem rests_start {now : Instant} {c : Call} (hpoll : c ≠ .poll)
    (hstart : (e.start (.still now) c).engine.identifiersUsed ≠ e.identifiersUsed + 1) :
    (e.start (.still now) c).Rests e := by
  have hrefl : e.Stands e := .refl e
  cases c with
  | init => exact .done hrefl.init _
  | poll => exact absurd rfl hpoll
  | report => exact .done hrefl.report _
  | input source packet => exact .input hrefl _ source packet
  | sendRequest destination echo => exact .sendEcho hrefl destination _ _ echo
  | sendReply destination echo => exact .sendEcho hrefl destination _ _ echo
  | sendUnreachable destination report => exact .sendReport hrefl destination _ _ report
  | sendTimeExceeded destination report => exact .sendReport hrefl destination _ _ report
  | ping destination count timeout =>
    exact (rests_or_starts_pingWith e _ destination _).resolve_right hstart
  | pingWith destination config =>
    exact (rests_or_starts_pingWith e _ destination config).resolve_right hstart
  | startPing destination =>
    exact (rests_or_starts_startPingWith e now destination _).resolve_right fun h => hstart h.1
  | startPingWith destination config =>
    exact (rests_or_starts_startPingWith e now destination config).resolve_right fun h =>
      hstart h.1
  | stopPing => exact rests_stopPing e _

/-- A call that starts a continuous session tries its first echo at once. -/
theorem tries_start {now : Instant} {c : Call} (hmode : c.mode? = some .continuous)
    (hstart : (e.start (.still now) c).engine.identifiersUsed ≠ e.identifiersUsed) :
    ∃ s : Ping.Session, s.mode = .continuous ∧ s.nextSequence = 0 ∧ s.nextSendAt = now ∧
      (e.start (.still now) c).Tries s now e := by
  cases c with
  | startPing destination =>
    rcases rests_or_starts_startPingWith e now destination e.config with hrests | ⟨-, htries⟩
    · exact absurd hrests.stands.identifiersUsed hstart
    · exact htries
  | startPingWith destination config =>
    rcases rests_or_starts_startPingWith e now destination config with hrests | ⟨-, htries⟩
    · exact absurd hrests.stands.identifiersUsed hstart
    · exact htries
  | _ => cases hmode

end NetHost.Icmp
