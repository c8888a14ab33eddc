import Mathlib.Tactic.Common
import NetHost.Icmp.Engine.Call
import NetHost.Proofs.Icmp.Moves

/-!
# What a turn of a call does

Every turn leads from one engine to the next by moves (`Leads`).

* A turn that goes on with a suspended call makes moves only (`leads_resumes`).
* So does a turn that starts a call, after it has started a session or without that, unless the
  call makes the engine ready (`leads_start`).
-/

namespace NetHost.Icmp

open Ipv4 (Address)

variable {R : Ping.Session → EchoKey → UInt32 → Prop} {n : Nat} {e e' : Engine}

/-! ## Suspended calls -/

inductive Suspended where
  | sending (rest : Sending)
  | sleeping (rest : Sleeping)
  deriving DecidableEq, Repr

/-- The blocking session that a suspended call runs. -/
def Suspended.run? : Suspended → Option Run
  | .sending (.pinged run) => some run
  | .sleeping (.awaiting run) => some run
  | .sleeping (.pausing run) => some run
  | _ => none

namespace Turn

def engine : Turn → Engine
  | .done e _ => e
  | .send e _ _ _ => e
  | .sleep e _ _ => e

/-- The call, if the turn does not end it. -/
def suspended? : Turn → Option Suspended
  | .done _ _ => none
  | .send _ _ _ rest => some (.sending rest)
  | .sleep _ _ rest => some (.sleeping rest)

end Turn

namespace Run

/-- Another point in the run of the same blocking session. -/
structure Same (r r' : Run) : Prop where
  destination : r'.destination = r.destination
  identifier : r'.identifier = r.identifier
  config : r'.config = r.config

theorem Same.refl (r : Run) : Same r r := ⟨rfl, rfl, rfl⟩

theorem same_next (r : Run) : Same r r.next := ⟨rfl, rfl, rfl⟩

/-- The run is that of the session `s`. -/
structure Of (r : Run) (s : Ping.Session) : Prop where
  destination : r.destination = s.destination
  identifier : r.identifier = s.identifier
  config : r.config = s.config

theorem Of.of_same {r r' : Run} {s s' : Ping.Session} (h : r.Of s) (hrun : r.Same r')
    (hsession : s.Same s') : r'.Of s' :=
  ⟨(hrun.destination.trans h.destination).trans hsession.destination.symm,
    (hrun.identifier.trans h.identifier).trans hsession.identifier.symm,
    (hrun.config.trans h.config).trans hsession.config.symm⟩

/-- If the session that runs has the run's identifier, then `R` admits the echoes of the run. -/
def Fits (R : Ping.Session → EchoKey → UInt32 → Prop) (r : Run) (session : Option Ping.Session) :
    Prop :=
  ∀ s, session = some s → s.identifier = r.identifier →
    ∀ sequence, R s ⟨r.destination, r.identifier, sequence⟩ r.config.timeout

end Run

/-- The turn leads from `e` by moves only, `n` polls among them having found the table full.  If it
suspends the run of a blocking session, then that of `run?`. -/
structure Leads (R : Ping.Session → EchoKey → UInt32 → Prop) (n : Nat) (e : Engine)
    (run? : Option Run) (turn : Turn) : Prop where
  moves : Moves R n e turn.engine
  run : ∀ f r', turn.suspended? = some f → f.run? = some r' → ∃ r, run? = some r ∧ r.Same r'

/-- The turn does no more than settle echoes, and suspends the call, if it does, over a message
that no session keeps track of. -/
structure Aside (e : Engine) (turn : Turn) : Prop where
  settles : Settles e turn.engine
  message : ∀ f, turn.suspended? = some f →
    ∃ kind destination, f = .sending (.message kind destination)

variable {run? : Option Run} {run run' : Run} {turn : Turn} {t : Clock}

namespace Aside

theorem done (h : Settles e e') (reply : Reply) : Aside e (.done e' reply) :=
  ⟨h, nofun⟩

theorem transmit (h : Settles e e') (destination : Address) (kind : Kind) (packet : Bytes) :
    Aside e (e'.transmit destination kind packet) := by
  refine ⟨h, fun f hf => ?_⟩
  cases hf
  exact ⟨kind, destination, rfl⟩

theorem sendEcho (h : Settles e e') (destination : Address) (kind : Kind) (limit : Nat)
    (echo : Echo) : Aside e (e'.sendEcho destination kind limit echo) := by
  unfold Engine.sendEcho
  split_ifs
  · exact done h _
  · exact done h _
  · exact transmit h destination kind _

theorem sendReport (h : Settles e e') (destination : Address) (kind : Kind) (isCode : Bool)
    (report : Report) : Aside e (e'.sendReport destination kind isCode report) := by
  unfold Engine.sendReport
  split_ifs
  · exact done h _
  · exact done h _
  · exact transmit h destination kind _

theorem input (h : Settles e e') (t : Clock) (source : Address) (packet : Bytes) :
    Aside e (e'.input t source packet) := by
  unfold Engine.input
  split_ifs
  · exact done h _
  · dsimp only
    split
    · rename_i damage _
      refine done ?_ _
      cases damage
      · exact ((h.count _).count _).note _
      · exact ((h.count _).count _).note _
    · exact sendEcho (h.count _) source .echoReply maxPayload _
    · exact done ((h.count _).handleReply source _ t.now) _
    · exact done ((h.count _).handleReport source .unreachable _) _
    · exact done ((h.count _).handleReport source .timeExceeded _) _
    · exact done ((h.count _).note _) _

end Aside

namespace Leads

theorem aside (h : Moves R n e e') (ha : Aside e' turn) : Leads R n e run? turn := by
  refine ⟨h.settles ha.settles, fun f r' hf hr' => ?_⟩
  obtain ⟨kind, destination, rfl⟩ := ha.message f hf
  cases hr'

theorem done (h : Moves R n e e') (reply : Reply) : Leads R n e run? (.done e' reply) :=
  ⟨h, fun _ _ h' => by cases h'⟩

theorem send (h : Moves R n e e') (destination : Address) (packet : Bytes) {rest : Sending}
    (hrest : (Suspended.sending rest).run? = none) :
    Leads R n e run? (.send e' destination packet rest) := by
  refine ⟨h, fun f r' hf hr' => ?_⟩
  cases hf
  rw [hrest] at hr'
  cases hr'

theorem ping (h : Moves R n e e') (hrun : run.Same run') (destination : Address)
    (packet : Bytes) : Leads R n e (some run) (.send e' destination packet (.pinged run')) := by
  refine ⟨h, fun f r' hf hr' => ⟨run, rfl, ?_⟩⟩
  cases hf
  cases hr'
  exact hrun

theorem sleep (h : Moves R n e e') (hrun : run.Same run') (ms : UInt32) {rest : Sleeping}
    (hrest : rest = .awaiting run' ∨ rest = .pausing run') :
    Leads R n e (some run) (.sleep e' ms rest) := by
  refine ⟨h, fun f r' hf hr' => ⟨run, rfl, ?_⟩⟩
  cases hf
  rcases hrest with rfl | rfl
  · cases hr'
    exact hrun
  · cases hr'
    exact hrun

theorem same (h : Leads R n e (some run') turn) (hrun : run.Same run') :
    Leads R n e (some run) turn := by
  refine ⟨h.moves, fun f r' hf hr' => ⟨run, rfl, ?_⟩⟩
  obtain ⟨r, hr, hsame⟩ := h.run f r' hf hr'
  cases hr
  exact ⟨hsame.destination.trans hrun.destination, hsame.identifier.trans hrun.identifier,
    hsame.config.trans hrun.config⟩

theorem conclude (h : Moves R n e e') (t : Clock) (run : Run) :
    Leads R n e run? (e'.conclude t run) :=
  done ((h.endSession t.now run.identifier).settles Settles.refl.summarize) _

theorem attempt (h : Moves R n e e') (hfits : run.Fits R e'.session) (t : Clock) :
    Leads R n e (some run) (e'.attempt t run) := by
  unfold Engine.attempt
  split_ifs with howns hend
  · obtain ⟨s, hs, hidentifier⟩ := (e'.owns_iff _).1 howns
    split
    · exact done (h.endSession t.later.now run.identifier) _
    · exact ping (h.move (.register hs (hfits s hs hidentifier run.sequence) ‹_›)) (.refl run) _ _
  · exact conclude h t.later run
  · exact sleep h run.same_next _ (.inr rfl)

theorem proceed (h : Moves R n e e') (hfits : run.Fits R e'.session) (t : Clock) :
    Leads R n e (some run) (e'.proceed t run) := by
  unfold Engine.proceed
  split_ifs
  · exact conclude h t run
  · have hnext : run.next.Fits R e'.session := hfits
    exact (attempt h hnext t).same run.same_next
  · exact sleep h run.same_next _ (.inr rfl)

theorem await (h : Moves R n e e') (hfits : run.Fits R e'.session) (t : Clock) :
    Leads R n e (some run) (e'.await t run) := by
  have hsweep := h.move (.sweep e' t.now)
  rw [← Engine.session_sweep e' t.now] at hfits
  simp only [Engine.await]
  split_ifs
  · exact sleep hsweep (.refl run) _ (.inl rfl)
  · exact proceed hsweep hfits t.later

end Leads

inductive Resumes (e : Engine) (t : Clock) : Suspended → Turn → Prop where
  | sent (answer : Except Error Unit) (rest : Sending) :
    Resumes e t (.sending rest) (e.sent t answer rest)
  | woken (rest : Sleeping) : Resumes e t (.sleeping rest) (e.woken t rest)

theorem leads_resumes {f : Suspended} (h : Resumes e t f turn)
    (hfits : ∀ run, f.run? = some run → run.Fits R e.session) : Leads R 0 e f.run? turn := by
  have hrefl : Moves R 0 e e := .refl e
  cases h with
  | sent answer rest =>
    cases rest with
    | message kind destination =>
      cases answer with
      | ok _ => exact .done (hrefl.countSent kind) _
      | error cause => exact .done ((hrefl.count _).note _) _
    | polled key =>
      cases answer with
      | ok _ => exact .done (hrefl.countSent .echoRequest) _
      | error cause => exact .done (hrefl.settles (Settles.refl.dropEcho key cause)) _
    | pinged run =>
      cases answer with
      | ok _ => exact .await (hrefl.countSent .echoRequest) (hfits run rfl) t
      | error cause =>
        refine .proceed (hrefl.settles (Settles.refl.dropEcho run.key cause)) ?_ t
        rw [Engine.session_dropEcho]
        exact hfits run rfl
  | woken rest =>
    cases rest with
    | awaiting run => exact .await hrefl (hfits run rfl) t
    | pausing run => exact .attempt hrefl (hfits run rfl) t

/-! ## Calls -/

/-- Whether a poll at this time would send an echo but finds the table full. -/
def Engine.refuses (e : Engine) (t : Clock) : Bool :=
  e.ready && e.session.any (fun s => s.mode = .continuous && s.nextSendAt ≤ t.now) &&
    (e.sweep t.now).pending.count = PendingTable.capacity

/-- `R` admits every echo that a session has of its own. -/
def AdmitsOwn (R : Ping.Session → EchoKey → UInt32 → Prop) : Prop :=
  ∀ s sequence, R s ⟨s.destination, s.identifier, sequence⟩ s.config.timeout

theorem Engine.refuses_of_not_due
    (hdue : ∀ s, e.session = some s → ¬ (s.mode = .continuous ∧ s.nextSendAt ≤ t.now)) :
    e.refuses t = false := by
  cases hs : e.session with
  | none => simp only [refuses, hs, Option.any_none, Bool.and_false, Bool.false_and]
  | some s =>
    simp only [refuses, hs, Option.any_some, ← Bool.decide_and, hdue s hs, decide_false,
      Bool.and_false, Bool.false_and]

theorem Engine.refuses_of_due {s : Ping.Session} (hready : e.ready) (hs : e.session = some s)
    (hdue : s.mode = .continuous ∧ s.nextSendAt ≤ t.now) :
    e.refuses t = decide ((e.sweep t.now).pending.count = PendingTable.capacity) := by
  simp only [refuses, hready, hs, Option.any_some, ← Bool.decide_and, hdue, Bool.true_and,
    and_self, true_and]

/-- The engine after a poll has swept the table and moved the session on to its next echo. -/
def Engine.movedOn (e : Engine) (s : Ping.Session) (now : Instant) : Engine :=
  { e.sweep now with session := some (s.advance now) }

theorem Engine.poll_of_not_ready (hready : e.ready = false) (t : Clock) :
    e.poll t = .done e (.ok none) := by
  rw [poll, if_pos (by simp [hready])]

theorem Engine.poll_of_not_due (hready : e.ready)
    (hdue : ∀ s, e.session = some s → ¬ (s.mode = .continuous ∧ s.nextSendAt ≤ t.now)) :
    e.poll t = .done (e.sweep t.now) (.ok none) := by
  have hsession := e.session_sweep t.now
  cases hs : e.session with
  | none => simp [poll, hready, hsession, hs]
  | some s => simp [poll, hready, hsession, hs, hdue s hs]

theorem Engine.poll_of_due {s : Ping.Session} (hready : e.ready) (hs : e.session = some s)
    (hdue : s.mode = .continuous ∧ s.nextSendAt ≤ t.now) :
    e.poll t =
      match (e.movedOn s t.now).register t.later.now
        ⟨s.destination, s.identifier, s.nextSequence⟩ s.config.timeout with
      | .ok e' => .send e' s.destination
          (echoPacket ⟨s.destination, s.identifier, s.nextSequence⟩ s.config)
          (.polled ⟨s.destination, s.identifier, s.nextSequence⟩)
      | .error cause =>
        .done (((e.movedOn s t.now).note
          (.pingNotSent ⟨s.destination, s.identifier, s.nextSequence⟩ cause)).recordError
            s.identifier) (.ok none) := by
  have hsession := e.session_sweep t.now
  have hmoved : (e.movedOn s t.now).session = some (s.advance t.now) := rfl
  have howns : (e.movedOn s t.now).owns s.identifier := (owns_iff_of_session hmoved _).2 rfl
  have hpoll : e.poll t = (e.movedOn s t.now).sendNext t.later s := by
    simp only [poll, hready, hsession, hs, if_pos hdue, Bool.not_true, Bool.false_eq_true,
      if_false]
    rfl
  rw [hpoll]
  exact if_pos howns

/-- A poll finds no echo due, or it sends the one that is due, or it finds no slot for it. -/
theorem Engine.poll_cases (e : Engine) (t : Clock) :
    (e.ready = false ∧ e.poll t = .done e (.ok none)) ∨
    (e.ready ∧ (∀ s, e.session = some s → ¬ (s.mode = .continuous ∧ s.nextSendAt ≤ t.now)) ∧
      e.poll t = .done (e.sweep t.now) (.ok none)) ∨
    ∃ s, e.ready ∧ e.session = some s ∧ (s.mode = .continuous ∧ s.nextSendAt ≤ t.now) ∧
      ((∃ e', (e.movedOn s t.now).register t.later.now
          ⟨s.destination, s.identifier, s.nextSequence⟩ s.config.timeout = .ok e' ∧
        e.poll t = .send e' s.destination
          (echoPacket ⟨s.destination, s.identifier, s.nextSequence⟩ s.config)
          (.polled ⟨s.destination, s.identifier, s.nextSequence⟩)) ∨
      ∃ cause, (e.movedOn s t.now).register t.later.now
          ⟨s.destination, s.identifier, s.nextSequence⟩ s.config.timeout = .error cause ∧
        e.poll t = .done (((e.movedOn s t.now).note
          (.pingNotSent ⟨s.destination, s.identifier, s.nextSequence⟩ cause)).recordError
            s.identifier) (.ok none)) := by
  cases hready : e.ready with
  | false => exact .inl ⟨rfl, poll_of_not_ready hready t⟩
  | true =>
  by_cases hdue : ∃ s, e.session = some s ∧ s.mode = .continuous ∧ s.nextSendAt ≤ t.now
  · obtain ⟨s, hs, hdue⟩ := hdue
    refine .inr (.inr ⟨s, rfl, hs, hdue, ?_⟩)
    rw [poll_of_due hready hs hdue]
    cases (e.movedOn s t.now).register t.later.now
      ⟨s.destination, s.identifier, s.nextSequence⟩ s.config.timeout with
    | ok e' => exact .inl ⟨e', rfl, rfl⟩
    | error cause => exact .inr ⟨cause, rfl, rfl⟩
  · have hnot (s : Ping.Session) (hs : e.session = some s) :
        ¬ (s.mode = .continuous ∧ s.nextSendAt ≤ t.now) := fun h => hdue ⟨s, hs, h⟩
    exact .inr (.inl ⟨rfl, hnot, poll_of_not_due hready hnot⟩)

theorem Engine.input_of_not_ready (hready : ¬ e.ready) (t : Clock) (source : Address)
    (packet : Bytes) : e.input t source packet = .done e (.error .notReady) := by
  rw [input, if_pos (by simp [hready])]

theorem Engine.input_of_echoReply {packet : Bytes} {echo : Echo} (hready : e.ready)
    (hdecode : Message.decode packet = .ok (.echoReply echo)) (t : Clock) (source : Address) :
    ∃ counters, e.input t source packet =
      .done (({ e with counters } : Engine).handleReply source echo t.now) (.ok none) := by
  simp only [input, hready, hdecode, Bool.not_true, Bool.false_eq_true, if_false]
  exact ⟨_, rfl⟩

theorem leads_poll (hR : AdmitsOwn R) (h : Moves R n e e') (t : Clock) :
    Leads R (n + if e'.refuses t then 1 else 0) e run? (e'.poll t) := by
  have hsweep := h.move (.sweep e' t.now)
  have hmoved {s : Ping.Session} (hs : e'.session = some s) : Moves R n e (e'.movedOn s t.now) :=
    hsweep.move (.advance t.now ((e'.session_sweep t.now).trans hs))
  have hcount (s : Ping.Session) :
      (e'.movedOn s t.now).pending.count = (e'.sweep t.now).pending.count := rfl
  rcases e'.poll_cases t with ⟨hready, hpoll⟩ | ⟨-, hnot, hpoll⟩ |
    ⟨s, hready, hs, hdue, ⟨e₁, hregister, hpoll⟩ | ⟨cause, hregister, hpoll⟩⟩
  · have hrefuses : e'.refuses t = false := by
      simp only [Engine.refuses, hready, Bool.false_and]
    rw [hrefuses, hpoll]
    exact .done h _
  · rw [Engine.refuses_of_not_due hnot, hpoll]
    exact .done hsweep _
  · have hroom := Engine.count_of_register_ok hregister
    rw [hcount] at hroom
    rw [Engine.refuses_of_due hready hs hdue, hpoll]
    simp only [hroom, decide_false, Bool.false_eq_true, if_false]
    exact .send ((hmoved hs).move (.register rfl (hR (s.advance t.now) s.nextSequence) hregister))
      _ _ rfl
  · have hfull := Engine.count_of_register_error hregister
    rw [hcount] at hfull
    rw [Engine.refuses_of_due hready hs hdue, hpoll]
    simp only [hfull, decide_true, if_true]
    exact .done (.refuse (s := s.advance t.now) ((hmoved hs).note _) rfl hdue.1) _

theorem Engine.not_refuses_of_empty (h : e.pending.count = 0) : e.refuses t = false := by
  have hcount := e.pending.count_remove (·.isExpired t.now)
  have hsweep : (e.sweep t.now).pending.count = 0 := by
    rw [Engine.pending_sweep, PendingTable.sweep]
    omega
  simp only [refuses, hsweep, PendingTable.capacity, Nat.reduceEqDiff, decide_false,
    Bool.and_false]

/-! ## Sessions -/

/-- The session that the engine may start has its next identifier and settings without zeros. -/
structure Engine.Starts (e : Engine) (s : Ping.Session) : Prop where
  ready : e.ready
  idle : e.session = none
  identifier : s.identifier = e.takeIdentifier.2
  config : s.config.normalized = s.config

/-- The engine after it has started a session. -/
def Engine.begun (e : Engine) (s : Ping.Session) : Engine :=
  { e with
    session := some s
    statistics := .start s.destination s.nextSendAt
    active := true
    identifiersUsed := e.identifiersUsed + 1 }

/-- The turn starts a session in the given mode, and goes on from there. -/
def Turn.Opens (turn : Turn) (R : Ping.Session → EchoKey → UInt32 → Prop) (e : Engine)
    (mode : Ping.Mode) : Prop :=
  ∃ s n run?, e.Starts s ∧ s.mode = mode ∧ Leads R n (e.begun s) run? turn ∧
    (∀ run, run? = some run → run.Of s) ∧ (e.pending.count = 0 → n = 0)

theorem beginSession_of_idle (hready : e.ready) (hidle : e.session = none) (now : Instant)
    (destination : Address) (mode : Ping.Mode) (config : Ping.Config) :
    e.beginSession now destination mode config =
      (e.begun ⟨mode, destination, e.takeIdentifier.2, 0, config, now⟩,
        .ok e.takeIdentifier.2) := by
  rw [Engine.beginSession, if_neg (by simp [hready]), if_neg (by simp [hidle])]
  rfl

theorem beginSession_cases (e : Engine) (now : Instant) (destination : Address) (mode : Ping.Mode)
    {config : Ping.Config} (hconfig : config.normalized = config) :
    (∃ cause journal, e.beginSession now destination mode config =
      ({ e with journal }, .error cause)) ∨
    ∃ s, e.Starts s ∧ s.mode = mode ∧ s.destination = destination ∧ s.config = config ∧
      e.beginSession now destination mode config = (e.begun s, .ok s.identifier) := by
  by_cases hready : e.ready
  · by_cases hidle : e.session = none
    · exact .inr ⟨⟨mode, destination, e.takeIdentifier.2, 0, config, now⟩,
        ⟨hready, hidle, rfl, hconfig⟩, rfl, rfl, rfl,
        beginSession_of_idle hready hidle now destination mode config⟩
    · rw [Engine.beginSession, if_neg (by simp [hready]),
        if_pos (Option.isSome_iff_ne_none.2 hidle)]
      exact .inl ⟨.busy, _, rfl⟩
  · rw [Engine.beginSession, if_pos (by simp [hready])]
    exact .inl ⟨.notReady, e.journal, rfl⟩

theorem beginSession_of_not (h : ¬ (e.ready ∧ e.session = none)) (now : Instant)
    (destination : Address) (mode : Ping.Mode) (config : Ping.Config) :
    ∃ cause journal, e.beginSession now destination mode config.normalized =
      ({ e with journal }, .error cause) := by
  rcases beginSession_cases e now destination mode config.normalized_normalized with
    hbegin | ⟨s, hstarts, -⟩
  · exact hbegin
  · exact absurd ⟨hstarts.ready, hstarts.idle⟩ h

theorem leads_pingWith (hR : AdmitsOwn R) (e : Engine) (t : Clock) (destination : Address)
    (config : Ping.Config) :
    Leads R 0 e none (e.pingWith t destination config) ∨
      (e.pingWith t destination config).Opens R e .blocking := by
  have hrefl : Moves R 0 e e := .refl e
  simp only [Engine.pingWith]
  split_ifs
  · exact .inl (.done hrefl _)
  · rcases beginSession_cases e t.now destination .blocking config.normalized_normalized with
      ⟨cause, journal, h⟩ | ⟨s, hstarts, hmode, rfl, hconfig, h⟩
    · rw [h]
      exact .inl (.done (hrefl.idle e.counters journal) _)
    · rw [h, ← hconfig]
      right
      have hnote : Moves R 0 (e.begun s)
          ((e.begun s).note (.blockingStarted s.destination s.config)) :=
        (Moves.refl _).note _
      have hfits : Run.Fits R
          ⟨s.destination, s.identifier, s.config, 0, s.config.count.toNat - 1⟩
          ((e.begun s).note (.blockingStarted s.destination s.config)).session := by
        rintro s' hs' - sequence
        cases hs'
        exact hR s sequence
      refine ⟨s, 0, _, hstarts, hmode, .attempt hnote hfits t.later, ?_, fun _ => rfl⟩
      rintro run hrun
      cases hrun
      exact ⟨rfl, rfl, rfl⟩

theorem leads_startPingWith (hR : AdmitsOwn R) (e : Engine) (t : Clock) (destination : Address)
    (config : Ping.Config) :
    Leads R 0 e none (e.startPingWith t destination config) ∨
      (e.startPingWith t destination config).Opens R e .continuous := by
  have hrefl : Moves R 0 e e := .refl e
  simp only [Engine.startPingWith]
  split_ifs
  · exact .inl (.done hrefl _)
  · rcases beginSession_cases e t.now destination .continuous config.normalized_normalized with
      ⟨cause, journal, h⟩ | ⟨s, hstarts, hmode, -, -, h⟩
    · rw [h]
      exact .inl (.done (hrefl.idle e.counters journal) _)
    · rw [h]
      right
      have hnote : Moves R 0 (e.begun s)
          ((e.begun s).note (.continuousStarted destination config.normalized)) :=
        (Moves.refl _).note _
      refine ⟨s, _, none, hstarts, hmode, leads_poll hR hnote t.later, nofun, fun hempty => ?_⟩
      have hcount : ((e.begun s).note (.continuousStarted destination config.normalized)
        ).pending.count = 0 := hempty
      rw [Engine.not_refuses_of_empty hcount]
      rfl

theorem leads_stopPing (h : Moves R n e e') (t : Clock) : Leads R n e run? (e'.stopPing t) := by
  unfold Engine.stopPing
  split_ifs
  · exact .done ((h.move (.finish e' t.now)).settles Settles.refl.summarize) _
  · exact .done h _

/-- The mode of the sessions that a call starts. -/
def Call.mode? : Call → Option Ping.Mode
  | .ping _ _ _ => some .blocking
  | .pingWith _ _ => some .blocking
  | .startPing _ => some .continuous
  | .startPingWith _ _ => some .continuous
  | _ => none

/-- A call starts a session or makes moves only, unless it makes the engine ready. -/
theorem leads_start (hR : AdmitsOwn R) (e : Engine) (t : Clock) {c : Call} (hinit : c ≠ .init) :
    Leads R (if c = .poll ∧ e.refuses t then 1 else 0) e none (e.start t c) ∨
      ∃ mode, c.mode? = some mode ∧ (e.start t c).Opens R e mode := by
  have hrefl : Moves R 0 e e := .refl e
  cases c with
  | init => exact absurd rfl hinit
  | poll =>
    have hpoll : Leads R (0 + if e.refuses t then 1 else 0) e none (e.poll t) :=
      leads_poll hR hrefl t
    rw [Nat.zero_add] at hpoll
    simp only [true_and]
    exact .inl hpoll
  | report => exact .inl (.aside hrefl (.done Settles.refl.report _))
  | input source packet => exact .inl (.aside hrefl (.input .refl t source packet))
  | sendRequest destination echo =>
    exact .inl (.aside hrefl (.sendEcho .refl destination _ _ echo))
  | sendReply destination echo =>
    exact .inl (.aside hrefl (.sendEcho .refl destination _ _ echo))
  | sendUnreachable destination report =>
    exact .inl (.aside hrefl (.sendReport .refl destination _ _ report))
  | sendTimeExceeded destination report =>
    exact .inl (.aside hrefl (.sendReport .refl destination _ _ report))
  | ping destination count timeout =>
    exact (leads_pingWith hR e t destination _).imp_right fun h => ⟨.blocking, rfl, h⟩
  | pingWith destination config =>
    exact (leads_pingWith hR e t destination config).imp_right fun h => ⟨.blocking, rfl, h⟩
  | startPing destination =>
    exact (leads_startPingWith hR e t destination _).imp_right fun h => ⟨.continuous, rfl, h⟩
  | startPingWith destination config =>
    exact (leads_startPingWith hR e t destination config).imp_right fun h => ⟨.continuous, rfl, h⟩
  | stopPing => exact .inl (leads_stopPing hrefl t)

end NetHost.Icmp
