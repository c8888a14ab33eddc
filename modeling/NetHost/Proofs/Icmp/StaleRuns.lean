import Mathlib.Tactic.Common
import NetHost.Proofs.Icmp.BlockingPing
import NetHost.Proofs.Icmp.Timed
import NetHost.Proofs.Icmp.Tries

/-!
# Calls that outlast their sessions

A blocking ping sends its echoes as long as the session that runs has its identifier.  Identifiers
come again after 2 ^ 16 starts.  So a call that lasts through as many puts its next echo into the
session of another, and waits for the answer as long as it was told to, which can be longer than
that session waits for one (`World.Timed.outwaits`).
-/

namespace NetHost.Icmp

open Ipv4 (Address)

namespace Engine

variable {e : Engine} {config : Ping.Config} {run : Run} {n : UInt16}

/-- The engine has just been made ready, and has given out `n` identifiers. -/
def Anew (n : UInt16) (e : Engine) : Prop :=
  ∃ config journal, e = { config, ready := true, identifiersUsed := n, journal }

theorem anew_init (e : Engine) : e.init.Anew e.identifiersUsed := ⟨_, _, rfl⟩

namespace Anew

theorem ready (h : e.Anew n) : e.ready := by
  obtain ⟨config, journal, rfl⟩ := h
  rfl

theorem session (h : e.Anew n) : e.session = none := by
  obtain ⟨config, journal, rfl⟩ := h
  rfl

theorem entries (h : e.Anew n) : e.pending.entries = [] := by
  obtain ⟨config, journal, rfl⟩ := h
  rfl

theorem identifiersUsed (h : e.Anew n) : e.identifiersUsed = n := by
  obtain ⟨config, journal, rfl⟩ := h
  rfl

end Anew

/-- While a session with its identifier runs, a blocking ping sends its echo, and waits for it as
long as it was told to. -/
theorem attempt_of_owns (hready : e.ready) (howns : e.owns run.identifier)
    (hroom : e.pending.count < PendingTable.capacity) (now : Instant) :
    ∃ e', e.attempt now run =
        .send e' run.destination (echoPacket run.key run.config) (.pinged run) ∧
      e'.ready ∧ e'.session = e.session ∧
      e'.pending.entries.Perm (⟨run.key, now, run.config.timeout⟩ :: e.pending.entries) := by
  cases hregister : e.register now run.key run.config.timeout with
  | error cause =>
    have hfull := count_of_register_error hregister
    omega
  | ok e' =>
    refine ⟨e', attempt_of_register (t := .still now) howns hregister, ?_⟩
    obtain ⟨pending, hallocate, rfl⟩ := register_eq_ok hregister
    exact ⟨hready, rfl, PendingTable.perm_entries_of_allocate hallocate⟩

/-- A blocking ping sends its first echo at once. -/
theorem Anew.pingWith (h : e.Anew n) (hsize : config.payloadSize.toNat ≤ maxEchoData)
    (destination : Address) (now : Instant) :
    let s : Ping.Session :=
      ⟨.blocking, destination, e.takeIdentifier.2, 0, config.normalized, now⟩
    ∃ e', e.pingWith now destination config = .send e' destination
        (echoPacket (s.runAt 0).key s.config) (.pinged (s.runAt 0)) ∧
      e'.ready ∧ e'.session = some s ∧ e'.identifiersUsed = n + 1 ∧
      e'.pending.entries = [⟨(s.runAt 0).key, now, s.config.timeout⟩] := by
  intro s
  have hbegun : ((e.begun s).note (.blockingStarted destination s.config)).Underway s now 0 [] :=
    Engine.Underway.begun h.entries _
  have hready : ((e.begun s).note (.blockingStarted destination s.config)).ready := h.ready
  have hused : ((e.begun s).note (.blockingStarted destination s.config)).identifiersUsed =
      n + 1 := congrArg (· + 1) h.identifiersUsed
  have hstart : e.pingWith now destination config =
      ((e.begun s).note (.blockingStarted destination s.config)).attempt now (s.runAt 0) :=
    pingWith_of_idle h.ready h.session hsize destination now
  rw [hstart]
  generalize (e.begun s).note (.blockingStarted destination s.config) = e₁ at *
  have howns : e₁.owns (s.runAt 0).identifier := (owns_iff_of_session hbegun.session _).2 rfl
  have hcount : e₁.pending.count = 0 := Nat.le_zero.1 hbegun.count_le
  have hroom : e₁.pending.count < PendingTable.capacity := by
    rw [hcount]
    decide
  obtain ⟨e', hattempt, hready', hsession, hentries⟩ := attempt_of_owns hready howns hroom now
  have hused' : (e₁.attempt now (s.runAt 0)).engine.identifiersUsed = e₁.identifiersUsed :=
    identifiersUsed_attempt e₁ now (s.runAt 0)
  rw [hattempt] at hused'
  rw [PendingTable.count_eq_zero_iff.1 hcount] at hentries
  exact ⟨e', hattempt, hready', hsession.trans hbegun.session, hused'.trans hused,
    List.perm_singleton.1 hentries⟩

theorem identifiersUsed_dropEcho (e : Engine) (key : EchoKey) (cause : Error) :
    (e.dropEcho key cause).identifiersUsed = e.identifiersUsed :=
  ((Moves.refl (R := HasIdentifier) e).settles (Settles.refl.dropEcho key cause)).keeps.2

/-- After an echo that could not be sent, a blocking ping pauses as after any other. -/
theorem sent_error (hleft : run.left ≠ 0) (hinterval : run.config.interval ≠ 0) (t : Clock)
    (cause : Error) : e.sent t (.error cause) (.pinged run) =
      .sleep (e.dropEcho run.key cause) run.config.interval (.pausing run.next) := by
  show (e.dropEcho run.key cause).proceed t run = _
  rw [proceed, if_neg hleft, if_neg hinterval]

end Engine

namespace World

variable {config : Ping.Config} {w : World} {r : Record} {n : UInt16} {f : Frame}

/-- A session is started, and the engine is made ready again.  A suspended call stays so. -/
theorem Timed.restart (h : Timed config (fun _ _ => True) w r) (hnew : w.engine.Anew n)
    (hf : f ∈ w.frames) :
    ∃ w' r', Timed config (fun _ _ => True) w' r' ∧ r'.now = r.now ∧ w'.engine.Anew (n + 1) ∧
      f ∈ w'.frames := by
  have hsize : ({} : Ping.Config).payloadSize.toNat ≤ maxEchoData := by decide
  obtain ⟨e, hping, -, -, hused, -⟩ := hnew.pingWith hsize .unspecified r.now
  have hstarted := h.step (.call w (.pingWith .unspecified {}))
    (.still (UInt64.le_refl r.now)) trivial
  have hready := hstarted.step (.call _ .init) (.still (UInt64.le_refl r.now)) trivial
  refine ⟨_, _, hready, rfl, ?_, ?_⟩
  · rw [engine_call, engine_call, ← hused]
    show (w.engine.pingWith (.still r.now) .unspecified {}).engine.init.Anew _
    rw [hping]
    exact e.anew_init
  · rw [frames_call, frames_call]
    exact mem_suspend_of_mem (mem_suspend_of_mem hf _ _) _ _

/-- That can be done any number of times. -/
theorem Timed.restarts (h : Timed config (fun _ _ => True) w r) (hnew : w.engine.Anew n)
    (hf : f ∈ w.frames) (k : Nat) :
    ∃ w' r', Timed config (fun _ _ => True) w' r' ∧ r'.now = r.now ∧
      w'.engine.Anew (n + UInt16.ofNat k) ∧ f ∈ w'.frames := by
  induction k with
  | zero => exact ⟨w, r, h, rfl, (UInt16.add_zero n).symm ▸ hnew, hf⟩
  | succ k ih =>
    obtain ⟨w', r', h', hnow, hnew', hf'⟩ := ih
    obtain ⟨w'', r'', h'', hnow', hnew'', hf''⟩ := h'.restart hnew' hf'
    refine ⟨w'', r'', h'', hnow'.trans hnow, ?_, hf''⟩
    rw [UInt16.ofNat_add, ← UInt16.add_assoc]
    exact hnew''

/-- A blocking ping is made, cannot send its first echo, and sleeps until the second is due.  The
engine is made ready again meanwhile. -/
theorem Timed.pause {slow : Ping.Config} (h : Timed config (fun _ _ => True) w r)
    (hnew : w.engine.Anew n) (hsize : slow.payloadSize.toNat ≤ maxEchoData)
    (hcount : 1 < slow.normalized.count.toNat) (hinterval : slow.normalized.interval ≠ 0)
    (destination : Address) :
    ∃ w' r', Timed config (fun _ _ => True) w' r' ∧ r'.now = r.now ∧ w'.engine.Anew (n + 1) ∧
      ∃ run : Run, run.destination = destination ∧ run.identifier = w.engine.takeIdentifier.2 ∧
        run.config = slow.normalized ∧ ∃ born, ⟨.sleeping (.pausing run), born⟩ ∈ w'.frames := by
  obtain ⟨e, hping, -, -, hused, -⟩ := hnew.pingWith hsize destination r.now
  generalize hs : (⟨.blocking, destination, w.engine.takeIdentifier.2, 0, slow.normalized, r.now⟩ :
    Ping.Session) = s at hping
  have hstarted := h.step (.call w (.pingWith destination slow))
    (.still (UInt64.le_refl r.now)) trivial
  have hengine : (w.call (.pingWith destination slow) (.still r.now)).engine = e :=
    (engine_call _ _ _).trans (congrArg Turn.engine hping)
  have hframes : (w.call (.pingWith destination slow) (.still r.now)).frames =
      [] ++ ⟨.sending (.pinged (s.runAt 0)), w.starts⟩ :: w.frames :=
    (frames_call _ _ _).trans (congrArg (suspend w.frames · w.starts) hping)
  have hleft : (s.runAt 0).left ≠ 0 := by
    rw [← hs]
    show slow.normalized.count.toNat - 1 - 0 ≠ 0
    omega
  have hpause : (s.runAt 0).config.interval ≠ 0 := by
    rw [← hs]
    exact hinterval
  have hturn : Resumes (w.call (.pingWith destination slow) (.still r.now)).engine
      (.still r.now) (.sending (.pinged (s.runAt 0)))
      (.sleep (e.dropEcho (s.runAt 0).key .noRoute) (s.runAt 0).config.interval
        (.pausing (s.runAt 0).next)) := by
    rw [hengine, ← Engine.sent_error hleft hpause]
    exact .sent _ _
  have hpaused := hstarted.step (.resume hframes hturn) (.still (UInt64.le_refl r.now)) trivial
  have hready := hpaused.step (.call _ .init) (.still (UInt64.le_refl r.now)) trivial
  refine ⟨_, _, hready, rfl, ?_, (s.runAt 0).next, ?_, ?_, ?_, w.starts, ?_⟩
  · rw [engine_call, ← hused, ← e.identifiersUsed_dropEcho (s.runAt 0).key .noRoute]
    exact Engine.anew_init _
  · rw [← hs]; rfl
  · rw [← hs]; rfl
  · rw [← hs]; rfl
  · rw [frames_call]
    exact mem_suspend_of_mem List.mem_cons_self _ _

/-- A blocking ping whose identifier has come again goes on in the session of another. -/
theorem Timed.enters {quick : Ping.Config} (h : Timed config (fun _ _ => True) w r)
    (hnew : w.engine.Anew n) {run : Run} {born : Nat}
    (hf : ⟨.sleeping (.pausing run), born⟩ ∈ w.frames)
    (hidentifier : run.identifier = w.engine.takeIdentifier.2)
    (hsize : quick.payloadSize.toNat ≤ maxEchoData) {other : Address}
    (hother : run.destination ≠ other) :
    ∃ w' r', Timed config (fun _ _ => True) w' r' ∧ r'.now = r.now ∧ r'.answers = [] ∧
      (∃ s, w'.engine.session = some s ∧ s.config = quick.normalized) ∧
      ∀ later : Instant, later.toNat ≤ r.now.toNat + run.config.timeout.toNat →
        w'.engine.inTime? run.key later = some ⟨run.key, r.now, run.config.timeout⟩ := by
  obtain ⟨e, hping, hready, hsession, hused, hentries⟩ := hnew.pingWith hsize other r.now
  have hstarted := h.step (.call w (.pingWith other quick)) (.still (UInt64.le_refl r.now)) trivial
  have hengine : (w.call (.pingWith other quick) (.still r.now)).engine = e :=
    (engine_call _ _ _).trans (congrArg Turn.engine hping)
  obtain ⟨before, after, hframes⟩ := List.append_of_mem
    (mem_suspend_of_mem hf (w.engine.start (.still r.now) (.pingWith other quick)) w.starts)
  rw [← frames_call] at hframes
  have howns : e.owns run.identifier :=
    (Engine.owns_iff_of_session hsession _).2 hidentifier.symm
  have hroom : e.pending.count < PendingTable.capacity := by
    rw [PendingTable.count_eq, hentries]
    exact Nat.succ_lt_succ (Nat.succ_pos 14)
  obtain ⟨e', hattempt, hready', hsession', hentries'⟩ :=
    Engine.attempt_of_owns hready howns hroom r.now
  have hturn : Resumes (w.call (.pingWith other quick) (.still r.now)).engine (.still r.now)
      (.sleeping (.pausing run))
      (.send e' run.destination (Engine.echoPacket run.key run.config) (.pinged run)) := by
    rw [hengine, ← hattempt]
    exact .woken _
  have hsent := hstarted.step (.resume hframes hturn) (.still (UInt64.le_refl r.now)) trivial
  have hstarts : (w.call (.pingWith other quick) (.still r.now)).starts = w.starts + 1 := by
    rw [call_of_opens]
    have hused' : (w.engine.start (.still r.now) (.pingWith other quick)).engine.identifiersUsed =
        n + 1 := (congrArg (fun turn => turn.engine.identifiersUsed) hping).trans hused
    rw [hused', hnew.identifiersUsed]
  refine ⟨_, _, hsent, rfl, ?_, ⟨_, hsession'.trans hsession, rfl⟩, fun later hlater => ?_⟩
  · simp [recordOf, hstarts]
  · refine Engine.inTime?_of_perm hentries' (fun q hq hkey => ?_) (Nat.sub_le_iff_le_add'.2 hlater)
    rw [hentries, List.mem_singleton] at hq
    rw [hq] at hkey
    exact hother (congrArg EchoKey.destination hkey).symm

/-- After 2 ^ 16 starts during a blocking ping, the statistics of another session have an answer
that took as long as the blocking ping waits for one. -/
theorem Timed.outwaits (h : Timed config (fun _ _ => True) w r) (hnew : w.engine.Anew n)
    (slow quick : Ping.Config) (later : Instant) (hslow : slow.payloadSize.toNat ≤ maxEchoData)
    (hcount : 1 < slow.normalized.count.toNat) (hinterval : slow.normalized.interval ≠ 0)
    (hquick : quick.payloadSize.toNat ≤ maxEchoData)
    (hlater : later.toNat = r.now.toNat + slow.normalized.timeout.toNat) :
    ∃ w' r', Timed config (fun _ _ => True) w' r' ∧
      r'.answers.map Answer.roundTrip = [slow.normalized.timeout.toNat] ∧
      ∃ s, r'.session = some s ∧ s.config = quick.normalized := by
  obtain ⟨w₁, r₁, h₁, hnow₁, hnew₁, run, hdestination, hidentifier, hconfig, born, hf₁⟩ :=
    h.pause hnew hslow hcount hinterval ⟨10, 0, 2, 2⟩
  obtain ⟨w₂, r₂, h₂, hnow₂, hnew₂, hf₂⟩ := h₁.restarts hnew₁ hf₁ 65535
  have hagain : n + 1 + UInt16.ofNat 65535 = n := by
    rw [UInt16.add_assoc]
    exact UInt16.add_zero n
  rw [hagain] at hnew₂
  have hidentifier' : run.identifier = w₂.engine.takeIdentifier.2 := by
    rw [hidentifier, Engine.takeIdentifier, Engine.takeIdentifier, hnew.identifiersUsed,
      hnew₂.identifiersUsed]
  have hother : run.destination ≠ ⟨10, 0, 2, 3⟩ := by
    rw [hdestination]
    decide
  obtain ⟨w₃, r₃, h₃, hnow₃, hanswers, ⟨s, hs, hquick'⟩, hintime⟩ :=
    h₂.enters hnew₂ hf₂ hidentifier' hquick hother
  have hnow : r₂.now = r.now := hnow₂.trans hnow₁
  have hintime' := hintime later (by rw [hlater, hnow, hconfig])
  have hle : r₃.now ≤ later := by
    rw [UInt64.le_iff_toNat_le, hlater, hnow₃, hnow]
    omega
  obtain ⟨r₄, h₄, -, hanswers', hsession⟩ := h₃.answer hintime' hle trivial
  refine ⟨_, r₄, h₄, ?_, s, hsession s hs, hquick'⟩
  rw [hanswers', hanswers]
  show [later.toNat - r₂.now.toNat] = _
  rw [hlater, hnow, Nat.add_sub_cancel_left]

end World

end NetHost.Icmp
