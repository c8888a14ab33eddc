import Mathlib.Algebra.Order.BigOperators.Group.List
import Mathlib.Algebra.Order.Ring.Nat
import Mathlib.Tactic.Common
import NetHost.Proofs.Icmp.BlockingPing
import NetHost.Proofs.Icmp.DistinctKeys
import NetHost.Proofs.Icmp.Ownership
import NetHost.Proofs.Icmp.StaleRuns
import NetHost.Proofs.Icmp.Timed
import NetHost.Proofs.Icmp.Tries

/-!
# Round-trip times

The statistics of a session have the least, the greatest and the sum of the times that its answers
took, and no answer that counts took longer than its echo is waited for.  That is as long as the
session waits for one, unless a call lasts through too many starts (`World.round_trips_exact`).

* `Ping.Statistics.Sums` relates statistics to round trips; `Sums.average` is what follows for their
  average.
* Nothing but an answer changes what is kept of the round trips (`Engine.Quiet`).
* `heard_input` tells which packets are counted as answers.
-/

namespace NetHost.Icmp

open Ipv4 (Address)

/-! ## Statistics of round trips -/

namespace Ping.Statistics

/-- The statistics are those of the given round trips. -/
structure Sums (s : Statistics) (trips : List Nat) : Prop where
  received : s.received.toNat = trips.length
  rttMin : s.rttMin.toNat = trips.min?.getD 0
  rttMax : s.rttMax.toNat = trips.max?.getD 0
  rttSum : s.rttSum.toNat = trips.sum

/-- What statistics have of round trips. -/
def trips (s : Statistics) : UInt32 × UInt32 × UInt32 × UInt64 :=
  (s.received, s.rttMin, s.rttMax, s.rttSum)

variable {s s' : Statistics} {trips trips' : List Nat} {bound : Nat}

theorem Sums.of_trips (h : s.Sums trips) (heq : s'.trips = s.trips) : s'.Sums trips := by
  simp only [Statistics.trips, Prod.mk.injEq] at heq
  obtain ⟨hreceived, hmin, hmax, hsum⟩ := heq
  exact ⟨hreceived ▸ h.received, hmin ▸ h.rttMin, hmax ▸ h.rttMax, hsum ▸ h.rttSum⟩

/-- The order in which the answers came does not matter. -/
theorem Sums.perm (h : s.Sums trips) (hperm : trips'.Perm trips) : s.Sums trips' := by
  have hmin : trips'.min? = trips.min? := by
    refine Option.ext fun a => ?_
    simp only [List.min?_eq_some_iff, hperm.mem_iff]
  have hmax : trips'.max? = trips.max? := by
    refine Option.ext fun a => ?_
    simp only [List.max?_eq_some_iff, hperm.mem_iff]
  exact ⟨hperm.length_eq ▸ h.received, hmin ▸ h.rttMin, hmax ▸ h.rttMax, hperm.sum_nat ▸ h.rttSum⟩

theorem sum_le (hbound : ∀ trip ∈ trips, trip ≤ bound) : trips.sum ≤ trips.length * bound :=
  List.sum_le_card_nsmul trips bound hbound

/-- No counter stops at its largest value. -/
theorem Sums.recordReply (h : s.Sums trips) (hfew : trips.length + 1 < 2 ^ 32)
    (hbound : ∀ trip ∈ trips, trip ≤ 0xFFFFFFFF) (rtt : UInt32) :
    (s.recordReply rtt).Sums (rtt.toNat :: trips) := by
  have hreceived := h.received
  have hrtt := rtt.toNat_lt
  have hsum : trips.sum ≤ trips.length * 0xFFFFFFFF := sum_le hbound
  refine ⟨?_, ?_, ?_, ?_⟩
  · rw [Statistics.recordReply, Saturating.toNat_add32_one, List.length_cons]
    omega
  · have hmin := h.rttMin
    have hzero : s.received = 0 ↔ trips = [] := by
      rw [← UInt32.toNat_inj, hreceived]
      exact List.length_eq_zero_iff
    rw [List.min?_cons]
    cases trips with
    | nil =>
      rw [Statistics.recordReply, if_pos (.inl (hzero.2 rfl))]
      rfl
    | cons trip trips =>
      rw [List.min?_cons] at hmin ⊢
      simp only [Statistics.recordReply, hzero, reduceCtorEq, false_or, UInt32.lt_iff_toNat_lt]
      simp only [Option.getD_some, Option.elim_some] at hmin ⊢
      split_ifs <;> omega
  · have hmax := h.rttMax
    have hcons : (rtt.toNat :: trips).max?.getD 0 = max rtt.toNat (trips.max?.getD 0) := by
      rw [List.max?_cons]
      cases trips.max? <;> simp
    simp only [Statistics.recordReply, hcons, UInt32.lt_iff_toNat_lt]
    split_ifs <;> omega
  · rw [Statistics.recordReply, Saturating.toNat_add64, h.rttSum, UInt32.toNat_toUInt64,
      List.sum_cons]
    omega

/-- The average lies between the least and the greatest, so it fits. -/
theorem Sums.average (h : s.Sums trips) :
    s.average.toNat = s.rttSum.toNat / s.received.toNat ∧
      (0 < s.received → s.rttMin ≤ s.average ∧ s.average ≤ s.rttMax) := by
  have hmax := s.rttMax.toNat_lt
  have hle : ∀ trip ∈ trips, trip ≤ s.rttMax.toNat := by
    intro trip htrip
    rw [h.rttMax]
    exact List.le_max?_getD_of_mem htrip
  have hge : ∀ trip ∈ trips, s.rttMin.toNat ≤ trip := by
    intro trip htrip
    rw [h.rttMin]
    exact List.min?_getD_le_of_mem htrip
  have hsum : s.rttSum.toNat ≤ s.received.toNat * s.rttMax.toNat := by
    rw [h.rttSum, h.received]
    exact sum_le hle
  have hsum' : s.received.toNat * s.rttMin.toNat ≤ s.rttSum.toNat := by
    rw [h.rttSum, h.received]
    exact List.card_nsmul_le_sum trips _ hge
  have hfits : s.rttSum.toNat / s.received.toNat ≤ s.rttMax.toNat :=
    Nat.div_le_of_le_mul hsum
  have haverage : s.average.toNat = s.rttSum.toNat / s.received.toNat := by
    unfold Statistics.average
    split_ifs with hzero
    · rw [hzero]
      exact (Nat.div_zero _).symm
    · rw [UInt64.toNat_toUInt32, UInt64.toNat_div, UInt32.toNat_toUInt64]
      exact Nat.mod_eq_of_lt (Nat.lt_of_le_of_lt hfits hmax)
  refine ⟨haverage, fun hpos => ?_⟩
  rw [UInt32.lt_iff_toNat_lt] at hpos
  rw [UInt32.le_iff_toNat_le, UInt32.le_iff_toNat_le, haverage]
  exact ⟨(Nat.le_div_iff_mul_le hpos).2 (Nat.mul_comm _ _ ▸ hsum'), hfits⟩

end Ping.Statistics

/-! ## What changes no round trip -/

variable {dated : Instant → Prop} {e e' e'' : Engine} {t : Clock}

/-- Nothing is kept of a round trip, and the echoes that got into the table have a date. -/
structure Engine.Quiet (dated : Instant → Prop) (e e' : Engine) : Prop where
  trips : e'.statistics.trips = e.statistics.trips
  entries : ∀ p ∈ e'.pending.entries, p ∈ e.pending.entries ∨ dated p.sentAt

namespace Engine.Quiet

theorem refl (e : Engine) : Quiet dated e e := ⟨rfl, fun _ hp => .inl hp⟩

theorem idle (h : Quiet dated e e') (counters : Counters) (journal : Array Note) :
    Quiet dated e { e' with counters, journal } := ⟨h.trips, h.entries⟩

theorem count (h : Quiet dated e e') (counters : Counters) :
    Quiet dated e { e' with counters } := ⟨h.trips, h.entries⟩

theorem note (h : Quiet dated e e') (note : Note) : Quiet dated e (e'.note note) :=
  ⟨h.trips, h.entries⟩

theorem moveOn (h : Quiet dated e e') (session : Option Ping.Session) :
    Quiet dated e { e' with session } := ⟨h.trips, h.entries⟩

theorem sweep (h : Quiet dated e e') (now : Instant) : Quiet dated e (e'.sweep now) := by
  obtain ⟨timeouts, journal, heq⟩ := e'.sweep_eq now
  obtain ⟨lost, hlost, -⟩ := e'.statistics.iterate_recordLost (e'.owned (e'.pending.sweep now).2)
  rw [heq, hlost]
  exact ⟨h.trips, fun p hp => h.entries p (PendingTable.mem_entries_remove.1 hp).1⟩

theorem recordError (h : Quiet dated e e') (identifier : UInt16) :
    Quiet dated e (e'.recordError identifier) := by
  obtain ⟨errors, herrors, -⟩ := e'.statistics.recordError_eq
  rw [Engine.recordError, herrors]
  split_ifs
  · exact ⟨h.trips, h.entries⟩
  · exact h

theorem fail (h : Quiet dated e e') {key : EchoKey} {p : PendingEcho} {pending : PendingTable}
    (htake : e'.pending.take? key = some (p, pending)) (identifier : UInt16) :
    Quiet dated e ({ e' with pending }.recordError identifier) := by
  have htaken : Quiet dated e { e' with pending } :=
    ⟨h.trips, fun q hq => h.entries q ((PendingTable.mem_entries_of_take? htake).2 (.inr hq))⟩
  exact htaken.recordError identifier

theorem register (h : Quiet dated e e') {now : Instant} {key : EchoKey} {timeout : UInt32}
    (hnow : dated now) (hregister : e'.register now key timeout = .ok e'') :
    Quiet dated e e'' := by
  obtain ⟨pending, hallocate, rfl⟩ := register_eq_ok hregister
  obtain ⟨sent, hsent, -⟩ := e'.statistics.recordSent_eq
  rw [hsent]
  refine ⟨h.trips, fun p hp => ?_⟩
  rcases (PendingTable.mem_entries_of_allocate hallocate).1 hp with rfl | hp
  · exact .inr hnow
  · exact h.entries p hp

theorem dropEcho (h : Quiet dated e e') (key : EchoKey) (cause : Error) :
    Quiet dated e (e'.dropEcho key cause) := by
  have hfailure : Quiet dated e e'.countFailure := h.count _
  simp only [Engine.dropEcho]
  split
  · exact (hfailure.fail ‹_› key.identifier).note _
  · exact hfailure.note _

theorem handleReport (h : Quiet dated e e') (source : Address) (kind : Kind) (report : Report) :
    Quiet dated e (e'.handleReport source kind report) := by
  simp only [Engine.handleReport]
  split
  · exact (h.count _).note _
  · rename_i p pending htake
    obtain ⟨key, -, htake⟩ := Option.bind_eq_some_iff.1 htake
    exact (h.fail htake p.key.identifier).note _

theorem drop (h : Quiet dated e e') (source : Address) (damage : Damage) :
    Quiet dated e (e'.drop source damage) := by
  cases damage with
  | truncated => exact (h.count _).note _
  | badChecksum => exact (h.count _).note _

theorem finishSession (h : Quiet dated e e') (now : Instant) :
    Quiet dated e (e'.finishSession now) := by
  cases hs : e'.session with
  | none =>
    rw [finishSession_of_none hs]
    exact h
  | some s =>
    obtain ⟨lost, hlost, -⟩ := e'.statistics.iterate_recordLost
      (e'.pending.removeIdentifier s.identifier).2.length
    rw [finishSession_of_some hs, hlost]
    exact ⟨h.trips, fun p hp => h.entries p (PendingTable.mem_entries_remove.1 hp).1⟩

theorem endSession (h : Quiet dated e e') (now : Instant) (identifier : UInt16) :
    Quiet dated e (e'.endSession now identifier) := by
  unfold Engine.endSession
  split_ifs
  · exact h.finishSession now
  · exact h

theorem summarize (h : Quiet dated e e') : Quiet dated e e'.summarize := by
  obtain ⟨journal, hsummarize⟩ := e'.summarize_eq
  rw [hsummarize]
  exact h.idle e'.counters journal

theorem report (h : Quiet dated e e') : Quiet dated e e'.report := by
  obtain ⟨journal, hreport⟩ := e'.report_eq
  rw [hreport]
  exact h.idle e'.counters journal

/-! ### Turns -/

theorem sendEcho (h : Quiet dated e e') (destination : Address) (kind : Kind) (limit : Nat)
    (echo : Echo) : Quiet dated e (e'.sendEcho destination kind limit echo).engine := by
  unfold Engine.sendEcho
  split_ifs
  · exact h
  · exact h
  · exact h

theorem sendReport (h : Quiet dated e e') (destination : Address) (kind : Kind) (isCode : Bool)
    (report : Report) : Quiet dated e (e'.sendReport destination kind isCode report).engine := by
  unfold Engine.sendReport
  split_ifs
  · exact h
  · exact h
  · exact h

theorem conclude (h : Quiet dated e e') (t : Clock) (run : Run) :
    Quiet dated e (e'.conclude t run).engine :=
  (h.endSession t.now run.identifier).summarize

theorem attempt (h : Quiet dated e e') (ht : ∀ n, dated (t.reading n)) (run : Run) :
    Quiet dated e (e'.attempt t run).engine := by
  unfold Engine.attempt
  split_ifs
  · split
    · exact h.endSession t.later.now run.identifier
    · exact h.register (ht 0) ‹_›
  · exact h.conclude t.later run
  · exact h

theorem proceed (h : Quiet dated e e') (ht : ∀ n, dated (t.reading n)) (run : Run) :
    Quiet dated e (e'.proceed t run).engine := by
  unfold Engine.proceed
  split_ifs
  · exact h.conclude t run
  · exact h.attempt ht run.next
  · exact h

theorem await (h : Quiet dated e e') (ht : ∀ n, dated (t.reading n)) (run : Run) :
    Quiet dated e (e'.await t run).engine := by
  have hsweep := h.sweep t.now
  simp only [Engine.await]
  split_ifs
  · exact hsweep
  · exact hsweep.proceed (fun n => ht (n + 1)) run

theorem poll (h : Quiet dated e e') (ht : ∀ n, dated (t.reading n)) :
    Quiet dated e (e'.poll t).engine := by
  have hsweep := h.sweep t.now
  rcases e'.poll_cases t with ⟨-, hpoll⟩ | ⟨-, -, hpoll⟩ |
    ⟨s, -, -, -, ⟨e₁, hregister, hpoll⟩ | ⟨cause, -, hpoll⟩⟩
  · rw [hpoll]
    exact h
  · rw [hpoll]
    exact hsweep
  · rw [hpoll]
    exact (hsweep.moveOn _).register (ht 1) hregister
  · rw [hpoll]
    exact ((hsweep.moveOn _).note _).recordError _

theorem stopPing (h : Quiet dated e e') (t : Clock) : Quiet dated e (e'.stopPing t).engine := by
  unfold Engine.stopPing
  split_ifs
  · exact (h.finishSession t.now).summarize
  · exact h

end Engine.Quiet

theorem quiet_resumes {f : Suspended} {turn : Turn} (ht : ∀ n, dated (t.reading n))
    (h : Resumes e t f turn) : e.Quiet dated turn.engine := by
  have hrefl : e.Quiet dated e := .refl e
  cases h with
  | sent answer rest =>
    cases rest with
    | message kind destination =>
      cases answer with
      | ok _ => exact hrefl.count _
      | error cause => exact (hrefl.count _).note _
    | polled key =>
      cases answer with
      | ok _ => exact hrefl.count _
      | error cause => exact hrefl.dropEcho key cause
    | pinged run =>
      cases answer with
      | ok _ => exact (hrefl.count _).await ht run
      | error cause => exact (hrefl.dropEcho run.key cause).proceed ht run
  | woken rest =>
    cases rest with
    | awaiting run => exact hrefl.await ht run
    | pausing run => exact hrefl.attempt ht run

/-! ## What an answer changes -/

/-- The answers that were heard are counted, and nothing else is kept of a round trip. -/
structure Engine.Hears (dated : Instant → Prop) (heard : List Answer) (e e' : Engine) : Prop where
  sums : ∀ trips : List Nat, heard.length + trips.length < 2 ^ 32 →
    (∀ trip ∈ trips, trip ≤ 0xFFFFFFFF) → e.statistics.Sums trips →
    e'.statistics.Sums (heard.map Answer.roundTrip ++ trips)
  entries : ∀ p ∈ e'.pending.entries, p ∈ e.pending.entries ∨ dated p.sentAt

theorem Engine.Quiet.hears (h : Quiet dated e e') : Hears dated [] e e' :=
  ⟨fun _ _ _ hsums => hsums.of_trips h.trips, h.entries⟩

/-- The sweep leaves those that may still be answered. -/
theorem Engine.map_fst_take?_sweep (e : Engine) (now : Instant) (key : EchoKey) :
    ((e.sweep now).pending.take? key).map Prod.fst = e.inTime? key now := by
  rw [PendingTable.map_fst_take?, pending_sweep, PendingTable.sweep, PendingTable.entries_remove,
    List.find?_filter]
  refine congrArg (List.find? · e.pending.entries) (funext fun p => ?_)
  have hfresh : (!p.isExpired now) = true ↔ now.toNat - p.sentAt.toNat ≤ p.timeout.toNat := by
    rw [Bool.not_eq_true', PendingEcho.isExpired_eq_false_iff]
    omega
  simp only [hfresh, decide_eq_true_eq, and_comm]

theorem Engine.hears_handleReply (howned : ∀ p ∈ e.pending.entries, e.owns p.key.identifier)
    (source : Address) (echo : Echo) (now : Instant) :
    Hears dated
      ((e.inTime? ⟨source, echo.identifier, echo.sequence⟩ now).map (⟨·, now⟩)).toList e
      (e.handleReply source echo now) := by
  have hsweep : Quiet dated e (e.sweep now) := (Quiet.refl e).sweep now
  have hfirst := e.map_fst_take?_sweep now ⟨source, echo.identifier, echo.sequence⟩
  unfold handleReply
  dsimp only
  cases htake : (e.sweep now).pending.take? ⟨source, echo.identifier, echo.sequence⟩ with
  | none =>
    rw [htake] at hfirst
    rw [← hfirst]
    exact ((hsweep.count _).note _).hears
  | some r =>
    obtain ⟨p, pending⟩ := r
    have hsome : e.inTime? ⟨source, echo.identifier, echo.sequence⟩ now = some p := by
      rw [← hfirst, htake]
      rfl
    obtain ⟨hp, hkey, htime⟩ := inTime?_eq_some hsome
    have howns : ({ e.sweep now with pending } : Engine).owns echo.identifier := by
      have hp := howned p hp
      rw [hkey] at hp
      rw [owns, session_sweep]
      exact hp
    have hrtt : (Saturating.clamp32 (Saturating.sub64 now p.sentAt)).toNat =
        now.toNat - p.sentAt.toNat := by
      have := p.timeout.toNat_lt
      rw [Saturating.toNat_clamp32, Saturating.toNat_sub64]
      omega
    rw [hsome]
    refine ⟨fun trips hfew hbound hsums => ?_, fun q hq => hsweep.entries q ?_⟩
    · have hfew : trips.length + 1 < 2 ^ 32 := Nat.add_comm _ _ ▸ hfew
      have hrecord := (hsums.of_trips hsweep.trips).recordReply hfew hbound
        (Saturating.clamp32 (Saturating.sub64 now p.sentAt))
      rw [hrtt] at hrecord
      simp only [recordReply, if_pos howns]
      exact hrecord
    · simp only [recordReply, if_pos howns] at hq
      exact (PendingTable.mem_entries_of_take? htake).2 (.inr hq)

/-! ## Calls -/

/-- No session starts, and if the call is no answer nothing is kept of a round trip. -/
structure Turn.GoesOn (dated : Instant → Prop) (e : Engine) (heard : List Answer) (turn : Turn) :
    Prop where
  hears : e.Hears dated heard turn.engine
  identifiersUsed : turn.engine.identifiersUsed = e.identifiersUsed

/-- A session starts, and nothing is kept of a round trip. -/
def Turn.StartsAnew (dated : Instant → Prop) (e : Engine) (turn : Turn) : Prop :=
  ∃ s, (e.begun s).Quiet dated turn.engine ∧
    turn.engine.identifiersUsed = e.identifiersUsed + 1

theorem quiet_pingWith (e : Engine) (ht : ∀ n, dated (t.reading n)) (destination : Address)
    (config : Ping.Config) :
    (e.pingWith t destination config).GoesOn dated e [] ∨
      (e.pingWith t destination config).StartsAnew dated e := by
  have hrefl : e.Quiet dated e := .refl e
  simp only [Engine.pingWith]
  split_ifs
  · exact .inl ⟨hrefl.hears, rfl⟩
  · rcases beginSession_cases e t.now destination .blocking config.normalized_normalized with
      ⟨cause, journal, h⟩ | ⟨s, -, -, -, -, h⟩
    · rw [h]
      exact .inl ⟨(hrefl.idle e.counters journal).hears, rfl⟩
    · rw [h]
      exact .inr ⟨s, ((Engine.Quiet.refl _).note _).attempt (fun n => ht (n + 1)) _,
        Engine.identifiersUsed_attempt _ _ _⟩

theorem quiet_startPingWith (e : Engine) (ht : ∀ n, dated (t.reading n)) (destination : Address)
    (config : Ping.Config) :
    (e.startPingWith t destination config).GoesOn dated e [] ∨
      (e.startPingWith t destination config).StartsAnew dated e := by
  have hrefl : e.Quiet dated e := .refl e
  simp only [Engine.startPingWith]
  split_ifs
  · exact .inl ⟨hrefl.hears, rfl⟩
  · rcases beginSession_cases e t.now destination .continuous config.normalized_normalized with
      ⟨cause, journal, h⟩ | ⟨s, -, -, -, -, h⟩
    · rw [h]
      exact .inl ⟨(hrefl.idle e.counters journal).hears, rfl⟩
    · rw [h]
      exact .inr ⟨s, ((Engine.Quiet.refl _).note _).poll (fun n => ht (n + 1)),
        Engine.identifiersUsed_poll _ _⟩

theorem quiet_input {packet : Bytes} (e : Engine)
    (hother : ∀ echo, Message.decode packet ≠ .ok (.echoReply echo)) (t : Clock)
    (source : Address) : e.Quiet dated (e.input t source packet).engine := by
  have hrefl : e.Quiet dated e := .refl e
  unfold Engine.input
  split_ifs
  · exact hrefl
  · dsimp only
    split
    · exact (hrefl.count _).drop source _
    · exact ((hrefl.count _).count _).sendEcho source .echoReply maxPayload _
    · exact absurd ‹_› (hother _)
    · exact ((hrefl.count _).count _).handleReport source .unreachable _
    · exact ((hrefl.count _).count _).handleReport source .timeExceeded _
    · exact ((hrefl.count _).count _).note _

/-- Of the packets that come in, echo replies can be answers. -/
theorem hears_input (hready : e.ready ∨ e.pending.entries = [])
    (howned : ∀ p ∈ e.pending.entries, e.owns p.key.identifier) (t : Clock) (source : Address)
    (packet : Bytes) :
    e.Hears dated ((e.answered? t.now source packet).map (⟨·, t.now⟩)).toList
      (e.input t source packet).engine := by
  unfold Engine.answered?
  split
  · rename_i echo hdecode
    cases he : e.ready with
    | true =>
      obtain ⟨counters, h⟩ := Engine.input_of_echoReply he hdecode t source
      have hheard : Engine.Hears dated _ _ _ :=
        Engine.hears_handleReply (e := { e with counters }) howned source echo t.now
      rw [h]
      exact ⟨hheard.sums, hheard.entries⟩
    | false =>
      have hempty : e.pending.entries = [] := by simpa [he] using hready
      rw [Engine.inTime?, hempty, Engine.input, if_pos (by simp [he])]
      exact (Engine.Quiet.refl e).hears
  · rename_i hother
    exact (quiet_input e hother t source).hears

theorem identifiersUsed_start (e : Engine) (t : Clock) {c : Call} (hinit : c ≠ .init)
    (hmode : c.mode? = none) : (e.start t c).engine.identifiersUsed = e.identifiersUsed := by
  have hR : AdmitsOwn fun _ _ _ => True := fun _ _ => trivial
  rcases leads_start hR e t hinit with hleads | ⟨mode, hsome, -⟩
  · exact hleads.moves.keeps.2
  · rw [hmode] at hsome
    cases hsome

/-- What a call changes, unless it makes the engine ready. -/
theorem hears_start (hready : e.ready ∨ e.pending.entries = [])
    (howned : ∀ p ∈ e.pending.entries, e.owns p.key.identifier)
    (ht : ∀ n, dated (t.reading n)) {c : Call} (hinit : c ≠ .init) :
    (e.start t c).GoesOn dated e (e.heard c t) ∨ (e.start t c).StartsAnew dated e := by
  have hrefl : e.Quiet dated e := .refl e
  have hused := identifiersUsed_start e t hinit
  cases c with
  | init => exact absurd rfl hinit
  | poll => exact .inl ⟨(hrefl.poll ht).hears, hused rfl⟩
  | report => exact .inl ⟨hrefl.report.hears, hused rfl⟩
  | input source packet => exact .inl ⟨hears_input hready howned t source packet, hused rfl⟩
  | sendRequest destination echo =>
    exact .inl ⟨(hrefl.sendEcho destination _ _ echo).hears, hused rfl⟩
  | sendReply destination echo =>
    exact .inl ⟨(hrefl.sendEcho destination _ _ echo).hears, hused rfl⟩
  | sendUnreachable destination report =>
    exact .inl ⟨(hrefl.sendReport destination _ _ report).hears, hused rfl⟩
  | sendTimeExceeded destination report =>
    exact .inl ⟨(hrefl.sendReport destination _ _ report).hears, hused rfl⟩
  | ping destination count timeout => exact quiet_pingWith e ht destination _
  | pingWith destination config => exact quiet_pingWith e ht destination config
  | startPing destination => exact quiet_startPingWith e ht destination _
  | startPingWith destination config => exact quiet_startPingWith e ht destination config
  | stopPing => exact .inl ⟨(hrefl.stopPing t).hears, hused rfl⟩

/-! ## Runs -/

/-- The record has the round trips that are in the statistics, and none took too long. -/
structure Record.Sums (r : Record) (e : Engine) : Prop where
  statistics : r.answers.length < 2 ^ 32 →
    e.statistics.Sums (r.answers.map Answer.roundTrip)
  answers : ∀ a ∈ r.answers,
    a.echo.sentAt ≤ a.arrival ∧ a.roundTrip ≤ a.echo.timeout.toNat
  entries : ∀ p ∈ e.pending.entries, p.sentAt ≤ r.now

theorem Engine.mem_heard {c : Call} {a : Answer} (h : a ∈ e.heard c t) :
    a.echo ∈ e.pending.entries ∧ a.arrival = t.now ∧ a.roundTrip ≤ a.echo.timeout.toNat := by
  unfold heard at h
  split at h
  · rename_i source packet
    obtain ⟨p, hp, rfl⟩ := Option.map_eq_some_iff.1 (Option.mem_toList.1 h)
    unfold answered? at hp
    split at hp
    · obtain ⟨hmem, -, htime⟩ := inTime?_eq_some hp
      exact ⟨hmem, rfl, htime⟩
    · cases hp
  · cases h

namespace World

variable {config : Ping.Config} {ok : Clock → World → Prop} {w w' : World} {r : Record}
  {c : Option Call}

theorem StepAt.cases (dated : Instant → Prop)
    (hready : w.engine.ready ∨ w.engine.pending.entries = [])
    (howned : ∀ p ∈ w.engine.pending.entries, w.engine.owns p.key.identifier)
    (hstep : StepAt t w c w') (ht : ∀ n, dated (t.reading n)) :
    (c = some .init ∧ w'.engine = w.engine.init) ∨
    (w'.starts ≠ w.starts ∧ ∃ s, (w.engine.begun s).Quiet dated w'.engine) ∨
    (c ≠ some .init ∧ w'.starts = w.starts ∧
      w.engine.Hears dated (c.elim [] (w.engine.heard · t)) w'.engine) := by
  cases hstep with
  | call c =>
    by_cases hinit : c = .init
    · subst hinit
      exact .inl ⟨rfl, engine_call w .init t⟩
    · right
      have hne : some c ≠ some .init := fun h => hinit (Option.some_inj.1 h)
      rcases hears_start hready howned ht hinit with hgoes | ⟨s, hquiet, hused⟩
      · rw [call_of_keeps hgoes.identifiersUsed]
        exact .inr ⟨hne, rfl, hgoes.hears⟩
      · rw [call_of_opens hused]
        exact .inl ⟨Nat.succ_ne_self _, s, hquiet⟩
  | resume hframes hturn =>
    exact .inr (.inr ⟨nofun, rfl, (quiet_resumes ht hturn).hears⟩)

theorem Timed.sums (h : Timed config ok w r) : r.Sums w.engine := by
  induction h with
  | new now => exact ⟨fun _ => ⟨rfl, rfl, rfl, rfl⟩, List.forall_mem_nil _, List.forall_mem_nil _⟩
  | @step w w' r c t later h hstep hruns hok ih =>
    have hnow : r.now ≤ later := UInt64.le_trans hruns.first_le (hruns.le_last 0)
    rcases hstep.cases (· ≤ later) h.ready_or_empty h.conserves.owned hruns.le_last with
      ⟨rfl, hengine⟩ | ⟨hstarts, s, hquiet⟩ | ⟨hinit, hstarts, hhears⟩
    · have hanswers : (recordOf r w w' (some .init) t later).answers = [] := by simp [recordOf]
      refine ⟨fun _ => ?_, ?_, ?_⟩
      · rw [hanswers, hengine]
        exact ⟨rfl, rfl, rfl, rfl⟩
      · rw [hanswers]
        exact List.forall_mem_nil _
      · rw [hengine]
        exact List.forall_mem_nil _
    · have hanswers : (recordOf r w w' c t later).answers = [] := if_pos (.inr hstarts)
      refine ⟨fun _ => ?_, ?_, fun p hp => ?_⟩
      · have hbegun : (w.engine.begun s).statistics.Sums [] := ⟨rfl, rfl, rfl, rfl⟩
        rw [hanswers]
        exact hbegun.of_trips hquiet.trips
      · rw [hanswers]
        exact List.forall_mem_nil _
      · rcases hquiet.entries p hp with hp | hp
        · exact UInt64.le_trans (ih.entries p hp) hnow
        · exact hp
    · have hanswers : (recordOf r w w' c t later).answers =
          c.elim [] (w.engine.heard · t) ++ r.answers := if_neg (by simp [hinit, hstarts])
      refine ⟨fun hfew => ?_, fun a ha => ?_, fun p hp => ?_⟩
      · rw [hanswers] at hfew ⊢
        rw [List.length_append] at hfew
        rw [List.map_append]
        refine hhears.sums _ ?_ ?_ (ih.statistics (by omega))
        · rw [List.length_map]
          exact hfew
        · intro trip htrip
          obtain ⟨a, ha, rfl⟩ := List.mem_map.1 htrip
          have htimeout := a.echo.timeout.toNat_lt
          have hle := (ih.answers a ha).2
          omega
      · rw [hanswers] at ha
        rcases List.mem_append.1 ha with ha | ha
        · cases c with
          | none => cases ha
          | some c =>
            obtain ⟨hp, harrival, htime⟩ := Engine.mem_heard ha
            rw [harrival]
            exact ⟨UInt64.le_trans (ih.entries _ hp) hruns.first_le, htime⟩
        · exact ih.answers a ha
      · rcases hhears.entries p hp with hp | hp
        · exact UInt64.le_trans (ih.entries p hp) hnow
        · exact hp

/-- The answers on record are to echoes of the session on record. -/
structure Attributes (r : Record) : Prop where
  config : ∀ s, r.session = some s → s.config.normalized = s.config
  answers : ∀ a ∈ r.answers, ∃ s, r.session = some s ∧ Own s a.echo.key a.echo.timeout

theorem Timed.attributes (hfew : ∀ t w, ok t w → w.FewStarts) (h : Timed config ok w r) :
    Attributes r := by
  induction h with
  | new now => exact ⟨nofun, nofun⟩
  | @step w w' r c t later h hstep hruns hok ih =>
    have hreach := h.reach hfew
    have hisolated := hreach.isolated
    have hisolated' := isolated_of_step hisolated hreach.few hstep.step
    refine ⟨fun s hs => ?_, ?_⟩
    · rcases Option.or_eq_some_iff.1 hs with hs | ⟨-, hs⟩
      · exact hisolated'.coherent.config s hs
      · exact ih.config s hs
    · rcases step_cases (fun _ _ => ⟨rfl, rfl, rfl⟩) (hisolated.fits hreach.few) hstep.step with
        ⟨rfl, -⟩ | ⟨s, hopens⟩ | hgoes
      · simp [recordOf]
      · simp [recordOf, hopens.starts]
      · intro a ha
        -- The session on record before is the same as the one after.
        have hcarry (s : Ping.Session) (hs : r.session = some s)
            (hown : Own s a.echo.key a.echo.timeout) :
            ∃ s', (recordOf r w w' c t later).session = some s' ∧
              Own s' a.echo.key a.echo.timeout := by
          cases hs' : w'.engine.session with
          | none => exact ⟨s, by rw [recordOf, hs', Option.none_or, hs], hown⟩
          | some s' =>
            obtain ⟨n, hmoves, -⟩ := hgoes.moves
            obtain ⟨s₀, hs₀, hsame⟩ := hmoves.session hs'
            cases hs.symm.trans (h.session hs₀)
            exact ⟨s', by rw [recordOf, hs', Option.some_or], hown.of_same hsame⟩
        have hmem : a ∈ c.elim [] (w.engine.heard · t) ∨ a ∈ r.answers := by
          simp only [recordOf] at ha
          split_ifs at ha
          · cases ha
          · exact List.mem_append.1 ha
        rcases hmem with ha | ha
        · cases c with
          | none => cases ha
          | some c =>
            obtain ⟨s, hs, hown⟩ := hisolated.coherent.entries _ (Engine.mem_heard ha).1
            exact hcarry s (h.session hs) hown
        · obtain ⟨s, hs, hown⟩ := ih.answers a ha
          exact hcarry s hs hown

/-- As long as the answers can be counted, the statistics are exactly those of the answers, in
whatever order these came.  Each came no later than the echo was waited for, by the timeout of the
session if no call lasts through too many starts.  An echo is dated when it gets into the table, and
the average is rounded down. -/
theorem round_trips_exact (h : Timed config ok w r) (hfew : r.answers.length < 2 ^ 32) :
    let s := w.engine.statistics
    (s.received.toNat = r.answers.length ∧
      ∀ trips : List Nat, trips.Perm (r.answers.map Answer.roundTrip) →
        s.rttMin.toNat = trips.min?.getD 0 ∧ s.rttMax.toNat = trips.max?.getD 0 ∧
        s.rttSum.toNat = trips.sum) ∧
    (∀ a ∈ r.answers, a.echo.sentAt ≤ a.arrival ∧ a.roundTrip ≤ a.echo.timeout.toNat) ∧
    (∀ c t w', StepAt t w c w' → ∀ p ∈ w'.engine.pending.entries,
      p ∈ w.engine.pending.entries ∨ ∃ n, p.sentAt = t.reading n) ∧
    ((∀ t w, ok t w → w.FewStarts) → ∀ session, r.session = some session →
      session.config.normalized = session.config ∧
      (∀ a ∈ r.answers, Own session a.echo.key a.echo.timeout) ∧
      s.rttMax ≤ session.config.timeout) ∧
    s.average.toNat = s.rttSum.toNat / s.received.toNat ∧
    (0 < s.received → s.rttMin ≤ s.average ∧ s.average ≤ s.rttMax) := by
  intro s
  have hrecord := h.sums
  have hsums : s.Sums (r.answers.map Answer.roundTrip) := hrecord.statistics hfew
  refine ⟨⟨?_, fun trips hperm => ?_⟩, hrecord.answers, fun c t w' hstep p hp => ?_,
    fun hstarts session hs => ?_, hsums.average⟩
  · rw [hsums.received, List.length_map]
  · have hperm := hsums.perm hperm
    exact ⟨hperm.rttMin, hperm.rttMax, hperm.rttSum⟩
  · rcases hstep.cases (fun now => ∃ n, now = t.reading n) h.ready_or_empty
      h.conserves.owned (fun n => ⟨n, rfl⟩) with ⟨-, hengine⟩ | ⟨-, s, hquiet⟩ | ⟨-, -, hhears⟩
    · rw [hengine] at hp
      cases hp
    · exact hquiet.entries p hp
    · exact hhears.entries p hp
  · have hattributes := h.attributes hstarts
    have hown : ∀ a ∈ r.answers, Own session a.echo.key a.echo.timeout := by
      intro a ha
      obtain ⟨session', hs', hown⟩ := hattributes.answers a ha
      cases hs.symm.trans hs'
      exact hown
    refine ⟨hattributes.config session hs, hown, ?_⟩
    rw [UInt32.le_iff_toNat_le, hsums.rttMax]
    cases hmax : (r.answers.map Answer.roundTrip).max? with
    | none => exact Nat.zero_le _
    | some trip =>
      obtain ⟨a, ha, rfl⟩ := List.mem_map.1 (List.max?_mem hmax)
      rw [Option.getD_some, ← (hown a ha).timeout]
      exact (hrecord.answers a ha).2

/-- An answer that comes at the last moment counts, and took as long as it may. -/
theorem last_moment_counts :
    let host : Address := ⟨10, 0, 2, 2⟩
    let ready := ({ engine := .new {} } : World).call .init (.still 7)
    let sent := ready.call (.startPing host) (.still 7)
    let w := sent.call (.input host (Packet.echo .echoReply ⟨38348, 0, []⟩)) (.still 1007)
    ∃ r, Timed {} (fun _ w => w.FewStarts) w r ∧ r.answers.length < 2 ^ 32 ∧
      r.answers.map Answer.roundTrip = [1000] ∧
      w.engine.statistics.rttMin.toNat = 1000 ∧ w.engine.statistics.rttSum.toNat = 1000 := by
  intro host ready sent w
  have hready : Timed {} (fun _ w => w.FewStarts) ready _ :=
    .step (.new 7) (.call _ .init) (.still (UInt64.le_refl 7)) (by decide)
  have hsent : Timed {} (fun _ w => w.FewStarts) sent _ :=
    .step hready (.call _ (.startPing host)) (.still (UInt64.le_refl 7)) (by decide)
  have hw : Timed {} (fun _ w => w.FewStarts) w _ :=
    .step hsent (.call _ (.input host (Packet.echo .echoReply ⟨38348, 0, []⟩)))
      (.still (by decide : (7 : Instant) ≤ 1007)) (by decide)
  generalize hr : recordOf _ _ _ _ _ _ = r at hw
  have htrips : r.answers.map Answer.roundTrip = [1000] := by
    rw [← hr]
    decide
  have hfew : r.answers.length < 2 ^ 32 := by
    rw [← List.length_map Answer.roundTrip, htrips]
    decide
  have hsums := (round_trips_exact hw hfew).1.2 [1000] (by rw [htrips])
  exact ⟨r, hw, hfew, htrips, hsums.1, hsums.2.2⟩

/-- Without a limit on the starts during a call, the statistics of a session that waits for 100 ms
can have a round trip of 5 s.  And where two echoes in flight have one key, the round trip of an
answer is taken from the one that is found first. -/
theorem too_long_round_trips :
    (∃ w r, Timed {} (fun _ _ => True) w r ∧ r.answers.length = 1 ∧
      ∃ s, r.session = some s ∧ s.config.timeout.toNat = 100 ∧
        w.engine.statistics.rttMax.toNat = 5000) ∧
    ∃ w r, Timed {} (fun _ w => w.FewStarts) w r ∧ r.answers.map Answer.roundTrip = [1] ∧
      ∃ q ∈ w.engine.pending.entries, q.sentAt.toNat = 9 ∧
        (w.call q.key.answer (.still 19)).engine.statistics.rttMax.toNat = 12 := by
  constructor
  · let slow : Ping.Config := { timeout := 5000, count := 2 }
    let quick : Ping.Config := { timeout := 100 }
    have hready : Timed {} (fun _ _ => True) _ _ :=
      .step (.new 7) (.call _ .init) (.still (UInt64.le_refl 7)) trivial
    obtain ⟨w, r, h, htrips, s, hs, hconfig⟩ :=
      hready.outwaits (Engine.anew_init _) slow quick 5007 (by decide) (by decide) (by decide)
        (by decide) rfl
    have hlength : r.answers.length = 1 := by
      rw [← List.length_map Answer.roundTrip, htrips]
      rfl
    have hsums := h.sums.statistics (by omega)
    refine ⟨w, r, h, hlength, s, hs, ?_, ?_⟩
    · rw [hconfig]
      rfl
    · rw [hsums.rttMax, htrips]
      rfl
  · obtain ⟨w, r, h, hnow, htrips, p, -, q, hq, -, hsent, hsent', hintime⟩ := number_zero_again
    have hle : r.now ≤ 19 := by
      rw [hnow]
      decide
    obtain ⟨r', h', -, hanswers, -⟩ :=
      h.answer hintime hle (fewStarts_call h.few (w.starts_answer _ _))
    have htrips' : r'.answers.map Answer.roundTrip = [12, 1] := by
      rw [hanswers, List.map_cons, htrips, Answer.roundTrip, hsent]
      rfl
    have hlength : r'.answers.length = 2 := by
      rw [← List.length_map Answer.roundTrip, htrips']
      rfl
    have hsums := h'.sums.statistics (by omega)
    refine ⟨w, r, h, htrips, q, hq, by rw [hsent']; rfl, ?_⟩
    rw [hsums.rttMax, htrips']
    rfl

end World

end NetHost.Icmp
