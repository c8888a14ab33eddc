import Mathlib.Data.List.Perm.Subperm
import Mathlib.Tactic.Common
import Mathlib.Tactic.Ring
import NetHost.Proofs.Icmp.Blocking
import NetHost.Proofs.Icmp.Conservation
import NetHost.Proofs.Icmp.Integrity

/-!
# A blocking ping comes to its end

Whatever the IP layer answers and whatever other calls are made while a blocking ping sends or
sleeps, it sends its echoes in order, waits for each until it is settled, and returns with
statistics that account for every one of them (`World.completes_pingWith`).

* `World.Completes` says that a call comes to its end on every way that others leave it.
* `Engine.Underway` is what holds of the engine from the first echo to the last.
-/

namespace NetHost.Icmp

open Ipv4 (Address)

/-! ## Calls that come to an end -/

/-- A packet for the IP layer, and where it is to go. -/
abbrev Outgoing := Address × Bytes

/-- A call that stands at `turn`, and has handed over the packets `handed`, comes to an end with a
`result`.  Whenever it gives way, others may do what they like, and the IP layer may take the packet
or not; the engine stays as `during` says.  The clock goes on while the call sleeps, by as much as
it asks for, and does not run over. -/
inductive World.Completes (during : Engine → Prop) (result : List Outgoing → Reply → Prop) :
    World → Instant → List Outgoing → Turn → Prop where
  | done {w : World} {now : Instant} {handed : List Outgoing} {e : Engine} {reply : Reply}
      (h : result handed reply) : Completes during result w now handed (.done e reply)
  | send {w : World} {now : Instant} {handed : List Outgoing} {e : Engine} {destination : Address}
      {packet : Bytes} {rest : Sending}
      (hduring : ∀ w', Others { w with engine := e } w' → during w'.engine)
      (hsent : ∀ w' answer, Others { w with engine := e } w' →
        Completes during result w' now (handed ++ [(destination, packet)])
          (w'.engine.sent now answer rest)) :
    Completes during result w now handed (.send e destination packet rest)
  | sleep {w : World} {now : Instant} {handed : List Outgoing} {e : Engine} {ms : UInt32}
      {rest : Sleeping} (hduring : ∀ w', Others { w with engine := e } w' → during w'.engine)
      (hwoken : ∀ w' (later : Instant), Others { w with engine := e } w' →
        later.toNat = now.toNat + ms.toNat →
        Completes during result w' later handed (w'.engine.woken later rest)) :
    Completes during result w now handed (.sleep e ms rest)

theorem World.Completes.imp {during : Engine → Prop}
    {result result' : List Outgoing → Reply → Prop} {w : World} {now : Instant}
    {handed : List Outgoing} {turn : Turn} (h : Completes during result w now handed turn)
    (hresult : ∀ handed reply, result handed reply → result' handed reply) :
    Completes during result' w now handed turn := by
  induction h with
  | done h => exact .done (hresult _ _ h)
  | send hduring _ ih => exact .send hduring ih
  | sleep hduring _ ih => exact .sleep hduring ih

/-! ## The engine while a blocking session runs -/

/-- The engine runs the session `s`, which started at `start` and has tried `n` echoes.  Each of
these has been counted once or is in flight, and only those in `echoes` can be so. -/
structure Engine.Underway (s : Ping.Session) (start : Instant) (n : Nat)
    (echoes : List PendingEcho) (e : Engine) : Prop where
  session : e.session = some s
  startTime : e.statistics.startTime = start
  sent : e.statistics.sent.toNat = n
  settled : e.statistics.received.toNat + e.statistics.lost.toNat + e.statistics.errors.toNat +
    e.pending.count = n
  inFlight : e.pending.entries.Subperm echoes
  own : ∀ p ∈ echoes, p.key.identifier = s.identifier

namespace Engine.Underway

variable {s : Ping.Session} {start now : Instant} {n : Nat} {echoes : List PendingEcho}
  {e e' : Engine} {key : EchoKey} {p : PendingEcho} {pending : PendingTable}

theorem owned (h : Underway s start n echoes e) :
    ∀ p ∈ e.pending.entries, e.owns p.key.identifier :=
  fun p hp => (owns_iff_of_session h.session _).2 (h.own p (h.inFlight.subset hp)).symm

theorem count_le (h : Underway s start n echoes e) : e.pending.count ≤ echoes.length := by
  rw [PendingTable.count_eq]
  exact h.inFlight.length_le

theorem sent_lt (h : Underway s start n echoes e) : n < 4294967296 :=
  h.sent ▸ e.statistics.sent.toNat_lt

theorem sweep (h : Underway s start n echoes e) (now : Instant) :
    Underway s start n echoes (e.sweep now) := by
  obtain ⟨timeouts, journal, heq⟩ := e.sweep_eq now
  obtain ⟨lost, hlost, hcount⟩ :=
    e.statistics.iterate_recordLost (e.owned (e.pending.sweep now).2)
  have howned : e.owned (e.pending.sweep now).2 = (e.pending.sweep now).2.length :=
    owned_eq_length h.owned _
  have hremove : e.pending.count = (e.pending.sweep now).1.count + (e.pending.sweep now).2.length :=
    e.pending.count_remove (·.isExpired now)
  have hentries : (e.pending.sweep now).1.entries.Subperm e.pending.entries :=
    e.pending.subperm_remove _
  have hsettled := h.settled
  have hlt := h.sent_lt
  rw [heq, hlost]
  refine ⟨h.session, h.startTime, h.sent, ?_, hentries.trans h.inFlight, h.own⟩
  dsimp only
  omega

theorem reply (h : Underway s start n echoes e) (rtt : UInt32)
    (htake : e.pending.take? key = some (p, pending)) :
    Underway s start n echoes ({ e with pending }.recordReply key.identifier rtt) := by
  have howns : ({ e with pending } : Engine).owns key.identifier := owns_of_take? h.owned htake
  have hcount := PendingTable.count_of_take? htake
  obtain ⟨received, _, _, _, hs, hreceived⟩ := e.statistics.recordReply_eq rtt
  have hsettled := h.settled
  have hlt := h.sent_lt
  rw [recordReply_eq, if_pos howns, hs]
  refine ⟨h.session, h.startTime, h.sent, ?_,
    (PendingTable.subperm_of_take? htake).trans h.inFlight, h.own⟩
  dsimp only
  omega

theorem fail (h : Underway s start n echoes e)
    (htake : e.pending.take? key = some (p, pending)) :
    Underway s start n echoes ({ e with pending }.recordError key.identifier) := by
  have howns : ({ e with pending } : Engine).owns key.identifier := owns_of_take? h.owned htake
  have hcount := PendingTable.count_of_take? htake
  obtain ⟨errors, hs, herrors⟩ := e.statistics.recordError_eq
  have hsettled := h.settled
  have hlt := h.sent_lt
  rw [recordError_eq, if_pos howns, hs]
  refine ⟨h.session, h.startTime, h.sent, ?_,
    (PendingTable.subperm_of_take? htake).trans h.inFlight, h.own⟩
  dsimp only
  omega

theorem begun (hempty : e.pending.entries = []) (note : Note) :
    Underway s s.nextSendAt 0 [] ((e.begun s).note note) := by
  have hentries : ((e.begun s).note note).pending.entries = [] := hempty
  refine ⟨rfl, rfl, rfl, ?_, ?_, nofun⟩
  · rw [PendingTable.count_eq_zero_iff.2 hentries]
    rfl
  · rw [hentries]

/-- Settling an echo moves it from the table into one of the counts. -/
theorem settles (h : Underway s start n echoes e) (hs : Settles e e') :
    Underway s start n echoes e' := by
  induction hs with
  | refl => exact h
  | idle hs counters journal ih =>
    exact ⟨ih.session, ih.startTime, ih.sent, ih.settled, ih.inFlight, ih.own⟩
  | sweep hs now ih => exact ih.sweep now
  | reply hs rtt htake ih => exact ih.reply rtt htake
  | fail hs htake ih => exact ih.fail htake

theorem of_count_eq_zero (h : Underway s start n echoes e) (hcount : e.pending.count = 0) :
    Underway s start n [] e := by
  refine ⟨h.session, h.startTime, h.sent, h.settled, ?_, nofun⟩
  rw [PendingTable.count_eq_zero_iff.1 hcount]

/-- The table has a slot for the next echo. -/
theorem register (h : Underway s start n [] e) (hn : n < 0xFFFFFFFF) (now : Instant)
    (timeout : UInt32) (hkey : key.identifier = s.identifier) :
    ∃ e', e.register now key timeout = .ok e' ∧
      Underway s start (n + 1) [⟨key, now, timeout⟩] e' := by
  have hcount : e.pending.count = 0 := Nat.le_zero.1 h.count_le
  cases hregister : e.register now key timeout with
  | error cause =>
    have hfull := count_of_register_error hregister
    rw [hcount] at hfull
    cases hfull
  | ok e' =>
    obtain ⟨pending, hallocate, rfl⟩ := register_eq_ok hregister
    obtain ⟨sent, hs, hsent⟩ := e.statistics.recordSent_eq
    have hpending := PendingTable.count_of_allocate hallocate
    have hentries : e.pending.entries = [] := PendingTable.count_eq_zero_iff.1 hcount
    have hsettled := h.settled
    have hn' := h.sent
    refine ⟨_, rfl, ?_⟩
    rw [hs]
    refine ⟨h.session, h.startTime, ?_, ?_, ?_, ?_⟩
    · dsimp only
      omega
    · dsimp only
      omega
    · have hperm := PendingTable.perm_entries_of_allocate hallocate
      rw [hentries] at hperm
      exact hperm.subperm
    · intro p hp
      rw [List.mem_singleton.1 hp]
      exact hkey

/-- An echo that was not sent is no longer in flight. -/
theorem dropEcho (h : Underway s start n [p] e) (cause : Error) :
    Underway s start n [] (e.dropEcho p.key cause) := by
  refine (h.settles (Settles.refl.dropEcho p.key cause)).of_count_eq_zero ?_
  have hle : e.pending.count ≤ 1 := h.count_le
  simp only [Engine.dropEcho, Engine.note]
  split
  · rename_i q pending htake
    have hcount : e.pending.count = pending.count + 1 := PendingTable.count_of_take? htake
    rw [recordError_eq]
    show pending.count = 0
    omega
  · rename_i htake
    refine PendingTable.count_eq_zero_iff.2 (List.eq_nil_iff_forall_not_mem.2 fun q hq => ?_)
    have hq' := List.mem_singleton.1 (h.inFlight.subset hq)
    exact PendingTable.take?_eq_none_iff.1 htake q hq (by rw [hq'])

/-- With nothing in flight the end of the session loses nothing. -/
theorem statistics_endSession (h : Underway s start n [] e) (now : Instant) :
    (e.endSession now s.identifier).statistics = e.statistics.finish now := by
  have howns : e.owns s.identifier := (owns_iff_of_session h.session _).2 rfl
  have hempty : (e.pending.removeIdentifier s.identifier).2.length = 0 := by
    have hcount := e.pending.count_remove (·.key.identifier = s.identifier)
    have hle : e.pending.count ≤ 0 := h.count_le
    rw [PendingTable.removeIdentifier]
    omega
  rw [endSession, if_pos howns, finishSession_of_some h.session, hempty]
  rfl

/-- Others leave the session as it is, and settle some of its echoes. -/
theorem of_others {w w' : World} (h : Underway s start n echoes e) (hmode : s.mode = .blocking)
    (hw : w.OnlyMessages) (hothers : World.Others { w with engine := e } w') :
    Underway s start n echoes w'.engine ∧ w'.OnlyMessages := by
  obtain ⟨hsettles, hw'⟩ := hothers.settles h.session hmode hw
  exact ⟨h.settles hsettles, hw'⟩

end Engine.Underway

theorem Ping.Config.count_normalized_pos (config : Ping.Config) :
    0 < config.normalized.count.toNat := by
  simp only [normalized]
  split_ifs with hcount
  · decide
  · exact Nat.pos_of_ne_zero fun h => hcount (UInt32.toNat_inj.1 h)

theorem Ping.Config.pollInterval_normalized_pos (config : Ping.Config) :
    0 < config.normalized.pollInterval.toNat := by
  simp only [normalized]
  split_ifs with hpoll
  · decide
  · exact Nat.pos_of_ne_zero fun h => hpoll (UInt32.toNat_inj.1 h)

namespace Engine

variable {e e' : Engine} {run : Run}

theorem await_eq (e : Engine) (t : Clock) (run : Run) :
    e.await t run =
      if (e.sweep t.now).pending.contains run.key then
        .sleep (e.sweep t.now) run.config.pollInterval (.awaiting run)
      else (e.sweep t.now).proceed t.later run :=
  rfl

theorem attempt_of_register {t : Clock} (howns : e.owns run.identifier)
    (h : e.register t.now run.key run.config.timeout = .ok e') :
    e.attempt t run =
      .send e' run.destination (echoPacket run.key run.config) (.pinged run) := by
  rw [attempt, if_pos howns, h]

end Engine

/-! ## The run of a session -/

/-- Every echo is in one of the counts, and none was waited for longer than it may be. -/
structure Ping.Statistics.AccountFor (stats : Ping.Statistics) (config : Ping.Config)
    (start : Instant) : Prop where
  sent : stats.sent = config.count
  settled : stats.received.toNat + stats.lost.toNat + stats.errors.toNat = config.count.toNat
  startTime : stats.startTime = start
  startTime_le : stats.startTime ≤ stats.endTime
  endTime_le : stats.endTime.toNat ≤ stats.startTime.toNat +
    config.count.toNat * (config.timeout.toNat + config.pollInterval.toNat) +
    (config.count.toNat - 1) * config.interval.toNat

namespace Ping.Session

/-- The packets of the first `n` echoes. -/
def outgoing (s : Ping.Session) (n : Nat) : List Outgoing :=
  (List.range n).map fun i => (s.destination,
    Engine.echoPacket ⟨s.destination, s.identifier, UInt16.ofNat i⟩ s.config)

/-- The run at its `i`th echo. -/
def runAt (s : Ping.Session) (i : Nat) : Run :=
  ⟨s.destination, s.identifier, s.config, UInt16.ofNat i, s.config.count.toNat - 1 - i⟩

/-- How long it takes at most until an echo is settled. -/
def wait (s : Ping.Session) : Nat := s.config.timeout.toNat + s.config.pollInterval.toNat

/-- When the `i`th echo is tried at the latest. -/
def dueBy (s : Ping.Session) (start : Instant) (i : Nat) : Nat :=
  start.toNat + i * (s.wait + s.config.interval.toNat)

variable (s : Ping.Session) (start : Instant) (i : Nat)

theorem next_runAt : (s.runAt i).next = s.runAt (i + 1) := by
  simp only [runAt, Run.next, UInt16.ofNat_add, Nat.sub_sub]
  rfl

theorem outgoing_succ : s.outgoing (i + 1) = s.outgoing i ++
    [((s.runAt i).destination, Engine.echoPacket (s.runAt i).key (s.runAt i).config)] := by
  rw [outgoing, List.range_succ, List.map_append]
  rfl

/-- The packets say which echoes they are. -/
theorem decode_outgoing {n : Nat} {sent : Outgoing} (h : (s.outgoing n)[i]? = some sent) :
    Message.decode sent.2 = .ok (.echoRequest ⟨s.identifier, UInt16.ofNat i,
      Packet.filler s.config.payloadSize.toNat⟩) := by
  rw [outgoing, List.getElem?_map] at h
  obtain ⟨k, hk, rfl⟩ := Option.map_eq_some_iff.1 h
  obtain ⟨-, rfl⟩ := List.getElem?_eq_some_iff.1 hk
  rw [List.getElem_range]
  exact Packet.decode_echo .request _

theorem dueBy_succ :
    s.dueBy start (i + 1) = s.dueBy start i + s.wait + s.config.interval.toNat := by
  simp only [dueBy]
  ring

end Ping.Session

/-- The first echo of a blocking ping is tried at once. -/
theorem Engine.pingWith_of_idle {e : Engine} {config : Ping.Config} (hready : e.ready)
    (hidle : e.session = none) (hsize : config.payloadSize.toNat ≤ maxEchoData)
    (destination : Address) (t : Clock) :
    let s : Ping.Session :=
      ⟨.blocking, destination, e.takeIdentifier.2, 0, config.normalized, t.now⟩
    e.pingWith t destination config =
      ((e.begun s).note (.blockingStarted destination s.config)).attempt t.later (s.runAt 0) := by
  have hfits : ¬ config.normalized.payloadSize.toNat > maxEchoData := Nat.not_lt.2 hsize
  intro s
  rw [pingWith, if_neg hfits]
  simp only [beginSession_of_idle hready hidle]
  rfl

namespace World

variable {s : Ping.Session} {start : Instant} {i : Nat} {w : World} {e : Engine} {now : Instant}

/-- The call that runs the session `s` comes to its end from this turn on. -/
abbrev EndsWell (s : Ping.Session) (start : Instant) (w : World) (now : Instant) (n : Nat)
    (turn : Turn) : Prop :=
  Completes (fun e => e.pending.count ≤ 1)
    (fun handed reply => handed = s.outgoing s.config.count.toNat ∧
      ∃ stats, reply = .ok (some stats) ∧ stats.AccountFor s.config start)
    w now (s.outgoing n) turn

/-- The call comes to its end if it is at the `i`th echo, in time for that, and the echoes before
are settled. -/
def EndsWellFrom (s : Ping.Session) (start : Instant) (i : Nat) : Prop :=
  ∀ (w : World) (e : Engine) (now : Instant), w.OnlyMessages → e.Underway s start i [] →
    start.toNat ≤ now.toNat → now.toNat ≤ s.dueBy start i →
      EndsWell s start w now i (e.attempt now (s.runAt i))

theorem accountFor_finish (h : e.Underway s start (i + 1) [])
    (hlast : i + 1 = s.config.count.toNat) (hstart : start.toNat ≤ now.toNat)
    (hnow : now.toNat ≤ s.dueBy start i + s.wait) :
    (e.statistics.finish now).AccountFor s.config start where
  sent := UInt32.toNat_inj.1 (h.sent.trans hlast)
  settled := by
    have hsettled := h.settled
    have hcount : e.pending.count ≤ 0 := h.count_le
    show e.statistics.received.toNat + e.statistics.lost.toNat + e.statistics.errors.toNat = _
    omega
  startTime := h.startTime
  startTime_le := by
    show e.statistics.startTime ≤ now
    rw [h.startTime, UInt64.le_iff_toNat_le]
    exact hstart
  endTime_le := by
    show now.toNat ≤ e.statistics.startTime.toNat + _ + _
    rw [h.startTime, ← hlast, Nat.add_sub_cancel]
    calc now.toNat ≤ s.dueBy start i + s.wait := hnow
      _ = _ := by simp only [Ping.Session.dueBy, Ping.Session.wait]; ring

theorem endsWell_conclude (h : e.Underway s start (i + 1) [])
    (hlast : i + 1 = s.config.count.toNat) (hstart : start.toNat ≤ now.toNat)
    (hnow : now.toNat ≤ s.dueBy start i + s.wait) :
    EndsWell s start w now (i + 1) (e.conclude now (s.runAt i)) := by
  have hreply : e.conclude now (s.runAt i) = .done (e.endSession now s.identifier).summarize
      (.ok (some (e.statistics.finish now))) := by
    rw [← h.statistics_endSession now]
    rfl
  rw [hreply]
  exact .done ⟨by rw [hlast], _, rfl, accountFor_finish h hlast hstart hnow⟩

/-- It is enough to go on well from wherever others leave the session. -/
theorem endsWell_sleep {n : Nat} {echoes : List PendingEcho} {ms : UInt32} {rest : Sleeping}
    (hmode : s.mode = .blocking) (hw : w.OnlyMessages) (h : e.Underway s start n echoes)
    (hone : echoes.length ≤ 1)
    (hwoken : ∀ (w' : World) (later : Instant), w'.OnlyMessages →
      w'.engine.Underway s start n echoes → later.toNat = now.toNat + ms.toNat →
      EndsWell s start w' later n (w'.engine.woken later rest)) :
    EndsWell s start w now n (.sleep e ms rest) := by
  refine .sleep (fun w' hothers => ?_) fun w' later hothers hlater => ?_
  · exact Nat.le_trans (h.of_others hmode hw hothers).1.count_le hone
  · obtain ⟨h', hw'⟩ := h.of_others hmode hw hothers
    exact hwoken w' later hw' h' hlater

/-- After an echo comes the next one, or the end. -/
theorem endsWell_proceed (hmode : s.mode = .blocking)
    (hnext : i + 1 < s.config.count.toNat → EndsWellFrom s start (i + 1))
    (hi : i < s.config.count.toNat) (hw : w.OnlyMessages) (h : e.Underway s start (i + 1) [])
    (hstart : start.toNat ≤ now.toNat) (hnow : now.toNat ≤ s.dueBy start i + s.wait) :
    EndsWell s start w now (i + 1) (e.proceed now (s.runAt i)) := by
  have hdue := s.dueBy_succ start i
  rw [Engine.proceed, s.next_runAt]
  split_ifs with hleft hinterval
  · have hlast : s.config.count.toNat - 1 - i = 0 := hleft
    exact endsWell_conclude h (by omega) hstart hnow
  · have hleft : s.config.count.toNat - 1 - i ≠ 0 := hleft
    exact hnext (by omega) w e now hw h hstart (by omega)
  · have hleft : s.config.count.toNat - 1 - i ≠ 0 := hleft
    refine endsWell_sleep hmode hw h (Nat.zero_le 1) fun w' later hw' h' hlater => ?_
    have hlater' : later.toNat = now.toNat + s.config.interval.toNat := hlater
    exact hnext (by omega) w' w'.engine later hw' h' (by omega) (by omega)

/-- An echo is waited for until it is settled, at the latest when it has expired. -/
theorem endsWell_await (hmode : s.mode = .blocking) (hpoll : 0 < s.config.pollInterval.toNat)
    (hnext : i + 1 < s.config.count.toNat → EndsWellFrom s start (i + 1))
    (hi : i < s.config.count.toNat) {sentAt : Instant} (hdue : sentAt.toNat ≤ s.dueBy start i)
    (hw : w.OnlyMessages)
    (h : e.Underway s start (i + 1) [⟨(s.runAt i).key, sentAt, s.config.timeout⟩])
    (hstart : start.toNat ≤ now.toNat) (hnow : now.toNat ≤ sentAt.toNat + s.wait) :
    EndsWell s start w now (i + 1) (e.await now (s.runAt i)) := by
  -- Each time it is found in flight there is less time until it expires.
  induction hleft : sentAt.toNat + s.config.timeout.toNat + 1 - now.toNat
    using Nat.strongRecOn generalizing w e now with
  | _ left ih =>
  subst hleft
  have hsweep := h.sweep now
  have hawait : e.await now (s.runAt i) = if (e.sweep now).pending.contains (s.runAt i).key then
      .sleep (e.sweep now) s.config.pollInterval (.awaiting (s.runAt i))
      else (e.sweep now).proceed now (s.runAt i) := e.await_eq now (s.runAt i)
  rw [hawait]
  by_cases hcontains : (e.sweep now).pending.contains (s.runAt i).key
  · have hexpired : now.toNat ≤ sentAt.toNat + s.config.timeout.toNat := by
      obtain ⟨p, hp, -⟩ := PendingTable.contains_iff.1 hcontains
      have heq := List.mem_singleton.1 (hsweep.inFlight.subset hp)
      rw [Engine.pending_sweep] at hp
      have hnot := (PendingTable.mem_entries_remove.1 hp).2
      rw [heq] at hnot
      exact PendingEcho.isExpired_eq_false_iff.1 hnot
    rw [if_pos hcontains]
    refine endsWell_sleep hmode hw hsweep (Nat.le_refl 1) fun w' later hw' h' hlater => ?_
    have hlater' : later.toNat = now.toNat + s.config.pollInterval.toNat := hlater
    have hwait : later.toNat ≤ sentAt.toNat + s.wait := by
      rw [Ping.Session.wait]
      omega
    exact ih _ (by omega) hw' h' (by omega) hwait rfl
  · have hcount : (e.sweep now).pending.count = 0 := by
      refine PendingTable.count_eq_zero_iff.2
        (List.eq_nil_iff_forall_not_mem.2 fun p hp => hcontains ?_)
      refine PendingTable.contains_iff.2 ⟨p, hp, ?_⟩
      rw [List.mem_singleton.1 (hsweep.inFlight.subset hp)]
    rw [if_neg hcontains]
    exact endsWell_proceed hmode hnext hi hw (hsweep.of_count_eq_zero hcount) hstart (by omega)

theorem endsWell_attempt (hmode : s.mode = .blocking) (hpoll : 0 < s.config.pollInterval.toNat)
    (hi : i < s.config.count.toNat) : EndsWellFrom s start i := by
  -- The echoes are tried one after the other, so there are fewer to come.
  induction hleft : s.config.count.toNat - i generalizing i with
  | zero => omega
  | succ left ih =>
  have hnext : i + 1 < s.config.count.toNat → EndsWellFrom s start (i + 1) :=
    fun hi' => ih hi' (by omega)
  have hcount := s.config.count.toNat_lt
  intro w e now hw h hstart hnow
  have howns : e.owns (s.runAt i).identifier := (e.owns_iff_of_session h.session _).2 rfl
  obtain ⟨e₁, hregister, h₁⟩ :=
    h.register (by omega) now s.config.timeout (show (s.runAt i).key.identifier = _ from rfl)
  rw [Engine.attempt_of_register (t := .still now) howns hregister]
  refine .send (fun w' hothers => ?_) fun w' answer hothers => ?_
  · exact (h₁.of_others hmode hw hothers).1.count_le
  · obtain ⟨h₂, hw'⟩ := h₁.of_others hmode hw hothers
    rw [← s.outgoing_succ]
    cases answer with
    | ok _ =>
      exact endsWell_await hmode hpoll hnext hi hnow hw' (h₂.settles (Settles.refl.count _)) hstart
        (by omega)
    | error cause =>
      exact endsWell_proceed hmode hnext hi hw' (h₂.dropEcho cause) hstart (by omega)

/-- A blocking ping, made when no session runs, comes to its end.  It has handed over its echoes in
order, which is what the packets say, never had more than one in flight, and returns statistics that
account for every one. -/
theorem completes_pingWith {settings config : Ping.Config} {w : World}
    (h : Reach settings (fun _ => True) w) (hready : w.engine.ready)
    (hidle : w.engine.session = none) (hsize : config.payloadSize.toNat ≤ maxEchoData)
    (destination : Address) (now : Instant) :
    Completes (fun e => e.pending.count ≤ 1)
      (fun handed reply =>
        handed = (List.range config.normalized.count.toNat).map (fun i => (destination,
          Engine.echoPacket ⟨destination, w.engine.takeIdentifier.2, UInt16.ofNat i⟩
            config.normalized)) ∧
        (∀ (i : Nat) (sent : Outgoing), handed[i]? = some sent → Message.decode sent.2 =
          .ok (.echoRequest ⟨w.engine.takeIdentifier.2, UInt16.ofNat i,
            Packet.filler config.normalized.payloadSize.toNat⟩)) ∧
        ∃ stats, reply = .ok (some stats) ∧ stats.AccountFor config.normalized now)
      { w with frames := [] } now [] (w.engine.start now (.pingWith destination config)) := by
  let s : Ping.Session :=
    ⟨.blocking, destination, w.engine.takeIdentifier.2, 0, config.normalized, now⟩
  have hstart : w.engine.start now (.pingWith destination config) =
      ((w.engine.begun s).note (.blockingStarted destination s.config)).attempt now
        (s.runAt 0) :=
    Engine.pingWith_of_idle hready hidle hsize destination now
  have hunderway : ((w.engine.begun s).note (.blockingStarted destination s.config)).Underway s
      now 0 [] :=
    Engine.Underway.begun (h.conserves.entries_of_idle hidle) _
  have hdue : now.toNat ≤ s.dueBy now 0 := by
    rw [Ping.Session.dueBy]
    omega
  have hnone : OnlyMessages { w with frames := [] } := fun f hf => absurd hf List.not_mem_nil
  rw [hstart]
  refine (endsWell_attempt rfl config.pollInterval_normalized_pos config.count_normalized_pos _ _
    now hnone hunderway (Nat.le_refl _) hdue).imp fun handed reply hresult => ?_
  obtain ⟨rfl, hstats⟩ := hresult
  exact ⟨rfl, fun i sent => s.decode_outgoing i, hstats⟩

/-- Two echoes without a pause between them, on an engine made ready just before. -/
theorem completes_two_echoes :
    let host : Address := ⟨10, 0, 2, 2⟩
    let config : Ping.Config := { Ping.Config.quick with count := 2 }
    let w : World := ({ engine := .new {} } : World).call .init (.still 7)
    Completes (fun e => e.pending.count ≤ 1)
      (fun handed reply =>
        handed = (List.range 2).map
          (fun i => (host, Engine.echoPacket ⟨host, 38348, UInt16.ofNat i⟩ config)) ∧
        (∀ (i : Nat) (sent : Outgoing), handed[i]? = some sent → Message.decode sent.2 =
          .ok (.echoRequest ⟨38348, UInt16.ofNat i, Packet.filler config.payloadSize.toNat⟩)) ∧
        ∃ stats, reply = .ok (some stats) ∧ stats.AccountFor config 7)
      w 7 [] (w.engine.start (7 : Instant) (.pingWith host config)) := by
  intro host config w
  have hreach : Reach {} (fun _ => True) w := .step .new (.call _ .init _) trivial
  have hsize : config.payloadSize.toNat ≤ maxEchoData := by decide
  have hnormal : config.normalized = config := by decide
  have hidentifier : w.engine.takeIdentifier.2 = 38348 := by decide
  have hcompletes := completes_pingWith hreach rfl rfl hsize host 7
  rw [hnormal, hidentifier] at hcompletes
  exact hcompletes

end World

end NetHost.Icmp
