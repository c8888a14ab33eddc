import Mathlib.Tactic.Common
import NetHost.Proofs.Icmp.BlockingPing
import NetHost.Proofs.Icmp.Quoting
import NetHost.Proofs.Icmp.Timed

/-!
# Pings over a loopback

A loopback hands every packet straight back, as if it came from where it was to go.  The engine then
answers its own echo requests while it is still sending them.

* `Loopback` has the calls that are made in this way, one inside the other.  They come to an end
  whatever the packet (`loopback_input`).
* An echo of a session goes round and is counted as received before the call that sent it goes on
  (`Loopback.roundTrip`), so every ping is answered (`pings_answered`), as long as a round takes no
  longer than an echo is waited for.
-/

namespace NetHost.Icmp

open Ipv4 (Address)

/-! ## Calls over a loopback -/

/-- A call that stands at `turn`, and has handed over the packets `handed`, comes to an end over a
loopback with a `result`.  Each packet comes in while the call that sent it waits; `waiting` are the
calls that do, the innermost first.  `reads now` has what the clock may read during a round, which
began at `now`: until the outermost call goes on, or its caller sleeps.  Then a new round begins,
at any time. -/
inductive Loopback (reads : Instant → Clock → Prop)
    (result : List Outgoing → Engine → Reply → Prop) :
    List Sending → List Outgoing → Instant → Turn → Prop where
  | done {handed : List Outgoing} {now : Instant} {e : Engine} {reply : Reply}
      (h : result handed e reply) : Loopback reads result [] handed now (.done e reply)
  /-- The packet has been taken in, so it has been sent. -/
  | back {rest next : Sending} {waiting : List Sending} {handed : List Outgoing} {now : Instant}
      {e : Engine} {reply : Reply}
      (h : ∀ t, reads now t →
        Loopback reads result (next :: waiting) handed now (e.sent t (.ok ()) rest)) :
    Loopback reads result (rest :: next :: waiting) handed now (.done e reply)
  | backToFirst {rest : Sending} {handed : List Outgoing} {now : Instant} {e : Engine}
      {reply : Reply}
      (h : ∀ later t, reads later t →
        Loopback reads result [] handed later (e.sent t (.ok ()) rest)) :
    Loopback reads result [rest] handed now (.done e reply)
  | send {rest : Sending} {waiting : List Sending} {handed : List Outgoing} {now : Instant}
      {e : Engine} {destination : Address} {packet : Bytes}
      (h : ∀ t, reads now t →
        Loopback reads result (rest :: waiting) (handed ++ [(destination, packet)]) now
          (e.input t destination packet)) :
    Loopback reads result waiting handed now (.send e destination packet rest)
  | sleep {rest : Sleeping} {waiting : List Sending} {handed : List Outgoing} {now : Instant}
      {e : Engine} {ms : UInt32}
      (h : ∀ later t, reads later t →
        Loopback reads result waiting handed later (e.woken t rest)) :
    Loopback reads result waiting handed now (.sleep e ms rest)

/-- The clock goes forward from `now`, by `bound` milliseconds at most.  So it stands still if that
is zero. -/
def Within (bound : UInt32) (now : Instant) (t : Clock) : Prop :=
  ∃ last, t.Runs now last ∧ last.toNat ≤ now.toNat + bound.toNat

namespace Within

variable {bound : UInt32} {now : Instant} {t : Clock}

theorem le (h : Within bound now t) : now ≤ t.now := by
  obtain ⟨last, hruns, -⟩ := h
  exact hruns.first_le

theorem toNat_le (h : Within bound now t) : t.now.toNat ≤ now.toNat + bound.toNat := by
  obtain ⟨last, hruns, hlast⟩ := h
  exact Nat.le_trans (UInt64.le_iff_toNat_le.1 (hruns.le_last 0)) hlast

theorem now_le_later (h : Within bound now t) : t.now ≤ t.later.now := by
  obtain ⟨last, hruns, -⟩ := h
  exact hruns.mono 0

theorem later (h : Within bound now t) : Within bound now t.later := by
  obtain ⟨last, hruns, hlast⟩ := h
  exact ⟨last, ⟨UInt64.le_trans hruns.first_le (hruns.mono 0), fun n => hruns.mono (n + 1),
    fun n => hruns.le_last (n + 1)⟩, hlast⟩

end Within

section

variable {reads : Instant → Clock → Prop} {result : List Outgoing → Engine → Reply → Prop}
  {waiting : List Sending} {handed : List Outgoing} {e : Engine} {t : Clock} {now : Instant}
  {source : Address} {packet : Bytes}

theorem input_request (hready : e.ready) {echo : Echo}
    (hdecode : Message.decode packet = .ok (.echoRequest echo))
    (hsize : echo.payload.length ≤ maxPayload) (t : Clock) (source : Address) :
    ∃ counters, e.input t source packet =
      .send { e with counters } source (Packet.echo .echoReply echo)
        (.message .echoReply source) := by
  simp only [Engine.input, hdecode, Engine.sendReply, Engine.sendEcho, hready,
    Bool.not_true, Bool.false_eq_true, if_false, if_neg (Nat.not_lt.2 hsize)]
  exact ⟨_, rfl⟩

theorem done_of_not_request (e : Engine) (t : Clock) (source : Address)
    (hother : ∀ echo, Message.decode packet = .ok (.echoRequest echo) →
      maxPayload < echo.payload.length) :
    ∃ e' reply, e.input t source packet = .done e' reply := by
  unfold Engine.input
  split_ifs
  · exact ⟨_, _, rfl⟩
  · dsimp only
    split
    · exact ⟨_, _, rfl⟩
    · unfold Engine.sendReply Engine.sendEcho
      split_ifs with hready hsize
      · exact ⟨_, _, rfl⟩
      · exact ⟨_, _, rfl⟩
      · exact absurd (hother _ ‹_›) hsize
    · exact ⟨_, _, rfl⟩
    · exact ⟨_, _, rfl⟩
    · exact ⟨_, _, rfl⟩
    · exact ⟨_, _, rfl⟩

/-- An echo request is answered, and nothing else is. -/
theorem input_cases (e : Engine) (t : Clock) (source : Address) (packet : Bytes) :
    (∃ e' reply, e.input t source packet = .done e' reply) ∨
      ∃ e' echo, e.input t source packet =
        .send e' source (Packet.echo .echoReply echo) (.message .echoReply source) := by
  by_cases hready : e.ready
  · by_cases hrequest : ∃ echo, Message.decode packet = .ok (.echoRequest echo) ∧
        echo.payload.length ≤ maxPayload
    · obtain ⟨echo, hdecode, hsize⟩ := hrequest
      obtain ⟨counters, h⟩ := input_request hready hdecode hsize t source
      exact .inr ⟨_, echo, h⟩
    · exact .inl (done_of_not_request e t source fun echo hdecode =>
        Nat.lt_of_not_le fun hsize => hrequest ⟨echo, hdecode, hsize⟩)
  · exact .inl ⟨_, _, Engine.input_of_not_ready hready t source packet⟩

theorem done_of_reply (e : Engine) (t : Clock) (source : Address) (echo : Echo) :
    ∃ e' reply, e.input t source (Packet.echo .echoReply echo) = .done e' reply := by
  refine done_of_not_request e t source fun request hdecode => ?_
  rw [Packet.decode_echo .reply] at hdecode
  cases hdecode

/-- Whatever comes in, the answer to it comes back, and that is not answered. -/
theorem loopback_input (hresult : ∀ handed e reply, result handed e reply) (e : Engine)
    (t : Clock) (source : Address) (packet : Bytes) :
    Loopback reads result [] handed now (e.input t source packet) := by
  rcases input_cases e t source packet with ⟨e₁, reply₁, h⟩ | ⟨e₁, echo, h⟩
  · rw [h]
    exact .done (hresult _ _ _)
  · rw [h]
    refine .send fun t₂ _ => ?_
    obtain ⟨e₂, reply₂, h₂⟩ := done_of_reply e₁ t₂ source echo
    rw [h₂]
    exact .backToFirst fun later t₃ _ => .done (hresult _ _ _)

end

/-! ## Echoes that are answered -/

/-- All of `n` echoes were answered, none of them later than after `bound` milliseconds.  The counts
stop at their largest value. -/
structure Ping.Statistics.AnsweredWithin (bound : UInt32) (n : Nat) (s : Statistics) : Prop where
  sent : s.sent.toNat = min n 0xFFFFFFFF
  received : s.received = s.sent
  lost : s.lost = 0
  errors : s.errors = 0
  rttMin : s.rttMin ≤ bound
  rttMax : s.rttMax ≤ bound
  rttSum : s.rttSum.toNat ≤ n * bound.toNat

namespace Ping.Statistics.AnsweredWithin

variable {s : Statistics} {bound trip : UInt32} {n : Nat}

theorem start (destination : Address) (now : Instant) :
    (Statistics.start destination now).AnsweredWithin bound 0 :=
  ⟨rfl, rfl, rfl, rfl, UInt32.zero_le, UInt32.zero_le, Nat.zero_le _⟩

theorem finish (h : s.AnsweredWithin bound n) (now : Instant) :
    (s.finish now).AnsweredWithin bound n :=
  ⟨h.sent, h.received, h.lost, h.errors, h.rttMin, h.rttMax, h.rttSum⟩

theorem recordReply (h : s.AnsweredWithin bound n) (htrip : trip ≤ bound) :
    (s.recordSent.recordReply trip).AnsweredWithin bound (n + 1) := by
  have hsent := Saturating.toNat_add32_one s.sent
  have hn := h.sent
  have hmin : (if s.received = 0 ∨ trip < s.rttMin then trip else s.rttMin) ≤ bound := by
    split_ifs
    · exact htrip
    · exact h.rttMin
  have hmax : (if s.rttMax < trip then trip else s.rttMax) ≤ bound := by
    split_ifs
    · exact htrip
    · exact h.rttMax
  have hsum : (Saturating.add64 s.rttSum trip.toUInt64).toNat ≤ (n + 1) * bound.toNat := by
    have hle := h.rttSum
    have htrip' := UInt32.le_iff_toNat_le.1 htrip
    rw [Saturating.toNat_add64, UInt32.toNat_toUInt64, Nat.succ_mul]
    omega
  simp only [Statistics.recordReply, recordSent, h.received]
  rw [h.received] at hmin
  refine ⟨?_, rfl, h.lost, h.errors, hmin, hmax, hsum⟩
  dsimp only
  omega

/-- If no time goes by, none of the answers took any. -/
theorem atOnce (h : s.AnsweredWithin 0 n) : s.rttMin = 0 ∧ s.rttMax = 0 ∧ s.rttSum = 0 := by
  have hsum := h.rttSum
  rw [UInt32.toNat_zero, Nat.mul_zero] at hsum
  exact ⟨UInt32.le_zero_iff.1 h.rttMin, UInt32.le_zero_iff.1 h.rttMax,
    UInt64.toNat_inj.1 (Nat.le_zero.1 hsum)⟩

end Ping.Statistics.AnsweredWithin

/-- The engine runs the session `s`, which has had `n` echoes, all of them answered in time. -/
structure Engine.Answered (bound : UInt32) (s : Ping.Session) (n : Nat) (e : Engine) : Prop where
  ready : e.ready
  session : e.session = some s
  entries : e.pending.entries = []
  statistics : e.statistics.AnsweredWithin bound n

/-- One more echo has been registered. -/
structure Engine.Asks (bound : UInt32) (s : Ping.Session) (n : Nat) (p : PendingEcho)
    (e : Engine) : Prop where
  ready : e.ready
  session : e.session = some s
  entries : e.pending.entries = [p]
  own : p.key.identifier = s.identifier
  statistics : ∃ statistics : Ping.Statistics,
    statistics.AnsweredWithin bound n ∧ e.statistics = statistics.recordSent

namespace Engine

variable {bound : UInt32} {s : Ping.Session} {n : Nat} {e e' : Engine} {p : PendingEcho}
  {now : Instant}

theorem Answered.count (h : Answered bound s n e) (counters : Counters) :
    Answered bound s n { e with counters } :=
  ⟨h.ready, h.session, h.entries, h.statistics⟩

theorem Answered.countSent (h : Answered bound s n e) (kind : Kind) :
    Answered bound s n (e.countSent kind) :=
  h.count _

theorem Answered.note (h : Answered bound s n e) (note : Note) : Answered bound s n (e.note note) :=
  ⟨h.ready, h.session, h.entries, h.statistics⟩

theorem Asks.count (h : Asks bound s n p e) (counters : Counters) :
    Asks bound s n p { e with counters } :=
  ⟨h.ready, h.session, h.entries, h.own, h.statistics⟩

theorem Answered.begun (hready : e.ready) (hempty : e.pending.entries = []) (s : Ping.Session) :
    Answered bound s 0 (e.begun s) :=
  ⟨hready, rfl, hempty, .start s.destination s.nextSendAt⟩

theorem sweep_of_fresh (h : ∀ p ∈ e.pending.entries, p.isExpired now = false) :
    ∃ pending counters journal, e.sweep now = { e with pending, counters, journal } ∧
      pending.entries = e.pending.entries := by
  obtain ⟨timeouts, journal, heq⟩ := e.sweep_eq now
  have hnone : (e.pending.sweep now).2 = [] := by
    rw [PendingTable.sweep, PendingTable.removed_eq]
    exact List.filter_eq_nil_iff.2 fun p hp => by simp [h p hp]
  have hall : (e.pending.sweep now).1.entries = e.pending.entries := by
    rw [PendingTable.sweep, PendingTable.entries_remove]
    exact List.filter_eq_self.2 fun p hp => by simp [h p hp]
  rw [hnone] at heq
  exact ⟨_, _, _, heq, hall⟩

theorem Answered.sweep (h : Answered bound s n e) (now : Instant) :
    Answered bound s n (e.sweep now) := by
  have hfresh : ∀ p ∈ e.pending.entries, p.isExpired now = false := by
    rw [h.entries]
    nofun
  obtain ⟨pending, counters, journal, heq, hentries⟩ := sweep_of_fresh hfresh
  rw [heq]
  exact ⟨h.ready, h.session, hentries.trans h.entries, h.statistics⟩

/-- The table is empty, so there is a slot. -/
theorem Answered.register (h : Answered bound s n e) (key : EchoKey) (now : Instant)
    (timeout : UInt32) (hown : key.identifier = s.identifier) :
    ∃ e', e.register now key timeout = .ok e' ∧ Asks bound s n ⟨key, now, timeout⟩ e' := by
  cases hregister : e.register now key timeout with
  | error cause =>
    have hfull := count_of_register_error hregister
    rw [PendingTable.count_eq_zero_iff.2 h.entries] at hfull
    cases hfull
  | ok e' =>
    obtain ⟨pending, hallocate, rfl⟩ := register_eq_ok hregister
    have hperm := PendingTable.perm_entries_of_allocate hallocate
    rw [h.entries] at hperm
    exact ⟨_, rfl, h.ready, h.session, List.perm_singleton.1 hperm, hown, _, h.statistics, rfl⟩

/-- The reply to the echo in flight comes in time. -/
theorem Asks.handleReply (h : Asks bound s n p e) (hbound : bound ≤ p.timeout)
    (htime : now.toNat ≤ p.sentAt.toNat + bound.toNat) (echo : Echo)
    (hkey : p.key = ⟨p.key.destination, echo.identifier, echo.sequence⟩) :
    Answered bound s (n + 1) (e.handleReply p.key.destination echo now) := by
  obtain ⟨statistics, hstatistics, heq⟩ := h.statistics
  have hfresh : ∀ q ∈ e.pending.entries, q.isExpired now = false := by
    rw [h.entries]
    intro q hq
    rw [List.mem_singleton.1 hq, PendingEcho.isExpired_eq_false_iff]
    exact Nat.le_trans htime (Nat.add_le_add_left (UInt32.le_iff_toNat_le.1 hbound) _)
  obtain ⟨pending, counters, journal, hsweep, hentries⟩ := sweep_of_fresh hfresh
  rw [h.entries] at hentries
  obtain ⟨⟨q, pending'⟩, htake⟩ : ∃ r, pending.take? p.key = some r := by
    refine Option.ne_none_iff_exists'.1 fun hnone => ?_
    exact PendingTable.take?_eq_none_iff.1 hnone p (by rw [hentries]; exact List.mem_cons_self) rfl
  have hperm := (PendingTable.perm_entries_of_take? htake).2
  rw [hentries] at hperm
  obtain ⟨rfl, hempty⟩ := List.cons.inj (List.singleton_perm.1 hperm)
  have htrip : Saturating.clamp32 (Saturating.sub64 now p.sentAt) ≤ bound := by
    rw [UInt32.le_iff_toNat_le, Saturating.toNat_clamp32, Saturating.toNat_sub64]
    omega
  have howns : ({ e with pending := pending', counters, journal } : Engine).owns
      echo.identifier := by
    refine (owns_iff_of_session h.session _).2 ?_
    rw [← h.own, hkey]
  simp only [Engine.handleReply, hsweep, ← hkey, htake, recordReply, if_pos howns]
  refine ⟨h.ready, h.session, hempty.symm, ?_⟩
  show (e.statistics.recordReply _).AnsweredWithin bound (n + 1)
  rw [heq]
  exact hstatistics.recordReply htrip

end Engine

/-! ## An echo goes round -/

/-- The echo request of a session with the given key, and the reply to it, as a loopback has
them. -/
def roundOf (config : Ping.Config) (key : EchoKey) : List Outgoing :=
  [(key.destination, Engine.echoPacket key config),
    (key.destination, Packet.echo .echoReply
      ⟨key.identifier, key.sequence, Packet.filler config.payloadSize.toNat⟩)]

theorem Packet.length_filler (n : Nat) : (filler n).length = n := by
  rw [filler, List.length_map, List.length_range]

section

variable {bound : UInt32} {result : List Outgoing → Engine → Reply → Prop}
  {handed : List Outgoing} {s : Ping.Session} {n : Nat} {e : Engine} {p : PendingEcho}
  {rest : Sending} {config : Ping.Config} {now : Instant}

/-- When the call that sent the echo goes on, the reply has been received. -/
theorem Loopback.roundTrip (h : e.Asks bound s n p) (hbound : bound ≤ p.timeout)
    (hsent : now ≤ p.sentAt) (hsize : config.payloadSize.toNat ≤ maxEchoData)
    (hgo : ∀ e' : Engine, e'.Answered bound s (n + 1) → ∀ later t, Within bound later t →
      Loopback (Within bound) result [] (handed ++ roundOf config p.key) later
        (e'.sent t (.ok ()) rest)) :
    Loopback (Within bound) result [] handed now
      (.send e p.key.destination (Engine.echoPacket p.key config) rest) := by
  let echo : Echo := ⟨p.key.identifier, p.key.sequence, Packet.filler config.payloadSize.toNat⟩
  have hfits : echo.payload.length ≤ maxPayload := by
    have hle : maxEchoData ≤ maxPayload := by decide
    show (Packet.filler _).length ≤ _
    rw [Packet.length_filler]
    omega
  refine .send fun t _ => ?_
  obtain ⟨counters₁, hin⟩ := input_request h.ready
    (Packet.decode_echo .request echo) hfits t p.key.destination
  have h₁ := h.count counters₁
  show Loopback _ _ _ _ _ (e.input _ _ (Packet.echo .echoRequest echo))
  rw [hin]
  -- The request has come in, and the reply goes out.
  refine .send fun t ht => ?_
  obtain ⟨counters₂, hback⟩ := Engine.input_of_echoReply h₁.ready
    (Packet.decode_echo .reply echo) t p.key.destination
  have htime : t.now.toNat ≤ p.sentAt.toNat + bound.toNat :=
    Nat.le_trans ht.toNat_le (Nat.add_le_add_right (UInt64.le_iff_toNat_le.1 hsent) _)
  have h₂ : Engine.Answered bound s (n + 1) _ :=
    (h₁.count counters₂).handleReply hbound htime echo rfl
  rw [hback]
  refine .back fun t _ => .backToFirst fun later t ht => ?_
  have hgo := hgo _ (h₂.countSent .echoReply) later t ht
  rw [roundOf, List.append_cons] at hgo
  exact hgo

end

/-! ## Blocking sessions -/

/-- The packets of the first `n` echoes of a session. -/
def Ping.Session.rounds (s : Ping.Session) (n : Nat) : List Outgoing :=
  (List.range n).flatMap fun i =>
    roundOf s.config ⟨s.destination, s.identifier, UInt16.ofNat i⟩

theorem Ping.Session.rounds_succ (s : Ping.Session) (n : Nat) :
    s.rounds (n + 1) = s.rounds n ++ roundOf s.config (s.runAt n).key := by
  rw [rounds, List.range_succ, List.flatMap_append, List.flatMap_singleton]
  rfl

/-- A blocking ping has come to its end, with all of `n` echoes answered in time, and in no time if
none goes by. -/
structure AllAnswered (bound : UInt32) (s : Ping.Session) (n : Nat) (handed : List Outgoing)
    (e : Engine) (reply : Reply) : Prop where
  handed : handed = s.rounds n
  idle : e.session = none
  entries : e.pending.entries = []
  reply : ∃ stats : Ping.Statistics, reply = .ok (some stats) ∧ stats.AnsweredWithin bound n ∧
    (bound = 0 → stats.rttMin = 0 ∧ stats.rttMax = 0 ∧ stats.rttSum = 0)

section

variable {bound : UInt32} {s : Ping.Session} {i n : Nat} {e : Engine} {now : Instant} {t : Clock}

theorem allAnswered_conclude (h : e.Answered bound s n) (t : Clock) :
    Loopback (Within bound) (AllAnswered bound s n) [] (s.rounds n) now
      (e.conclude t (s.runAt i)) := by
  have howns : e.owns (s.runAt i).identifier := (e.owns_iff_of_session h.session _).2 rfl
  obtain ⟨journal, hsummarize⟩ := (e.endSession t.now (s.runAt i).identifier).summarize_eq
  have hnone : (e.pending.removeIdentifier s.identifier).2 = [] := by
    rw [PendingTable.removeIdentifier, PendingTable.removed_eq, h.entries]
    rfl
  have hempty : (e.pending.removeIdentifier s.identifier).1.entries = [] := by
    rw [PendingTable.removeIdentifier, PendingTable.entries_remove, h.entries]
    rfl
  have hfinish := h.statistics.finish t.now
  simp only [Engine.conclude]
  rw [hsummarize, Engine.endSession, if_pos howns, Engine.finishSession_of_some h.session, hnone]
  refine .done ⟨rfl, rfl, hempty, _, rfl, hfinish, ?_⟩
  rintro rfl
  exact hfinish.atOnce

theorem allAnswered_attempt (hsize : s.config.payloadSize.toNat ≤ maxEchoData)
    (hbound : bound ≤ s.config.timeout) (hi : i < s.config.count.toNat)
    (h : e.Answered bound s i) (ht : Within bound now t) :
    Loopback (Within bound) (AllAnswered bound s s.config.count.toNat) [] (s.rounds i) now
      (e.attempt t (s.runAt i)) := by
  -- The echoes are tried one after the other, so there are fewer to come.
  induction hleft : s.config.count.toNat - i generalizing i e now t with
  | zero => omega
  | succ left ih =>
  have howns : e.owns (s.runAt i).identifier := (e.owns_iff_of_session h.session _).2 rfl
  obtain ⟨e₁, hregister, h₁⟩ := h.register (s.runAt i).key t.now s.config.timeout rfl
  rw [Engine.attempt_of_register howns hregister]
  refine Loopback.roundTrip h₁ hbound ht.le hsize fun e₂ h₂ later t ht => ?_
  show Loopback _ _ _ (s.rounds i ++ roundOf s.config (s.runAt i).key) later
    ((e₂.countSent .echoRequest).await t (s.runAt i))
  rw [← s.rounds_succ]
  have h₃ := (h₂.countSent .echoRequest).sweep t.now
  have hsettled : ¬ ((e₂.countSent .echoRequest).sweep t.now).pending.contains (s.runAt i).key := by
    rw [PendingTable.contains_iff, h₃.entries]
    nofun
  rw [Engine.await_eq, if_neg hsettled, Engine.proceed, s.next_runAt]
  split_ifs with hlast hinterval
  · have hlast : s.config.count.toNat - 1 - i = 0 := hlast
    have hcount : s.config.count.toNat = i + 1 := by omega
    rw [hcount]
    exact allAnswered_conclude h₃ t.later
  · have hmore : s.config.count.toNat - 1 - i ≠ 0 := hlast
    exact ih (by omega) h₃ ht.later (by omega)
  · have hmore : s.config.count.toNat - 1 - i ≠ 0 := hlast
    exact .sleep fun later t ht => ih (by omega) h₃ ht (by omega)

end

/-! ## Continuous sessions -/

/-- What holds after the engine was polled `n` times, at any times. -/
def AfterPolls (bound : UInt32) (result : Engine → Prop) : Nat → Engine → Prop
  | 0, e => result e
  | n + 1, e => ∀ now t, Within bound now t →
    Loopback (Within bound) (fun _ e' _ => AfterPolls bound result n e') [] [] now (e.poll t)

/-- A poll has come to its end.  If an echo of `s` was due, it was sent and answered. -/
structure PollAnswered (bound : UInt32) (s : Ping.Session) (n : Nat) (now : Instant)
    (handed : List Outgoing) (e : Engine) (reply : Reply) : Prop where
  reply : reply = .ok none
  handed : handed = if s.nextSendAt ≤ now then
    roundOf s.config ⟨s.destination, s.identifier, s.nextSequence⟩ else []
  answered : if s.nextSendAt ≤ now then e.Answered bound (s.advance now) (n + 1)
    else e.Answered bound s n

section

variable {bound : UInt32} {s : Ping.Session} {n : Nat} {e : Engine} {now : Instant} {t : Clock}

theorem Loopback.mono {reads : Instant → Clock → Prop}
    {result result' : List Outgoing → Engine → Reply → Prop} {waiting : List Sending}
    {handed : List Outgoing} {now : Instant} {turn : Turn}
    (h : Loopback reads result waiting handed now turn)
    (himp : ∀ handed e reply, result handed e reply → result' handed e reply) :
    Loopback reads result' waiting handed now turn := by
  induction h with
  | done h => exact .done (himp _ _ _ h)
  | back _ ih => exact .back ih
  | backToFirst _ ih => exact .backToFirst ih
  | send _ ih => exact .send ih
  | sleep _ ih => exact .sleep ih

theorem pollAnswered_poll (hmode : s.mode = .continuous)
    (hsize : s.config.payloadSize.toNat ≤ maxEchoData) (hbound : bound ≤ s.config.timeout)
    (h : e.Answered bound s n) (ht : Within bound now t) :
    Loopback (Within bound) (PollAnswered bound s n t.now) [] [] now (e.poll t) := by
  have hsweep := h.sweep t.now
  by_cases hdue : s.nextSendAt ≤ t.now
  · have hmoved : (e.movedOn s t.now).Answered bound (s.advance t.now) n :=
      ⟨hsweep.ready, rfl, hsweep.entries, hsweep.statistics⟩
    obtain ⟨e₁, hregister, h₁⟩ := hmoved.register
      ⟨s.destination, s.identifier, s.nextSequence⟩ t.later.now s.config.timeout rfl
    have hpoll : e.poll t = .send e₁ s.destination
        (Engine.echoPacket ⟨s.destination, s.identifier, s.nextSequence⟩ s.config)
        (.polled ⟨s.destination, s.identifier, s.nextSequence⟩) := by
      rw [Engine.poll_of_due h.ready h.session ⟨hmode, hdue⟩, hregister]
    rw [hpoll]
    refine Loopback.roundTrip h₁ hbound ht.later.le hsize
      fun e₂ h₂ later t _ => .done ⟨rfl, ?_, ?_⟩
    · rw [if_pos hdue]
      rfl
    · rw [if_pos hdue]
      exact h₂.countSent .echoRequest
  · have hpoll : e.poll t = .done (e.sweep t.now) (.ok none) := by
      refine Engine.poll_of_not_due h.ready fun s' hs' => ?_
      cases h.session.symm.trans hs'
      exact fun h => hdue h.2
    rw [hpoll]
    refine .done ⟨rfl, ?_, ?_⟩
    · rw [if_neg hdue]
    · rw [if_neg hdue]
      exact hsweep

/-- A continuous session with all its echoes answered, and so it will be after one more poll. -/
def GoesOnAnswered (bound : UInt32) (config : Ping.Config) (e : Engine) : Prop :=
  ∃ s n, s.mode = .continuous ∧ s.config = config ∧ e.Answered bound s n ∧
    ∀ now t, Within bound now t →
      Loopback (Within bound) (PollAnswered bound s n t.now) [] [] now (e.poll t)

theorem afterPolls_of_answered (hmode : s.mode = .continuous)
    (hsize : s.config.payloadSize.toNat ≤ maxEchoData) (hbound : bound ≤ s.config.timeout)
    (h : e.Answered bound s n) (polls : Nat) :
    AfterPolls bound (GoesOnAnswered bound s.config) polls e := by
  induction polls generalizing s n e with
  | zero => exact ⟨s, n, hmode, rfl, h, fun now t => pollAnswered_poll hmode hsize hbound h⟩
  | succ polls ih =>
    intro now t ht
    refine (pollAnswered_poll hmode hsize hbound h ht).mono fun handed e' reply hpoll => ?_
    have hanswered := hpoll.answered
    split_ifs at hanswered
    · exact ih (s := s.advance t.now) hmode hsize hbound hanswered
    · exact ih hmode hsize hbound hanswered

end

/-- Over a loopback, whatever comes in, the calls that follow from it come to an end.  As long as a
round takes no longer than an echo is waited for, a blocking ping on an idle engine comes to its end
with every echo sent and received, and in no time if none goes by.  A continuous session sends an
echo whenever a poll finds one due, and has received it when the poll is over, however often it is
polled; nothing is ever in flight between two polls. -/
theorem pings_answered :
    (∀ (e : Engine) (t : Clock) (now : Instant) (source : Address) (packet : Bytes),
      Loopback (fun _ _ => True) (fun _ _ _ => True) [] [] now (e.input t source packet)) ∧
    ∀ (settings : Ping.Config) (w : World), World.Reach settings (fun _ => True) w →
      w.engine.ready → w.engine.session = none →
      ∀ (config : Ping.Config), config.payloadSize.toNat ≤ maxEchoData →
      ∀ (bound : UInt32), bound ≤ config.normalized.timeout →
      ∀ (destination : Address) (now : Instant) (t : Clock), Within bound now t →
        let s (mode : Ping.Mode) : Ping.Session :=
          ⟨mode, destination, w.engine.takeIdentifier.2, 0, config.normalized, t.now⟩
        Loopback (Within bound)
          (AllAnswered bound (s .blocking) config.normalized.count.toNat) [] [] now
          (w.engine.start t (.pingWith destination config)) ∧
        (let first := Ping.Session.advance (s .continuous) t.later.now
         Loopback (Within bound) (fun handed e reply => reply = .ok none ∧
            handed = roundOf config.normalized ⟨destination, w.engine.takeIdentifier.2, 0⟩ ∧
            e.Answered bound first 1 ∧
            ∀ polls, AfterPolls bound (GoesOnAnswered bound config.normalized) polls e)
          [] [] now (w.engine.start t (.startPingWith destination config))) := by
  refine ⟨fun e t now source packet => loopback_input (fun _ _ _ => trivial) e t source packet, ?_⟩
  intro settings w h hready hidle config hsize bound hbound destination now t ht s
  have hempty := h.conserves.entries_of_idle hidle
  constructor
  · have hstart : w.engine.start t (.pingWith destination config) =
        ((w.engine.begun (s .blocking)).note
          (.blockingStarted destination config.normalized)).attempt t.later
          ((s .blocking).runAt 0) :=
      Engine.pingWith_of_idle hready hidle hsize destination t
    rw [hstart]
    exact allAnswered_attempt (s := s .blocking) hsize hbound config.count_normalized_pos
      ((Engine.Answered.begun hready hempty _).note _) ht.later
  · have hfits : ¬ config.normalized.payloadSize.toNat > maxEchoData := Nat.not_lt.2 hsize
    have hstart : w.engine.start t (.startPingWith destination config) =
        ((w.engine.begun (s .continuous)).note
          (.continuousStarted destination config.normalized)).poll t.later := by
      show w.engine.startPingWith t destination config = _
      rw [Engine.startPingWith, if_neg hfits]
      simp only [beginSession_of_idle hready hidle]
      rfl
    rw [hstart]
    refine (pollAnswered_poll (s := s .continuous) rfl hsize hbound
      ((Engine.Answered.begun hready hempty _).note _) ht.later).mono
        fun handed e reply hpoll => ?_
    have hhanded := hpoll.handed
    have hanswered := hpoll.answered
    rw [if_pos ht.now_le_later] at hhanded hanswered
    exact ⟨hpoll.reply, hhanded, hanswered,
      afterPolls_of_answered (s := (s .continuous).advance t.later.now) rfl hsize hbound hanswered⟩

/-- Three echoes, one second after the other, to a host behind the loopback. -/
theorem three_pings_answered :
    let w := ({ engine := .new {} } : World).call .init (.still 7)
    let config : Ping.Config := { count := 3 }
    w.engine.ready ∧ w.engine.session = none ∧ config.payloadSize.toNat ≤ maxEchoData ∧
      Within 0 100 (.still 100) ∧
      Loopback (Within 0) (AllAnswered 0 ⟨.blocking, ⟨10, 0, 2, 2⟩, 38348, 0, config, 100⟩ 3) [] []
        100 (w.engine.start (.still 100) (.pingWith ⟨10, 0, 2, 2⟩ config)) := by
  intro w config
  have hreach : World.Reach {} (fun _ => True) w := .step .new (.call _ .init (.still 7)) trivial
  have hidentifier : w.engine.takeIdentifier.2 = 38348 := by decide
  have hconfig : config.normalized = config := by decide
  have hstill : Within 0 100 (.still 100) := ⟨100, .still (UInt64.le_refl 100), Nat.le_refl _⟩
  have h := (pings_answered.2 {} w hreach rfl rfl config (by decide) 0 (by decide) ⟨10, 0, 2, 2⟩
    100 (.still 100) hstill).1
  rw [hidentifier, hconfig] at h
  exact ⟨rfl, rfl, by decide, hstill, h⟩

end NetHost.Icmp
