import NetHost.Proofs.Icmp.Loopback

/-!
# Packets that come in

Every packet that the engine takes in is counted twice: among all packets, and as one of seven kinds
(`counts_input`).  Nothing else changes these counts, save for making the engine ready, which resets
them, so they add up whatever calls are made (`World.Reach.addsUp`).

An echo request is answered with one packet, and that one with none (`one_reaction_each`).
-/

namespace NetHost.Icmp

open Ipv4 (Address)

/-! ## Counts -/

namespace Counters.Received

/-- The counts of packets of one kind each. -/
def kinds (r : Received) : List UInt32 :=
  [r.echoRequests, r.echoReplies, r.unreachable, r.timeExceeded, r.unknown, r.badChecksum,
    r.truncated]

/-- Where among the kinds a packet is counted, given what it was read as. -/
def kindOf : Except Damage Message → Nat
  | .ok (.echoRequest _) => 0
  | .ok (.echoReply _) => 1
  | .ok (.unreachable _) => 2
  | .ok (.timeExceeded _) => 3
  | .ok (.other _ _) => 4
  | .error .badChecksum => 5
  | .error .truncated => 6

/-- One more packet was counted, which was read as `read`. -/
structure Counts (read : Except Damage Message) (r r' : Received) : Prop where
  packets : r'.packets = r.packets + 1
  kinds : r'.kinds = r.kinds.modify (kindOf read) (· + 1)

/-- Every packet is of one kind.  The counts wrap around. -/
def AddsUp (r : Received) : Prop := r.packets.toNat = (r.kinds.map UInt32.toNat).sum % 2 ^ 32

theorem kindOf_lt (read : Except Damage Message) (r : Received) :
    kindOf read < r.kinds.length := by
  show kindOf read < 7
  unfold kindOf
  split <;> decide

theorem sum_modify {counts : List UInt32} {i : Nat} (h : i < counts.length) :
    ((counts.modify i (· + 1)).map UInt32.toNat).sum % 2 ^ 32 =
      ((counts.map UInt32.toNat).sum + 1) % 2 ^ 32 := by
  induction counts generalizing i with
  | nil => cases h
  | cons n counts ih =>
    cases i with
    | zero =>
      simp only [List.modify_zero_cons, List.map_cons, List.sum_cons, UInt32.toNat_add,
        UInt32.reduceToNat]
      omega
    | succ i =>
      have hrest := ih (Nat.lt_of_succ_lt_succ h)
      simp only [List.modify_succ_cons, List.map_cons, List.sum_cons]
      omega

theorem AddsUp.counts {read : Except Damage Message} {r r' : Received} (h : r.AddsUp)
    (hcounts : Counts read r r') : r'.AddsUp := by
  rw [AddsUp, hcounts.packets, hcounts.kinds, sum_modify (kindOf_lt read r), UInt32.toNat_add,
    h, Nat.mod_add_mod]
  rfl

end Counters.Received

open Counters (Received)
open Counters.Received (Counts AddsUp)

namespace Engine

/-- The counts of what came in, without that of answers to no echo in flight. -/
def arrivals (e : Engine) : Received := { e.counters.received with unmatched := 0 }

/-! ## What is not counted -/

variable {e e' : Engine} {t : Clock} {now : Instant}

@[simp]
theorem arrivals_note (e : Engine) (n : Note) : (e.note n).arrivals = e.arrivals := rfl

@[simp]
theorem arrivals_sweep (e : Engine) (now : Instant) : (e.sweep now).arrivals = e.arrivals := by
  obtain ⟨_, _, h⟩ := e.sweep_eq now
  rw [h]
  rfl

@[simp]
theorem arrivals_recordError (e : Engine) (identifier : UInt16) :
    (e.recordError identifier).arrivals = e.arrivals := by
  rw [recordError_eq]
  rfl

@[simp]
theorem arrivals_recordReply (e : Engine) (identifier : UInt16) (rtt : UInt32) :
    (e.recordReply identifier rtt).arrivals = e.arrivals := by
  rw [recordReply_eq]
  rfl

@[simp]
theorem arrivals_dropEcho (e : Engine) (key : EchoKey) (cause : Error) :
    (e.dropEcho key cause).arrivals = e.arrivals := by
  simp only [dropEcho, arrivals_note]
  split
  · exact arrivals_recordError _ _
  · rfl

@[simp]
theorem arrivals_handleReply (e : Engine) (source : Address) (echo : Echo) (now : Instant) :
    (e.handleReply source echo now).arrivals = e.arrivals := by
  simp only [handleReply]
  split
  · exact arrivals_sweep e now
  · rw [arrivals_note, arrivals_recordReply]
    exact arrivals_sweep e now

@[simp]
theorem arrivals_handleReport (e : Engine) (source : Address) (kind : Kind) (report : Report) :
    (e.handleReport source kind report).arrivals = e.arrivals := by
  simp only [handleReport]
  split
  · rfl
  · exact arrivals_recordError _ _

@[simp]
theorem arrivals_finishSession (e : Engine) (now : Instant) :
    (e.finishSession now).arrivals = e.arrivals := by
  cases hs : e.session with
  | none => rw [finishSession_of_none hs]
  | some s =>
    rw [finishSession_of_some hs]
    rfl

@[simp]
theorem arrivals_endSession (e : Engine) (now : Instant) (identifier : UInt16) :
    (e.endSession now identifier).arrivals = e.arrivals := by
  unfold endSession
  split_ifs
  · exact arrivals_finishSession e now
  · rfl

@[simp]
theorem arrivals_summarize (e : Engine) : e.summarize.arrivals = e.arrivals := by
  obtain ⟨_, h⟩ := e.summarize_eq
  rw [h]
  rfl

@[simp]
theorem arrivals_report (e : Engine) : e.report.arrivals = e.arrivals := by
  obtain ⟨_, h⟩ := e.report_eq
  rw [h]
  rfl

theorem arrivals_register {key : EchoKey} {timeout : UInt32}
    (h : e.register now key timeout = .ok e') : e'.arrivals = e.arrivals := by
  obtain ⟨_, -, rfl⟩ := register_eq_ok h
  rfl

@[simp]
theorem arrivals_sendEcho (e : Engine) (destination : Address) (kind : Kind) (limit : Nat)
    (echo : Echo) : (e.sendEcho destination kind limit echo).engine.arrivals = e.arrivals := by
  unfold sendEcho
  split_ifs <;> rfl

@[simp]
theorem arrivals_sendReport (e : Engine) (destination : Address) (kind : Kind) (isCode : Bool)
    (report : Report) :
    (e.sendReport destination kind isCode report).engine.arrivals = e.arrivals := by
  unfold sendReport
  split_ifs <;> rfl

@[simp]
theorem arrivals_conclude (e : Engine) (t : Clock) (run : Run) :
    (e.conclude t run).engine.arrivals = e.arrivals := by
  simp only [conclude, Turn.engine, arrivals_summarize, arrivals_endSession]

@[simp]
theorem arrivals_attempt (e : Engine) (t : Clock) (run : Run) :
    (e.attempt t run).engine.arrivals = e.arrivals := by
  unfold attempt
  split_ifs
  · split
    · exact arrivals_endSession e _ _
    · exact arrivals_register ‹_›
  · exact arrivals_conclude e _ run
  · rfl

@[simp]
theorem arrivals_proceed (e : Engine) (t : Clock) (run : Run) :
    (e.proceed t run).engine.arrivals = e.arrivals := by
  unfold proceed
  split_ifs
  · exact arrivals_conclude e t run
  · exact arrivals_attempt e t run.next
  · rfl

@[simp]
theorem arrivals_await (e : Engine) (t : Clock) (run : Run) :
    (e.await t run).engine.arrivals = e.arrivals := by
  simp only [await]
  split_ifs
  · exact arrivals_sweep e t.now
  · rw [arrivals_proceed, arrivals_sweep]

@[simp]
theorem arrivals_poll (e : Engine) (t : Clock) : (e.poll t).engine.arrivals = e.arrivals := by
  have hmoved (s : Ping.Session) : (e.movedOn s t.now).arrivals = e.arrivals :=
    arrivals_sweep e t.now
  rcases e.poll_cases t with ⟨-, h⟩ | ⟨-, -, h⟩ |
    ⟨s, -, -, -, ⟨e₁, hregister, h⟩ | ⟨cause, -, h⟩⟩
  · rw [h]
    rfl
  · rw [h]
    exact arrivals_sweep e t.now
  · rw [h]
    exact (arrivals_register hregister).trans (hmoved s)
  · rw [h]
    exact (arrivals_recordError _ _).trans (hmoved s)

@[simp]
theorem arrivals_pingWith (e : Engine) (t : Clock) (destination : Address)
    (config : Ping.Config) : (e.pingWith t destination config).engine.arrivals = e.arrivals := by
  simp only [pingWith]
  split_ifs
  · rfl
  · rcases beginSession_cases e t.now destination .blocking config.normalized_normalized with
      ⟨cause, journal, h⟩ | ⟨s, -, -, -, -, h⟩
    · rw [h]
      rfl
    · rw [h]
      exact arrivals_attempt _ _ _

@[simp]
theorem arrivals_startPingWith (e : Engine) (t : Clock) (destination : Address)
    (config : Ping.Config) :
    (e.startPingWith t destination config).engine.arrivals = e.arrivals := by
  simp only [startPingWith]
  split_ifs
  · rfl
  · rcases beginSession_cases e t.now destination .continuous config.normalized_normalized with
      ⟨cause, journal, h⟩ | ⟨s, -, -, -, -, h⟩
    · rw [h]
      rfl
    · rw [h]
      exact arrivals_poll _ _

@[simp]
theorem arrivals_stopPing (e : Engine) (t : Clock) :
    (e.stopPing t).engine.arrivals = e.arrivals := by
  unfold stopPing
  split_ifs
  · simp only [Turn.engine, arrivals_summarize, arrivals_finishSession]
  · rfl

theorem arrivals_resumes {f : Suspended} {turn : Turn} (h : Resumes e t f turn) :
    turn.engine.arrivals = e.arrivals := by
  cases h with
  | sent answer rest =>
    cases rest with
    | message kind destination => cases answer <;> rfl
    | polled key =>
      cases answer with
      | ok _ => rfl
      | error cause => exact arrivals_dropEcho e key cause
    | pinged run =>
      cases answer with
      | ok _ => exact arrivals_await _ t run
      | error cause => exact (arrivals_proceed _ t run).trans (arrivals_dropEcho e run.key cause)
  | woken rest =>
    cases rest with
    | awaiting run => exact arrivals_await e t run
    | pausing run => exact arrivals_attempt e t run

/-! ## What is counted -/

theorem counts_input (hready : e.ready) (t : Clock) (source : Address) (packet : Bytes) :
    Counts (Message.decode packet) e.arrivals (e.input t source packet).engine.arrivals := by
  unfold input
  rw [if_neg (by simp [hready])]
  dsimp only
  cases Message.decode packet with
  | error damage =>
    cases damage with
    | truncated => exact ⟨rfl, rfl⟩
    | badChecksum => exact ⟨rfl, rfl⟩
  | ok message =>
    cases message with
    | echoRequest echo =>
      dsimp only
      rw [sendReply, arrivals_sendEcho]
      exact ⟨rfl, rfl⟩
    | echoReply echo =>
      simp only [Turn.engine, arrivals_handleReply]
      exact ⟨rfl, rfl⟩
    | unreachable report =>
      simp only [Turn.engine, arrivals_handleReport]
      exact ⟨rfl, rfl⟩
    | timeExceeded report =>
      simp only [Turn.engine, arrivals_handleReport]
      exact ⟨rfl, rfl⟩
    | other kind code => exact ⟨rfl, rfl⟩

/-- A call counts a packet that it takes in, or makes the engine ready, or counts nothing. -/
theorem arrivals_start (e : Engine) (t : Clock) (c : Call) :
    (e.start t c).engine.arrivals = e.arrivals ∨ (e.start t c).engine.arrivals = {} ∨
      ∃ read, Counts read e.arrivals (e.start t c).engine.arrivals := by
  cases c with
  | init => exact .inr (.inl rfl)
  | input source packet =>
    by_cases hready : e.ready
    · exact .inr (.inr ⟨_, counts_input hready t source packet⟩)
    · left
      rw [start, input_of_not_ready hready]
      rfl
  | report => exact .inl (arrivals_report e)
  | _ => simp [start, sendRequest, sendReply]

end Engine

theorem World.addsUp_of_step {w w' : World} {c : Option Call} (h : w.engine.arrivals.AddsUp)
    (hstep : Step w c w') : w'.engine.arrivals.AddsUp := by
  cases hstep with
  | call c t =>
    rw [engine_call]
    rcases w.engine.arrivals_start t c with hsame | hnew | ⟨read, hcounts⟩
    · rw [hsame]
      exact h
    · rw [hnew]
      rfl
    · exact h.counts hcounts
  | resume hframes hturn =>
    rw [Engine.arrivals_resumes hturn]
    exact h

theorem World.Reach.addsUp {config : Ping.Config} {ok : World → Prop} {w : World}
    (h : Reach config ok w) : w.engine.counters.received.AddsUp := by
  have harrivals : w.engine.arrivals.AddsUp := by
    induction h with
    | new => rfl
    | step _ hstep _ ih => exact addsUp_of_step ih hstep
  exact harrivals

/-! ## Reactions -/

/-- However the IP layer answers, the call that sent a reply ends, and has counted that as sent. -/
theorem Engine.sent_reply (e : Engine) (t : Clock) (answer : Except Error Unit)
    (source : Address) :
    ∃ sent journal result, e.sent t answer (.message .echoReply source) =
      .done { e with counters := { e.counters with sent }, journal } result := by
  cases answer with
  | ok _ => exact ⟨_, e.journal, _, rfl⟩
  | error cause => exact ⟨_, _, _, rfl⟩

/-- The counts of what came in add up, whatever calls were made.  An engine that is ready counts
every packet once, as what it is read as.  It answers an echo request with one packet, to where it
came from and with what it carried, and has changed nothing else than counts when the call ends;
no engine answers that packet.  Nothing else is answered.  A damaged packet is only counted. -/
theorem one_reaction_each :
    (∀ config w, World.Reach config (fun _ => True) w → w.engine.counters.received.AddsUp) ∧
    ∀ (e : Engine) (t : Clock) (source : Address) (packet : Bytes), e.ready →
      let read := Message.decode packet
      let turn := e.start t (.input source packet)
      Counts read e.counters.received turn.engine.counters.received ∧
      (∀ echo, read = .ok (.echoRequest echo) → echo.payload.length ≤ maxPayload →
        ∃ reply counters,
          turn = .send { e with counters } source reply (.message .echoReply source) ∧
          Message.decode reply = .ok (.echoReply echo) ∧
          (∀ (e' : Engine) (t' : Clock) (answer : Except Error Unit), ∃ sent journal result,
            e'.sent t' answer (.message .echoReply source) =
              .done { e' with counters := { e'.counters with sent }, journal } result) ∧
          ∀ (e' : Engine) (t' : Clock) (source' : Address), ∃ e'' result,
            e'.start t' (.input source' reply) = .done e'' result) ∧
      ((∀ echo, read = .ok (.echoRequest echo) → maxPayload < echo.payload.length) →
        ∃ e' result, turn = .done e' result) ∧
      ∀ damage, read = .error damage → ∃ received journal,
        turn = .done { e with counters := { e.counters with received }, journal }
          (.error .invalid) ∧
        received.unmatched = e.counters.received.unmatched := by
  refine ⟨fun config w h => h.addsUp, fun e t source packet hready => ⟨?_, ?_, ?_, ?_⟩⟩
  · obtain ⟨hpackets, hkinds⟩ := Engine.counts_input hready t source packet
    exact ⟨hpackets, hkinds⟩
  · intro echo hdecode hsize
    obtain ⟨counters, hinput⟩ := input_request hready hdecode hsize t source
    exact ⟨_, counters, hinput, Packet.decode_echo .reply echo,
      fun e' t' answer => e'.sent_reply t' answer source,
      fun e' t' source' => done_of_reply e' t' source' echo⟩
  · exact done_of_not_request e t source
  · exact fun damage hdecode => Engine.input_of_damage hready hdecode t source

/-- An echo request with one byte in it, and the same with that byte changed. -/
theorem one_reaction_to_request :
    let host : Address := ⟨10, 0, 2, 2⟩
    let w := ({ engine := .new {} } : World).call .init (.still 7)
    let packet : Bytes := [8, 0, 0x84, 0xCA, 0x12, 0x34, 0, 1, 0x61]
    w.engine.counters.received.AddsUp ∧
      (∃ reply counters,
        w.engine.start (.still 9) (.input host packet) =
          .send { w.engine with counters } host reply (.message .echoReply host) ∧
        Message.decode reply = .ok (.echoReply ⟨0x1234, 1, [0x61]⟩) ∧
        counters.received.packets = 1 ∧ counters.received.kinds = [1, 0, 0, 0, 0, 0, 0]) ∧
      ∃ received journal,
        w.engine.start (.still 9) (.input host (packet.set 8 0x62)) =
          .done { w.engine with counters := { w.engine.counters with received }, journal }
            (.error .invalid) ∧
        received.kinds = [0, 0, 0, 0, 0, 1, 0] := by
  intro host w packet
  obtain ⟨hadds, hreacts⟩ := one_reaction_each
  have hreach : World.Reach {} (fun _ => True) w := .step .new (.call _ .init (.still 7)) trivial
  have hdecode : Message.decode packet = .ok (.echoRequest ⟨0x1234, 1, [0x61]⟩) := by decide
  have hdamage : Message.decode (packet.set 8 0x62) = .error .badChecksum := by decide
  refine ⟨hadds {} w hreach, ?_, ?_⟩
  · obtain ⟨hcounts, hrequest, -, -⟩ := hreacts w.engine (.still 9) host packet rfl
    obtain ⟨reply, counters, hturn, hreply, -, -⟩ := hrequest _ hdecode (by decide)
    rw [hturn, hdecode] at hcounts
    exact ⟨reply, counters, hturn, hreply, hcounts.packets, hcounts.kinds⟩
  · obtain ⟨hcounts, -, -, hrejects⟩ :=
      hreacts w.engine (.still 9) host (packet.set 8 0x62) rfl
    obtain ⟨received, journal, hturn, -⟩ := hrejects _ hdamage
    rw [hturn, hdamage] at hcounts
    exact ⟨received, journal, hturn, hcounts.kinds⟩

end NetHost.Icmp
