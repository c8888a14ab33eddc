import NetHost.Icmp.Engine.Call
import NetHost.Proofs.Checksum

/-!
# Messages that are changed on their way

A message that was sealed with its checksum is intact (`isIntact_withChecksum`).  One changed byte
shows, since the word it is in does not count the same any more.  The engine drops such a message,
and nothing else happens (`changed_byte_dropped`).  If nothing is changed, an echo message is read
as it was written (`Packet.decode_echo`).
-/

namespace NetHost.Icmp

open Checksum

/-! ## Sealing a message -/

namespace Packet

variable {message : Bytes}

theorem withChecksum_eq (h : headerLength ≤ message.length) :
    withChecksum message =
      message.overwrite 2 (Bytes.ofWord (checksum (message.overwrite 2 [0, 0]))) := by
  match message, h with
  | kind :: code :: _ :: _ :: rest, _ => rfl

theorem isIntact_withChecksum (h : headerLength ≤ message.length) :
    isIntact (withChecksum message) := by
  match message, h with
  | kind :: code :: _ :: _ :: rest, _ => exact isIntact_of_checksum rfl

/-- Sealing a message leaves all of it as it was, save for the checksum. -/
theorem exists_withChecksum (b₀ b₁ b₂ b₃ : UInt8) (rest : Bytes) :
    ∃ hi lo, withChecksum (b₀ :: b₁ :: b₂ :: b₃ :: rest) = b₀ :: b₁ :: hi :: lo :: rest :=
  ⟨_, _, rfl⟩

end Packet

/-! ## Reading a message -/

variable {data : Bytes}

theorem Header.parse?_eq_none_iff : Header.parse? data = none ↔ data.length < headerLength := by
  constructor
  · intro h
    by_contra hlong
    match data, Nat.not_lt.1 hlong with
    | _ :: _ :: _ :: _ :: _ :: _ :: _ :: _ :: _, _ => cases h
  · intro h
    unfold parse?
    split
    · simp only [List.length_cons, headerLength] at h
      omega
    · rfl

namespace Message

/-- Reading a message fails if it is too short, and if its checksum does not fit. -/
theorem decode_eq_ok_iff :
    (∃ message, decode data = .ok message) ↔ headerLength ≤ data.length ∧ isIntact data := by
  unfold decode
  cases hheader : Header.parse? data with
  | none =>
    have hshort := Header.parse?_eq_none_iff.1 hheader
    simp only [reduceCtorEq, exists_false, false_iff]
    omega
  | some header =>
    have hlong : headerLength ≤ data.length := by
      rw [← Nat.not_lt, ← Header.parse?_eq_none_iff, hheader]
      nofun
    cases hintact : isIntact data with
    | false => simp
    | true => simp [hlong]

theorem decode_of_not_isIntact (hlength : headerLength ≤ data.length) (hbad : ¬ isIntact data) :
    decode data = .error .badChecksum := by
  have hheader : Header.parse? data ≠ none := by
    rw [ne_eq, Header.parse?_eq_none_iff]
    omega
  unfold decode
  split
  · contradiction
  · rw [if_pos (by simpa using hbad)]

end Message

/-- The kinds of echo messages, with the messages that they are read as. -/
inductive Echoes : Kind → (Echo → Message) → Prop where
  | request : Echoes .echoRequest .echoRequest
  | reply : Echoes .echoReply .echoReply

theorem Packet.decode_echo {kind : Kind} {message : Echo → Message} (hkind : Echoes kind message)
    (echo : Echo) : Message.decode (Packet.echo kind echo) = .ok (message echo) := by
  have hintact : Checksum.isIntact (Packet.echo kind echo) := by
    refine isIntact_withChecksum ?_
    rw [List.length_append]
    exact Nat.le_add_right _ _
  obtain ⟨hi, lo, hform⟩ : ∃ hi lo, Packet.echo kind echo = kind.toByte :: 0 :: hi :: lo ::
      (Bytes.ofWord echo.identifier ++ Bytes.ofWord echo.sequence ++ echo.payload) :=
    exists_withChecksum _ _ _ _ _
  have hparse : Header.parse? (Packet.echo kind echo) =
      some ⟨kind.toByte, 0, Bytes.word hi lo, echo.identifier, echo.sequence⟩ := by
    rw [hform]
    simp only [Bytes.ofWord, List.cons_append, List.nil_append, Header.parse?, Bytes.word_ofWord]
  have hbody : (Packet.echo kind echo).drop headerLength = echo.payload := by
    rw [hform]
    rfl
  simp only [Message.decode, hparse, hintact, hbody, Kind.ofByte?_toByte, Bool.not_true,
    Bool.false_eq_true, if_false]
  cases hkind <;> rfl

/-- A message that cannot be read is counted as a packet and by its damage, and nothing else. -/
theorem Engine.input_of_damage {e : Engine} {damage : Damage} (hready : e.ready)
    (hdecode : Message.decode data = .error damage) (t : Clock) (source : Ipv4.Address) :
    ∃ received journal, e.start t (.input source data) =
        .done { e with counters := { e.counters with received }, journal } (.error .invalid) ∧
      received.unmatched = e.counters.received.unmatched := by
  simp only [start, input, hready, hdecode, Bool.not_true, Bool.false_eq_true, if_false]
  cases damage with
  | truncated => exact ⟨_, _, rfl, rfl⟩
  | badChecksum => exact ⟨_, _, rfl, rfl⟩

theorem Engine.input_of_badChecksum {e : Engine} (hready : e.ready)
    (hdecode : Message.decode data = .error .badChecksum) (t : Clock) (source : Ipv4.Address) :
    ∃ counters journal,
      e.start t (.input source data) = .done { e with counters, journal } (.error .invalid) := by
  obtain ⟨received, journal, h, -⟩ := input_of_damage hready hdecode t source
  exact ⟨_, journal, h⟩

/-- A sealed message is intact.  With one word replaced by another, other than one zero by the
other, intact data is intact no more.  So the engine drops an intact message of which one byte was
changed: the call ends at once, and has done no more than to count and report that. -/
theorem changed_byte_dropped :
    (∀ message : Bytes, headerLength ≤ message.length →
      Packet.withChecksum message =
        message.overwrite 2 (Bytes.ofWord (checksum (message.overwrite 2 [0, 0]))) ∧
      isIntact (Packet.withChecksum message)) ∧
    (∀ (data data' : Bytes) (i : Nat) (w w' : UInt16), isIntact data → (words data)[i]? = some w →
      words data' = (words data).set i w' → w' ≠ w → ¬ (w = 0 ∧ w' = 0xFFFF) →
      ¬ (w = 0xFFFF ∧ w' = 0) → ¬ isIntact data') ∧
    ∀ (data : Bytes) (message : Message) (j : Nat) (b b' : UInt8),
      Message.decode data = .ok message → data[j]? = some b → b' ≠ b →
      Message.decode (data.set j b') = .error .badChecksum ∧
      ∀ (e : Engine) (t : Clock) (source : Ipv4.Address), e.ready → ∃ counters journal,
        e.start t (.input source (data.set j b')) =
          .done { e with counters, journal } (.error .invalid) := by
  refine ⟨fun message h => ⟨Packet.withChecksum_eq h, Packet.isIntact_withChecksum h⟩, ?_, ?_⟩
  · intro data data' i w w' hintact hw hset hne hzeros hzeros'
    refine not_isIntact_of_set hintact hw hset ?_
    rintro (rfl | h | h)
    · exact hne rfl
    · exact hzeros h
    · exact hzeros' h
  · intro data message j b b' hdecode hb hne
    obtain ⟨hlength, hintact⟩ := Message.decode_eq_ok_iff.1 ⟨message, hdecode⟩
    obtain ⟨i, w, w', hw, hset, hvalue⟩ := exists_set_words hb hne
    have hbad : Message.decode (data.set j b') = .error .badChecksum := by
      refine Message.decode_of_not_isIntact ?_ (not_isIntact_of_set hintact hw hset hvalue)
      rw [List.length_set]
      exact hlength
    exact ⟨hbad, fun e t source hready => e.input_of_badChecksum hready hbad t source⟩

/-- The last byte of an echo request is the high half of a word.  Changed, it shows. -/
theorem changed_last_byte_dropped :
    let message : Bytes := [8, 0, 0xAA, 0xAA, 0x12, 0x34, 0, 1, 0x61]
    let data := Packet.withChecksum message
    let e := (Engine.new {}).init
    isIntact data ∧ ¬ isIntact (data.set 8 0x62) ∧ ∃ counters journal,
      e.start (.still 7) (.input ⟨10, 0, 2, 2⟩ (data.set 8 0x62)) =
        .done { e with counters, journal } (.error .invalid) := by
  intro message data e
  obtain ⟨hseals, hshows, hdrops⟩ := changed_byte_dropped
  have hintact : isIntact data := (hseals message (by decide)).2
  have hdecode : Message.decode data = .ok (.echoRequest ⟨0x1234, 1, [0x61]⟩) := by decide
  refine ⟨hintact, ?_, (hdrops data _ 8 0x61 0x62 hdecode rfl (by decide)).2 e _ _ rfl⟩
  exact hshows data (data.set 8 0x62) 4 0x6100 0x6200 hintact (by decide) (by decide) (by decide)
    (by decide) (by decide)

end NetHost.Icmp
