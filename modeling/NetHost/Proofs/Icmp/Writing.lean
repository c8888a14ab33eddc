import NetHost.Proofs.Icmp.Loopback

/-!
# Echo messages in a buffer

An echo message is written at the start of a buffer that has room for it, and the rest of the buffer
keeps its bytes.  If it cannot be written, then all of the buffer does, and the same goes for error
messages.

What was written is read back.  The other way round, an echo message that was read is written as it
was, save for its checksum: there are two ways to write zero there, of which both are read and one
is written (`echo_of_decode`).  Both ways are in `echoes_round_trip`.
-/

namespace NetHost

theorem Bytes.word_eq_max_iff {hi lo : UInt8} : word hi lo = 0xFFFF ↔ [hi, lo] = [0xFF, 0xFF] := by
  have hmax : ofWord 0xFFFF = [0xFF, 0xFF] := by decide
  constructor
  · intro h
    rw [← ofWord_word, h, hmax]
  · intro h
    obtain ⟨rfl, rfl⟩ : hi = 0xFF ∧ lo = 0xFF := by simpa using h
    decide

theorem Checksum.total_ne_zero_iff {data : Bytes} : total data ≠ 0 ↔ ∃ b ∈ data, b ≠ 0 := by
  rw [ne_eq, total_eq_zero_iff, not_forall₂]
  simp only [exists_prop, ne_eq]

namespace Icmp

variable {kind : Kind} {message : Echo → Message} {buffer packet : Bytes} {e : Echo} {r : Report}

theorem exists_echoes_iff :
    (∃ message, Echoes kind message) ↔ kind = .echoRequest ∨ kind = .echoReply := by
  constructor
  · rintro ⟨message, _ | _⟩
    · exact .inl rfl
    · exact .inr rfl
  · rintro (rfl | rfl)
    · exact ⟨_, .request⟩
    · exact ⟨_, .reply⟩

namespace Packet

/-! ## The buffer -/

theorem length_echo (kind : Kind) (e : Echo) :
    (echo kind e).length = headerLength + e.payload.length := by
  rw [echo, length_withChecksum, List.length_append, Header.length_toBytes]

/-- The echo `e` can be written into the buffer as a message of that kind. -/
structure Writable (buffer : Bytes) (kind : Kind) (e : Echo) : Prop where
  kind : kind = .echoRequest ∨ kind = .echoReply
  size : e.payload.length ≤ maxPayload
  room : headerLength + e.payload.length ≤ buffer.length

theorem writeEcho_of_writable (h : Writable buffer kind e) :
    writeEcho buffer kind e =
      (.ok (echo kind e).length, echo kind e ++ buffer.drop (echo kind e).length) := by
  have hwrites : ¬ ((kind ≠ .echoRequest ∧ kind ≠ .echoReply) ∨ e.payload.length > maxPayload) :=
    not_or.2 ⟨Decidable.or_iff_not_not_and_not.1 h.kind, Nat.not_lt.2 h.size⟩
  have hfits : (echo kind e).length ≤ buffer.length := by
    rw [length_echo]
    exact h.room
  rw [writeEcho, if_neg hwrites, place_of_le hfits]

theorem writeEcho_of_not_writable (h : ¬ Writable buffer kind e) :
    writeEcho buffer kind e = (.error .invalid, buffer) := by
  unfold writeEcho place
  split_ifs with hbad hlong
  · rfl
  · rfl
  · obtain ⟨hkind, hsize⟩ := not_or.1 hbad
    rw [length_echo] at hlong
    exact absurd ⟨Decidable.or_iff_not_not_and_not.2 hkind, by omega, by omega⟩ h

theorem place_of_error {cause : Error} (h : (place buffer packet).1 = .error cause) :
    (place buffer packet).2 = buffer := by
  unfold place at h ⊢
  split_ifs at h ⊢
  rfl

theorem writeReport_of_error {cause : Error} (h : (writeReport buffer kind r).1 = .error cause) :
    (writeReport buffer kind r).2 = buffer := by
  unfold writeReport at h ⊢
  split_ifs at h ⊢
  · rfl
  · exact place_of_error h

/-! ## What is read is written -/

/-- The message with a checksum that reads 0xFFFF written as zero.  The sum of nothing but zeros is
the only one whose checksum is computed as 0xFFFF. -/
def oneZero (packet : Bytes) : Bytes :=
  let blank := packet.overwrite 2 [0, 0]
  if (packet.drop 2).take 2 = [0xFF, 0xFF] ∧ ∃ b ∈ blank, b ≠ 0 then blank else packet

theorem oneZero_cons (kind code c₁ c₂ : UInt8) (rest : Bytes) :
    oneZero (kind :: code :: c₁ :: c₂ :: rest) =
      if Bytes.word c₁ c₂ = 0xFFFF ∧ Checksum.total (kind :: code :: 0 :: 0 :: rest) ≠ 0 then
        kind :: code :: 0 :: 0 :: rest
      else kind :: code :: c₁ :: c₂ :: rest := by
  simp only [Bytes.word_eq_max_iff, Checksum.total_ne_zero_iff]
  rfl

/-- Sealing a message that is intact leaves it as it is, up to the way in which zero is written. -/
theorem withChecksum_of_isIntact (hlength : headerLength ≤ packet.length)
    (hintact : Checksum.isIntact packet) : withChecksum packet = oneZero packet := by
  match packet, hlength with
  | kind :: code :: c₁ :: c₂ :: rest, _ =>
    have hzero : Bytes.ofWord 0 = [0, 0] := by decide
    rw [withChecksum, Checksum.checksum_of_isIntact hintact, oneZero_cons]
    split_ifs
    · rw [hzero]
      rfl
    · rw [Bytes.ofWord_word]
      rfl

end Packet

theorem Message.form_of_echo (hkind : Echoes kind message)
    (hdecode : decode packet = .ok (message e)) :
    ∃ code c₁ c₂ i₁ i₂ s₁ s₂,
      packet = kind.toByte :: code :: c₁ :: c₂ :: i₁ :: i₂ :: s₁ :: s₂ :: e.payload ∧
      e.identifier = Bytes.word i₁ i₂ ∧ e.sequence = Bytes.word s₁ s₂ := by
  obtain ⟨hlength, hintact⟩ := decode_eq_ok_iff.1 ⟨_, hdecode⟩
  match packet, hlength with
  | k :: code :: c₁ :: c₂ :: i₁ :: i₂ :: s₁ :: s₂ :: payload, _ =>
    simp only [decode, Header.parse?, hintact, Bool.not_true, Bool.false_eq_true, if_false,
      Except.ok.injEq] at hdecode
    refine ⟨code, c₁, c₂, i₁, i₂, s₁, s₂, ?_⟩
    split at hdecode
    case h_1 hk | h_2 hk =>
      cases hkind <;> cases hdecode
      rw [Kind.toByte_of_ofByte? hk]
      exact ⟨rfl, rfl, rfl⟩
    all_goals cases hkind <;> cases hdecode

theorem Packet.echo_of_decode (hkind : Echoes kind message)
    (hdecode : Message.decode packet = .ok (message e)) (hcode : packet[1]? = some 0) :
    echo kind e = oneZero packet := by
  obtain ⟨hlength, hintact⟩ := Message.decode_eq_ok_iff.1 ⟨_, hdecode⟩
  obtain ⟨code, c₁, c₂, i₁, i₂, s₁, s₂, rfl, hidentifier, hsequence⟩ :=
    Message.form_of_echo hkind hdecode
  obtain rfl : code = 0 := Option.some.inj hcode
  rw [← withChecksum_of_isIntact hlength hintact, echo, Header.toBytes, hidentifier, hsequence,
    Bytes.ofWord_word, Bytes.ofWord_word]
  rfl

theorem Message.length_of_echo (hkind : Echoes kind message)
    (hdecode : decode packet = .ok (message e)) :
    packet.length = headerLength + e.payload.length := by
  obtain ⟨_, _, _, _, _, _, _, rfl, -, -⟩ := form_of_echo hkind hdecode
  simp only [List.length_cons, headerLength]
  omega

/-- Only requests and replies are written as echo messages, if their payload is not too long and the
buffer has room for it.  Then the buffer starts with the message, which is read as what was written,
and keeps the bytes behind it.  In all other cases it is left alone, as it is by an error message
that cannot be written.  An echo message that was read, with no code, is written in the same bytes,
save for a checksum that was the other zero. -/
theorem echoes_round_trip :
    (∀ (buffer : Bytes) (kind : Kind) (e : Echo),
      let n := headerLength + e.payload.length
      (Packet.Writable buffer kind e → ∃ packet message,
        Packet.writeEcho buffer kind e = (.ok n, packet ++ buffer.drop n) ∧ packet.length = n ∧
        Echoes kind message ∧ Message.decode packet = .ok (message e)) ∧
      (¬ Packet.Writable buffer kind e →
        Packet.writeEcho buffer kind e = (.error .invalid, buffer))) ∧
    (∀ (buffer : Bytes) (kind : Kind) (r : Report) (cause : Error),
      (Packet.writeReport buffer kind r).1 = .error cause →
        (Packet.writeReport buffer kind r).2 = buffer) ∧
    ∀ (kind : Kind) (message : Echo → Message) (e : Echo) (packet : Bytes), Echoes kind message →
      Message.decode packet = .ok (message e) → packet[1]? = some 0 →
      e.payload.length ≤ maxPayload → ∀ buffer : Bytes, packet.length ≤ buffer.length →
        Packet.writeEcho buffer kind e =
          (.ok packet.length, Packet.oneZero packet ++ buffer.drop packet.length) := by
  refine ⟨fun buffer kind e => ⟨fun h => ?_, Packet.writeEcho_of_not_writable⟩,
    fun _ _ _ _ => Packet.writeReport_of_error, ?_⟩
  · have hwrites := Packet.writeEcho_of_writable h
    rw [Packet.length_echo] at hwrites
    obtain ⟨message, hkind⟩ := exists_echoes_iff.2 h.kind
    exact ⟨_, message, hwrites, Packet.length_echo kind e, hkind, Packet.decode_echo hkind e⟩
  · intro kind message e packet hkind hdecode hcode hsize buffer hroom
    have hlength := Message.length_of_echo hkind hdecode
    have hkinds := exists_echoes_iff.1 ⟨message, hkind⟩
    rw [Packet.writeEcho_of_writable ⟨hkinds, hsize, hlength ▸ hroom⟩, Packet.length_echo,
      Packet.echo_of_decode hkind hdecode hcode, hlength]

/-- A reply with the other zero as its checksum.  Written again, it has the one. -/
theorem other_zero_rewritten :
    let packet : Bytes := [0, 0, 0xFF, 0xFF, 0, 0, 0xFF, 0xFF]
    Packet.writeEcho (List.replicate 10 7) .echoReply ⟨0, 0xFFFF, []⟩ =
        (.ok 8, [0, 0, 0, 0, 0, 0, 0xFF, 0xFF, 7, 7]) ∧
      Message.decode packet = .ok (.echoReply ⟨0, 0xFFFF, []⟩) ∧
      Packet.Writable (List.replicate 10 7) .echoReply ⟨0, 0xFFFF, []⟩ ∧
      ¬ Packet.Writable (List.replicate 7 7) .echoReply ⟨0, 0xFFFF, []⟩ ∧
      Packet.writeEcho (List.replicate 7 7) .echoReply ⟨0, 0xFFFF, []⟩ =
        (.error .invalid, List.replicate 7 7) ∧
      (Packet.writeReport [1, 2, 3] .unreachable ⟨0, []⟩).2 = [1, 2, 3] := by
  intro packet
  obtain ⟨hecho, hreport, hback⟩ := echoes_round_trip
  have hdecode : Message.decode packet = .ok (.echoReply ⟨0, 0xFFFF, []⟩) := by decide
  have hshort : ¬ Packet.Writable (List.replicate 7 7) .echoReply ⟨0, 0xFFFF, []⟩ :=
    fun h => absurd h.room (by decide)
  refine ⟨?_, hdecode, ⟨.inr rfl, by decide, by decide⟩, hshort, (hecho _ _ _).2 hshort,
    hreport _ _ _ .invalid (by decide)⟩
  have hwrites := hback .echoReply _ _ packet .reply hdecode rfl (by decide)
    (List.replicate 10 7) (by decide)
  have hzero : Packet.oneZero packet = [0, 0, 0, 0, 0, 0, 0xFF, 0xFF] := by decide
  rw [hzero] at hwrites
  exact hwrites

end Icmp

end NetHost
