import NetHost.Proofs.Icmp.Conservation
import NetHost.Proofs.Icmp.Integrity

/-!
# Error messages about echoes in flight

An error message quotes the start of a datagram.  That is enough: what is cut off is not looked at
when the quote is read (`quotedEcho?_quote`), so the echo that the message is about is the one that
the whole datagram carries.  The error message from any host on the way settles that echo
(`report_settles_echo`).
-/

namespace NetHost

/-! ## The start of a datagram -/

theorem Ipv4.Header.parse?_take {data : Bytes} {n : Nat} (hmin : minHeader ≤ n)
    (hheader : ∀ ip, parse? data = some ip → ip.length ≤ n) :
    parse? (data.take n) = parse? data := by
  have hget (i : Nat) (hi : i < minHeader) : (data.take n).getD i 0 = data.getD i 0 := by
    rw [List.getD_eq_getElem?_getD, List.getD_eq_getElem?_getD,
      List.getElem?_take_of_lt (Nat.lt_of_lt_of_le hi hmin)]
  have haddress (i : Nat) (hi : i + 3 < minHeader) :
      Address.readAt (data.take n) i = Address.readAt data i := by
    rw [Address.readAt, Address.readAt, hget i (by omega), hget (i + 1) (by omega),
      hget (i + 2) (by omega), hget (i + 3) hi]
  unfold parse? at hheader ⊢
  dsimp only at hheader
  simp only [hget 0 (by decide), hget 8 (by decide), hget 9 (by decide),
    haddress 12 (by decide), haddress 16 (by decide), List.length_take]
  generalize (data.getD 0 0 &&& 0x0F).toNat * 4 = length at hheader ⊢
  split_ifs at hheader with hbad
  · rw [if_pos hbad, if_pos]
    exact hbad.imp (by omega) (Or.imp_right (Or.imp_right (by omega)))
  · have hlength : length ≤ n := hheader _ rfl
    rw [if_neg hbad, if_neg]
    exact mt (Or.imp (by omega) (Or.imp_right (Or.imp_right (by omega)))) hbad

theorem Ipv4.Header.minHeader_le_length {data : Bytes} {ip : Ipv4.Header}
    (h : parse? data = some ip) : minHeader ≤ ip.length := by
  unfold parse? at h
  dsimp only at h
  split_ifs at h with hbad
  cases h
  simp only [not_or, Nat.not_lt] at hbad
  exact hbad.2.2.1

namespace Icmp

open Ipv4 (Address)

theorem Header.parse?_of_isPrefix {data data' : Bytes} {header : Header}
    (hparse : Header.parse? data = some header) (hpre : data <+: data') :
    Header.parse? data' = some header := by
  obtain ⟨rest, rfl⟩ := hpre
  unfold parse? at hparse
  split at hparse
  · cases hparse
    rfl
  · cases hparse

theorem Header.parse?_take {data : Bytes} {n : Nat} (hn : headerLength ≤ n) :
    Header.parse? (data.take n) = Header.parse? data := by
  cases hparse : Header.parse? (data.take n) with
  | some header => exact (Header.parse?_of_isPrefix hparse (List.take_prefix n data)).symm
  | none =>
    have hshort := Header.parse?_eq_none_iff.1 hparse
    rw [List.length_take] at hshort
    exact (Header.parse?_eq_none_iff.2 (by omega)).symm

namespace Packet

variable {datagram : Bytes} {ip : Ipv4.Header}

theorem take_quotedLength_of_some (h : Ipv4.Header.parse? datagram = some ip) :
    datagram.take (quotedLength datagram) = datagram.take (ip.length + quotedData) := by
  rw [quotedLength, h, Nat.min_comm, ← List.take_eq_take_min]

theorem take_quotedLength_of_none (h : Ipv4.Header.parse? datagram = none) :
    datagram.take (quotedLength datagram) = datagram.take (Ipv4.minHeader + quotedData) := by
  rw [quotedLength, h, Nat.min_comm, ← List.take_eq_take_min]

/-- A quote has the whole header of the datagram in it, if the datagram has one. -/
theorem parse?_quote (datagram : Bytes) :
    Ipv4.Header.parse? (datagram.take (quotedLength datagram)) = Ipv4.Header.parse? datagram := by
  cases h : Ipv4.Header.parse? datagram with
  | none =>
    rw [take_quotedLength_of_none h, Ipv4.Header.parse?_take (Nat.le_add_right _ _), h]
    rw [h]
    nofun
  | some ip =>
    have hmin : Ipv4.minHeader ≤ ip.length := Ipv4.Header.minHeader_le_length h
    rw [take_quotedLength_of_some h, Ipv4.Header.parse?_take (Nat.le_add_right_of_le hmin), h]
    rintro _ hip
    rw [h] at hip
    cases hip
    exact Nat.le_add_right _ _

end Packet

/-- Quoted in part, a datagram tells of the same echo as in full. -/
theorem Report.quotedEcho?_quote (code : UInt8) (datagram : Bytes) :
    (⟨code, datagram.take (Packet.quotedLength datagram)⟩ : Report).quotedEcho? =
      (⟨code, datagram⟩ : Report).quotedEcho? := by
  simp only [quotedEcho?, Packet.parse?_quote]
  cases h : Ipv4.Header.parse? datagram with
  | none => rfl
  | some ip =>
    have hbody : Header.parse? ((datagram.take (Packet.quotedLength datagram)).drop ip.length) =
        Header.parse? (datagram.drop ip.length) := by
      rw [Packet.take_quotedLength_of_some h, List.drop_take, Nat.add_sub_cancel_left]
      exact Header.parse?_take (Nat.le_refl headerLength)
    simp only [Option.bind_eq_bind, Option.bind_some, hbody]

/-! ## Writing an error message and reading it -/

/-- The kinds of error messages, with the messages that they are read as. -/
inductive Reports : Kind → (Report → Message) → Prop where
  | unreachable : Reports .unreachable .unreachable
  | timeExceeded : Reports .timeExceeded .timeExceeded

variable {kind : Kind} {message : Report → Message}

theorem Header.length_toBytes (h : Header) : h.toBytes.length = headerLength := rfl

namespace Packet

theorem length_withChecksum (data : Bytes) : (withChecksum data).length = data.length := by
  unfold withChecksum
  split <;> rfl

theorem length_report (kind : Kind) (r : Report) :
    (report kind r).length = reportLength r.datagram := by
  have hquote : quotedLength r.datagram ≤ r.datagram.length := Nat.min_le_left _ _
  rw [report, length_withChecksum, List.length_append, Header.length_toBytes, List.length_take,
    Nat.min_eq_left hquote, reportLength]

theorem decode_report (hkind : Reports kind message) (r : Report) :
    Message.decode (report kind r) =
      .ok (message ⟨r.code, r.datagram.take (quotedLength r.datagram)⟩) := by
  have hintact : Checksum.isIntact (report kind r) := by
    refine isIntact_withChecksum ?_
    rw [List.length_append]
    exact Nat.le_add_right _ _
  have hblank (quote : Bytes) : Header.toBytes ⟨kind.toByte, r.code, 0, 0, 0⟩ ++ quote =
      kind.toByte :: r.code :: 0 :: 0 :: 0 :: 0 :: 0 :: 0 :: quote := by
    have hzero : Bytes.ofWord 0 = [0, 0] := by decide
    simp only [Header.toBytes, hzero]
    rfl
  obtain ⟨hi, lo, hform⟩ : ∃ hi lo, report kind r = kind.toByte :: r.code :: hi :: lo ::
      0 :: 0 :: 0 :: 0 :: r.datagram.take (quotedLength r.datagram) := by
    rw [report, hblank]
    exact exists_withChecksum _ _ _ _ _
  have hparse : Header.parse? (report kind r) =
      some ⟨kind.toByte, r.code, Bytes.word hi lo, Bytes.word 0 0, Bytes.word 0 0⟩ := by
    rw [hform]
    rfl
  have hbody : (report kind r).drop headerLength =
      r.datagram.take (quotedLength r.datagram) := by
    rw [hform]
    rfl
  simp only [Message.decode, hparse, hintact, hbody, Kind.ofByte?_toByte, Bool.not_true,
    Bool.false_eq_true, if_false]
  cases hkind <;> rfl

theorem place_of_le {buffer message : Bytes} (h : message.length ≤ buffer.length) :
    place buffer message = (.ok message.length, message ++ buffer.drop message.length) := by
  rw [place, if_neg (Nat.not_lt.2 h), Bytes.overwrite, List.take_zero, List.nil_append,
    Nat.zero_add]

theorem writeReport_eq (hkind : Reports kind message) {r : Report} {buffer : Bytes}
    (hroom : reportLength r.datagram ≤ buffer.length) :
    writeReport buffer kind r =
      (.ok (report kind r).length, report kind r ++ buffer.drop (report kind r).length) := by
  have hwrites : ¬ (kind ≠ .unreachable ∧ kind ≠ .timeExceeded) := by
    cases hkind <;> decide
  have hfits : (report kind r).length ≤ buffer.length := by
    rw [length_report]
    exact hroom
  rw [writeReport, if_neg hwrites, place_of_le hfits]

end Packet

/-! ## The echo that a datagram carries -/

/-- The datagram goes to the destination of an echo, and carries the request. -/
def Carries (datagram : Bytes) (key : EchoKey) : Prop :=
  ∃ ip packet payload, Ipv4.Header.parse? datagram = some ip ∧
    ip.protocol = protocolNumber ∧ ip.destination = key.destination ∧
    packet <+: datagram.drop ip.length ∧
    Message.decode packet = .ok (.echoRequest ⟨key.identifier, key.sequence, payload⟩)

theorem Kind.toByte_of_ofByte? {b : UInt8} {k : Kind} (h : Kind.ofByte? b = some k) :
    k.toByte = b := by
  simpa using List.find?_some h

theorem Message.parse?_of_echoRequest {packet : Bytes} {echo : Echo}
    (h : decode packet = .ok (.echoRequest echo)) :
    ∃ header, Header.parse? packet = some header ∧ header.kind = Kind.echoRequest.toByte ∧
      header.identifier = echo.identifier ∧ header.sequence = echo.sequence := by
  unfold decode at h
  split at h
  · cases h
  · rename_i header hparse
    split_ifs at h
    simp only [Except.ok.injEq] at h
    split at h
    · rename_i hkind
      cases h
      exact ⟨header, hparse, (Kind.toByte_of_ofByte? hkind).symm, rfl, rfl⟩
    all_goals cases h

theorem Carries.quotedEcho? {datagram : Bytes} {key : EchoKey} (h : Carries datagram key)
    (code : UInt8) : (⟨code, datagram⟩ : Report).quotedEcho? = some key := by
  obtain ⟨ip, packet, payload, hip, hprotocol, hdestination, hpre, hdecode⟩ := h
  obtain ⟨header, hparse, hkind, hidentifier, hsequence⟩ := Message.parse?_of_echoRequest hdecode
  have hheader := Header.parse?_of_isPrefix hparse hpre
  simp only [Report.quotedEcho?, hip, Option.bind_eq_bind, Option.bind_some, if_pos hprotocol,
    hheader, if_pos hkind, hdestination, hidentifier, hsequence]

/-! ## The echo in flight -/

variable {e : Engine} {r : Report} {packet : Bytes}

theorem Engine.input_of_report (hkind : Reports kind message) (hready : e.ready)
    (hdecode : Message.decode packet = .ok (message r)) (t : Clock) (source : Address) :
    ∃ counters, e.start t (.input source packet) =
      .done (({ e with counters } : Engine).handleReport source kind r) (.ok none) := by
  cases hkind with
  | unreachable =>
    simp only [start, input, hready, hdecode, Bool.not_true, Bool.false_eq_true, if_false]
    exact ⟨_, rfl⟩
  | timeExceeded =>
    simp only [start, input, hready, hdecode, Bool.not_true, Bool.false_eq_true, if_false]
    exact ⟨_, rfl⟩

/-- The report settles one echo with the key it quotes, as an error of the session. -/
theorem Engine.handleReport_of_quotedEcho? {p : PendingEcho} (hp : p ∈ e.pending.entries)
    (howns : e.owns p.key.identifier) (hquoted : r.quotedEcho? = some p.key) (source : Address)
    (kind : Kind) :
    ∃ q pending journal, e.handleReport source kind r =
        { e with pending, statistics := e.statistics.recordError, journal } ∧
      q.key = p.key ∧ e.pending.entries.Perm (q :: pending.entries) := by
  have hsome : e.pending.take? p.key ≠ none :=
    fun hnone => PendingTable.take?_eq_none_iff.1 hnone p hp rfl
  obtain ⟨⟨q, pending⟩, htake⟩ := Option.ne_none_iff_exists'.1 hsome
  obtain ⟨hkey, hperm⟩ := PendingTable.perm_entries_of_take? htake
  have hbind : r.quotedEcho?.bind e.pending.take? = some (q, pending) := by
    rw [hquoted]
    exact htake
  have howns' : ({ e with pending } : Engine).owns q.key.identifier := by
    rw [hkey]
    exact howns
  simp only [handleReport, hbind, recordError, if_pos howns']
  exact ⟨q, pending, _, rfl, hkey, hperm⟩

/-- An error message about a datagram can be written into every buffer that has room for it.  It
is read as quoting the start of the datagram, which tells of the same echo as all of it.  If an
echo is in flight whose request the datagram carries, the message settles one echo with its key,
from wherever it comes, as an error of the session. -/
theorem report_settles_echo (hkind : Reports kind message) (code : UInt8)
    (datagram buffer : Bytes) (hroom : Packet.reportLength datagram ≤ buffer.length) :
    ∃ packet,
      Packet.writeReport buffer kind ⟨code, datagram⟩ =
        (.ok packet.length, packet ++ buffer.drop packet.length) ∧
      packet.length = Packet.reportLength datagram ∧
      (let quote : Report := ⟨code, datagram.take (Packet.quotedLength datagram)⟩
       Message.decode packet = .ok (message quote) ∧
       quote.quotedEcho? = (⟨code, datagram⟩ : Report).quotedEcho?) ∧
      ∀ config w p, World.Reach config (fun _ => True) w → p ∈ w.engine.pending.entries →
        Carries datagram p.key → ∀ t source, ∃ q pending counters journal,
          w.engine.start t (.input source packet) =
            .done { w.engine with
              pending, statistics := w.engine.statistics.recordError, counters, journal }
              (.ok none) ∧
          q.key = p.key ∧ w.engine.pending.entries.Perm (q :: pending.entries) := by
  have hdecode := Packet.decode_report hkind ⟨code, datagram⟩
  have hquoted := Report.quotedEcho?_quote code datagram
  refine ⟨Packet.report kind ⟨code, datagram⟩, Packet.writeReport_eq hkind hroom,
    Packet.length_report kind _, ⟨hdecode, hquoted⟩, ?_⟩
  intro config w p hreach hp hcarries t source
  have howns := hreach.conserves.owned p hp
  obtain ⟨s, hs, -⟩ := (w.engine.owns_iff _).1 howns
  obtain ⟨counters, hinput⟩ :=
    Engine.input_of_report hkind (hreach.ready_of_session hs) hdecode t source
  obtain ⟨q, pending, journal, hhandle, hkey, hperm⟩ :=
    Engine.handleReport_of_quotedEcho? (e := { w.engine with counters }) hp howns
      (hquoted.trans (hcarries.quotedEcho? code)) source kind
  rw [hhandle] at hinput
  exact ⟨q, pending, counters, journal, hinput, hkey, hperm⟩

/-- A router on the way has no route.  It quotes a header with options, and the request in part. -/
theorem report_from_router_settles :
    let host : Address := ⟨10, 0, 2, 2⟩
    let ready : World := ({ engine := .new {} } : World).call .init (.still 7)
    let w := ready.call (.startPing host) (.still 7)
    let header : Bytes := [0x46, 0, 0, 34, 0, 0, 0, 0, 64, 1, 0, 0, 10, 0, 2, 15, 10, 0, 2, 2,
      1, 1, 1, 0]
    let datagram := header ++ Packet.echo .echoRequest ⟨0x95CC, 0, [0x61, 0x62]⟩
    ∃ packet pending counters journal,
      Packet.writeReport (List.replicate 64 0xFF) .unreachable ⟨0, datagram⟩ =
        (.ok 40, packet ++ List.replicate 24 0xFF) ∧
      w.engine.start (.still 9) (.input ⟨10, 0, 2, 1⟩ packet) =
        .done { w.engine with
          pending, statistics := w.engine.statistics.recordError, counters, journal } (.ok none) ∧
      w.engine.pending.count = 1 ∧ pending.count = 0 := by
  intro host ready w header datagram
  have hreach : World.Reach {} (fun _ => True) w :=
    .step (.step .new (.call _ .init _) trivial) (.call ready _ _) trivial
  let p : PendingEcho := ⟨⟨host, 0x95CC, 0⟩, 7, 1000⟩
  have hp : p ∈ w.engine.pending.entries := by decide
  have hcarries : Carries datagram p.key :=
    ⟨⟨24, 1, 64, ⟨10, 0, 2, 15⟩, host⟩, _, [0x61, 0x62], by decide, rfl, rfl, List.prefix_refl _,
      by decide⟩
  obtain ⟨packet, hwrites, hlength, -, hsettles⟩ := report_settles_echo .unreachable 0 datagram
    (List.replicate 64 0xFF) (by decide)
  obtain ⟨q, pending, counters, journal, hstart, -, hperm⟩ :=
    hsettles {} w p hreach hp hcarries (.still 9) ⟨10, 0, 2, 1⟩
  have hforty : packet.length = 40 := hlength.trans (by decide)
  rw [hforty] at hwrites
  have hcount : w.engine.pending.count = 1 := by decide
  have hrest := PendingTable.count_of_perm hperm
  exact ⟨packet, pending, counters, journal, hwrites, hstart, hcount, by omega⟩

end Icmp

end NetHost
