import Mathlib.Tactic.Common
import NetHost.Proofs.Http.Framing

/-!
# Written responses are read back

A sender writes a response and delimits its body in one of three ways.  A reader that takes what
was written comes to the same response, framing field included, as long as the body is not longer
than it may be, and refuses the response otherwise (`Reader.read_back`).  The three ways agree on
that limit.
-/

namespace NetHost.Http

/-! ## What is written -/

/-- A text that a line gives back as it is: on one line, without blanks at its ends, and short. -/
@[mk_iff]
structure IsText (limit : Nat) (s : Bytes) : Prop where
  valid : Utf8.isValid s
  lf : Ascii.lf ∉ s
  trim : Ascii.trim s = s
  length : s.length < limit

instance (limit : Nat) (s : Bytes) : Decidable (IsText limit s) :=
  decidable_of_iff' _ (isText_iff limit s)

theorem IsText.mono {limit limit' : Nat} {s : Bytes} (h : IsText limit s) (hle : limit ≤ limit') :
    IsText limit' s :=
  ⟨h.valid, h.lf, h.trim, Nat.lt_of_lt_of_le h.length hle⟩

theorem isText_render {base n : Nat} (hbase : 1 < base) (hmax : base ≤ 16)
    (hn : n < Numeral.limit) : IsText 65 (Numeral.render base n) where
  valid := Numeral.isValid_render hbase hmax n
  lf := Numeral.not_mem_render hbase hmax n (.inl (by decide))
  trim := Numeral.trim_render hbase hmax n
  length := Nat.lt_succ_of_le (Numeral.length_render_le hbase hn)

namespace Header

def line (field : Header) : Bytes := field.name ++ Ascii.colon :: Ascii.space :: field.value

@[mk_iff]
structure Writable (field : Header) : Prop where
  name : IsText Headers.maxName field.name
  name_ne_nil : field.name ≠ []
  colon : Ascii.colon ∉ field.name
  value : IsText Headers.maxValue field.value

instance (field : Header) : Decidable field.Writable := decidable_of_iff' _ (writable_iff field)

/-- A field that says nothing about where the body ends. -/
@[mk_iff]
structure Plain (field : Header) : Prop extends Writable field where
  contentLength : ¬ Ascii.sameIgnoringCase field.name (utf8 "Content-Length")
  transferEncoding : ¬ Ascii.sameIgnoringCase field.name (utf8 "Transfer-Encoding")

instance (field : Header) : Decidable field.Plain := decidable_of_iff' _ (plain_iff field)

end Header

/-- The fields of a header, a line each. -/
def writeFields (fields : List Header) : Bytes :=
  fields.flatMap fun field => field.line ++ Ascii.crlf

/-- A body, given in chunks, in chunked form. -/
def Chunked.write : List Bytes → Bytes
  | [] => Numeral.hex 0 ++ Ascii.crlf ++ Ascii.crlf
  | data :: chunks =>
    Numeral.hex data.length ++ Ascii.crlf ++ data ++ Ascii.crlf ++ write chunks

/-- A body and the way in which its end is told. -/
inductive Payload where
  | sized (body : Bytes)
  | chunked (chunks : List Bytes)
  /-- The body ends with the connection. -/
  | untilClose (body : Bytes)
  deriving DecidableEq, Repr

namespace Payload

def body : Payload → Bytes
  | sized body => body
  | chunked chunks => chunks.flatten
  | untilClose body => body

/-- The field that tells the end. -/
def field? : Payload → Option Header
  | sized body => some ⟨utf8 "Content-Length", Numeral.decimal body.length⟩
  | chunked _ => some ⟨utf8 "Transfer-Encoding", utf8 "chunked"⟩
  | untilClose _ => none

def wire : Payload → Bytes
  | sized body => body
  | chunked chunks => Chunked.write chunks
  | untilClose body => body

def isChunked : Payload → Bool
  | chunked _ => true
  | _ => false

def length? : Payload → Option Nat
  | sized body => some body.length
  | _ => none

def endsWithConnection : Payload → Bool
  | untilClose _ => true
  | _ => false

/-- An empty chunk would be the last. -/
def WellFormed : Payload → Prop
  | chunked chunks => ∀ data ∈ chunks, data ≠ []
  | _ => True

instance (payload : Payload) : Decidable payload.WellFormed :=
  match payload with
  | chunked chunks => inferInstanceAs (Decidable (∀ data ∈ chunks, data ≠ []))
  | sized _ | untilClose _ => inferInstanceAs (Decidable True)

end Payload

structure Message where
  status : Nat
  phrase : Bytes
  fields : List Header
  payload : Payload
  deriving DecidableEq, Repr

namespace Message

def statusLine (m : Message) : Bytes :=
  Request.version ++ Ascii.space :: (Numeral.decimal m.status ++ Ascii.space :: m.phrase)

def allFields (m : Message) : List Header := m.fields ++ m.payload.field?.toList

def wire (m : Message) : Bytes :=
  m.statusLine ++ Ascii.crlf ++ (writeFields m.allFields ++ (Ascii.crlf ++ m.payload.wire))

/-- The status has a body, one field more has room, and every part keeps to its line. -/
@[mk_iff]
structure WellFormed (m : Message) : Prop where
  status : 200 ≤ m.status ∧ m.status ≤ 599 ∧ m.status ≠ 204 ∧ m.status ≠ 304
  phrase : IsText Reader.maxPhrase m.phrase
  fields : ∀ field ∈ m.fields, field.Plain
  count : m.fields.length < Headers.maxCount
  payload : m.payload.WellFormed

instance (m : Message) : Decidable m.WellFormed := decidable_of_iff' _ (wellFormed_iff m)

theorem WellFormed.status_lt {m : Message} (h : m.WellFormed) : m.status < Numeral.limit := by
  have hstatus := h.status
  simp only [Numeral.limit]
  omega

/-- What a reader knows before the body. -/
def header (m : Message) : Response :=
  { status := m.status, phrase := m.phrase, headers := ⟨m.allFields⟩,
    chunked := m.payload.isChunked, contentLength := m.payload.length? }

def response (m : Message) : Response := { m.header with body := m.payload.body.toArray }

end Message

/-! ## Chunks -/

namespace Chunked

theorem sizeLine_hex {n : Nat} (hn : n < Numeral.limit) :
    SizeLine (Numeral.hex n ++ Ascii.crlf) n := by
  have htext : IsText 65 (Numeral.hex n) := isText_render (by decide) (by decide) hn
  have hlength := htext.length
  have hlf : Ascii.lf ∉ Numeral.hex n ++ [Ascii.cr] := by
    simp only [List.mem_append, List.mem_singleton, not_or]
    exact ⟨htext.lf, by decide⟩
  have hline := Line.intro hlf (by simp [maxLine]; omega)
  rw [Reader.dropCr_append_cr, List.append_assoc] at hline
  have htake : (Numeral.hex n).takeWhile (· ≠ Ascii.semicolon) = Numeral.hex n := by
    refine List.takeWhile_eq_self_iff.2 fun b hb => ?_
    rw [decide_eq_true_iff]
    rintro rfl
    exact Numeral.not_mem_render (by decide) (by decide) n (.inr rfl) hb
  refine .intro hline htext.valid ?_
  rw [sizeText, htake, htext.trim]
  exact Numeral.denotes_render (by decide) (by decide) n

theorem encodes_write {chunks : List Bytes} (hchunks : ∀ data ∈ chunks, data ≠ [])
    (hlimit : chunks.flatten.length < Numeral.limit) :
    Encodes (write chunks) chunks.flatten := by
  induction chunks with
  | nil =>
    have hempty : Line ([Ascii.cr] ++ [Ascii.lf]) (Ascii.dropCr [Ascii.cr]) :=
      .intro (by decide) (by decide)
    exact .last (sizeLine_hex (by decide)) (.last hempty)
  | cons data chunks ih =>
    rw [List.flatten_cons, List.length_append] at hlimit
    have hrest := ih (fun data h => hchunks data (List.mem_cons_of_mem _ h)) (by omega)
    exact .chunk (sizeLine_hex (by omega)) (hchunks data List.mem_cons_self) (.inr rfl) hrest

end Chunked

/-! ## The header -/

namespace Reader

/-- A reader at a header line, with what it knows of the response. -/
abbrev atField (maxBody : Nat) (response : Response) : Reader :=
  { expectBody := true, maxBody, phase := .headers, response }

variable {maxBody : Nat} {field : Header} {response response' : Response} {payload : Payload}
  {status : Nat} {phrase : Bytes} {fields : List Header} {m : Message}

theorem readHeaderLine_line (h : field.Writable) :
    readHeaderLine field.line = .ok (field.name, field.value) := by
  have htrim : Ascii.trim (Ascii.space :: field.value) = field.value := h.value.trim
  simp only [readHeaderLine, Header.line, cut_at h.colon, htrim, h.name.trim]
  simp [h.name_ne_nil]

theorem step_field (h : field.Writable)
    (hadd : addHeader response field.name field.value = .ok response') (rest : Bytes) :
    (atField maxBody response).step (field.line ++ Ascii.crlf ++ rest) =
      (atField maxBody response').step rest := by
  have hlf : Ascii.lf ∉ field.line := by
    simp only [Header.line, List.mem_append, List.mem_cons, not_or]
    exact ⟨h.name.lf, by decide, by decide, h.value.lf⟩
  have hlength : field.line.length < maxLine := by
    have hname := h.name.length
    have hvalue := h.value.length
    simp only [Header.line, List.length_append, List.length_cons, Headers.maxName,
      Headers.maxValue, maxLine] at hname hvalue ⊢
    omega
  have hvalid : Utf8.isValid field.line := by
    rw [Header.line, Utf8.isValid_append h.name.valid]
    exact h.value.valid
  have hne : field.line ≠ [] := by simp [Header.line]
  rw [step_crlf rfl rfl hlf hlength, readLine_of_ne_nil rfl hvalid hne, readHeaderLine_line h]
  show (addHeader response field.name field.value >>= fun response => _) >>= _ = _
  rw [hadd]
  rfl

theorem writeFields_singleton (field : Header) :
    writeFields [field] = field.line ++ Ascii.crlf := by
  simp [writeFields]

theorem push_of_writable {headers : Headers} (h : field.Writable)
    (hroom : headers.size < Headers.maxCount) :
    headers.push field.name field.value = .ok ⟨headers.toList ++ [field]⟩ := by
  have hname := h.name.length
  have hvalue := h.value.length
  rw [Headers.push, if_neg]
  simp only [ge_iff_le, Bool.or_eq_true, decide_eq_true_eq, not_or, Nat.not_le]
  exact ⟨⟨hroom, hname⟩, hvalue⟩

theorem addHeader_of_plain (h : field.Plain) (hroom : response.headers.size < Headers.maxCount) :
    addHeader response field.name field.value =
      .ok { response with headers := ⟨response.headers.toList ++ [field]⟩ } := by
  rw [addHeader_of_push (push_of_writable h.toWritable hroom), if_neg h.contentLength,
    Bool.eq_false_iff.2 h.transferEncoding, Bool.false_and, Bool.or_false]

theorem step_plain (earlier : List Header) (hfields : ∀ field ∈ fields, field.Plain)
    (hroom : earlier.length + fields.length ≤ Headers.maxCount) (rest : Bytes) :
    (atField maxBody { status, phrase, headers := ⟨earlier⟩ }).step (writeFields fields ++ rest) =
      (atField maxBody { status, phrase, headers := ⟨earlier ++ fields⟩ }).step rest := by
  induction fields generalizing earlier with
  | nil => rw [List.append_nil]; rfl
  | cons field fields ih =>
    have hplain := hfields field List.mem_cons_self
    have hsize : earlier.length < Headers.maxCount := by
      rw [List.length_cons] at hroom
      omega
    have hadd : addHeader { status, phrase, headers := ⟨earlier⟩ } field.name field.value =
        .ok { status, phrase, headers := ⟨earlier ++ [field]⟩ } := addHeader_of_plain hplain hsize
    rw [writeFields, List.flatMap_cons, List.append_assoc, step_field hplain.toWritable hadd]
    have hrest := ih (earlier ++ [field]) (fun field h => hfields field (List.mem_cons_of_mem _ h))
      (by simp only [List.length_append, List.length_cons, List.length_nil] at hroom ⊢; omega)
    rw [List.append_assoc, List.singleton_append] at hrest
    exact hrest

/-- The field that tells the end of the body is understood. -/
theorem step_framing (hlimit : payload.body.length < Numeral.limit)
    (hroom : fields.length < Headers.maxCount) (rest : Bytes) :
    (atField maxBody { status, phrase, headers := ⟨fields⟩ }).step
        (writeFields payload.field?.toList ++ rest) =
      (atField maxBody
        { status, phrase, headers := ⟨fields ++ payload.field?.toList⟩,
          chunked := payload.isChunked, contentLength := payload.length? }).step rest := by
  cases payload with
  | sized body =>
    have hwritable : Header.Writable ⟨utf8 "Content-Length", Numeral.decimal body.length⟩ := {
      name := show IsText Headers.maxName (utf8 "Content-Length") from
        ⟨by decide, by decide, by decide, by decide⟩
      name_ne_nil := show utf8 "Content-Length" ≠ [] by decide
      colon := show Ascii.colon ∉ utf8 "Content-Length" by decide
      value := (isText_render (by decide) (by decide) hlimit).mono (by decide) }
    have hread : Numeral.decimal? (Numeral.decimal body.length) = some body.length :=
      Numeral.read?_render (by decide) (by decide) hlimit
    have hadd : addHeader { status, phrase, headers := ⟨fields⟩ } _ _ = _ :=
      addHeader_of_push (push_of_writable hwritable hroom)
    rw [if_pos (Ascii.sameIgnoringCase_refl _)] at hadd
    simp only [hread] at hadd
    rw [show (Payload.sized body).field?.toList = [_] from rfl, writeFields_singleton]
    exact step_field hwritable hadd rest
  | chunked chunks =>
    have hwritable : Header.Writable ⟨utf8 "Transfer-Encoding", utf8 "chunked"⟩ :=
      ⟨⟨by decide, by decide, by decide, by decide⟩, by decide, by decide,
        ⟨by decide, by decide, by decide, by decide⟩⟩
    have hadd : addHeader { status, phrase, headers := ⟨fields⟩ } _ _ = _ :=
      addHeader_of_push (push_of_writable hwritable hroom)
    rw [if_neg (by decide)] at hadd
    rw [show (Payload.chunked chunks).field?.toList = [_] from rfl, writeFields_singleton]
    exact step_field hwritable hadd rest
  | untilClose body =>
    rw [show (Payload.untilClose body).field?.toList = [] from rfl, List.append_nil]
    rfl

theorem readStatusLine_statusLine (hm : m.WellFormed) :
    readStatusLine m.statusLine = .ok (m.status, m.phrase) := by
  obtain ⟨hlow, hhigh, -, -⟩ := hm.status
  have hversion : Ascii.space ∉ Request.version := by decide
  have hcode : Ascii.space ∉ Numeral.decimal m.status :=
    Numeral.not_mem_render (by decide) (by decide) _ (.inl (by decide))
  have hread : Numeral.decimal? (Numeral.decimal m.status) = some m.status :=
    Numeral.read?_render (by decide) (by decide) hm.status_lt
  have hrange : ¬ (m.status < 100 ∨ 599 < m.status) := by omega
  have hphrase : ¬ m.phrase.length ≥ maxPhrase := Nat.not_le.2 hm.phrase.length
  have hprefix : (!(utf8 "HTTP/").isPrefixOf Request.version) = false := by decide
  simp only [readStatusLine, Message.statusLine, cut_at hversion, Option.getD_some, cut_at hcode,
    hm.phrase.trim, hread, hprefix]
  rw [if_neg Bool.false_ne_true, if_neg hrange, if_neg hphrase]

theorem step_statusLine (hm : m.WellFormed) (rest : Bytes) :
    (new true maxBody).step (m.statusLine ++ Ascii.crlf ++ rest) =
      (atField maxBody { status := m.status, phrase := m.phrase }).step rest := by
  have hcode : IsText 65 (Numeral.decimal m.status) :=
    isText_render (by decide) (by decide) hm.status_lt
  have hlf : Ascii.lf ∉ m.statusLine := by
    simp only [Message.statusLine, List.mem_append, List.mem_cons, not_or]
    exact ⟨by decide, by decide, hcode.lf, by decide, hm.phrase.lf⟩
  have hlength : m.statusLine.length < maxLine := by
    have hdigits := hcode.length
    have hphrase := hm.phrase.length
    have hversion : Request.version.length = 8 := rfl
    simp only [Message.statusLine, List.length_append, List.length_cons, hversion, maxPhrase,
      maxLine] at hphrase ⊢
    omega
  have hvalid : Utf8.isValid m.statusLine := by
    have hrest : Utf8.isValid (Numeral.decimal m.status ++ Ascii.space :: m.phrase) := by
      rw [Utf8.isValid_append hcode.valid]
      exact hm.phrase.valid
    rw [Message.statusLine, Utf8.isValid_append (by decide)]
    exact hrest
  have hread : (new true maxBody).readLine m.statusLine =
      .ok (atField maxBody { status := m.status, phrase := m.phrase }) := by
    have hphase : (new true maxBody).phase = .statusLine := rfl
    rw [readLine, if_neg (by simp [hvalid]), if_pos hphase, readStatusLine_statusLine hm]
    rfl
  rw [step_crlf rfl rfl hlf hlength, hread]
  rfl

/-- All of the header is read as it was written. -/
theorem step_header (hm : m.WellFormed) (hlimit : m.payload.body.length < Numeral.limit)
    (rest : Bytes) :
    (new true maxBody).step (m.statusLine ++ Ascii.crlf ++ (writeFields m.allFields ++ rest)) =
      (atField maxBody m.header).step rest := by
  have hcount := hm.count
  rw [step_statusLine hm, Message.allFields, writeFields, List.flatMap_append, List.append_assoc]
  refine (step_plain [] hm.fields ?_ _).trans ?_
  · rw [List.length_nil]
    omega
  · exact step_framing hlimit hcount rest

/-! ## The body -/

theorem step_empty (rest : Bytes) :
    (atField maxBody response).step (Ascii.crlf ++ rest) =
      (atField maxBody response).bodyPhase >>= fun phase =>
        readBody { atField maxBody response with phase } rest := by
  rw [← List.nil_append Ascii.crlf, step_crlf rfl rfl List.not_mem_nil (by decide),
    readLine_nil rfl]
  rcases hphase : (atField maxBody response).bodyPhase with e | phase
  · rfl
  · exact step_of_not_inLines (delimits_of_bodyPhase hphase).not_inLines rest

theorem bodyPhase_header (hm : m.WellFormed) (hbody : m.payload.body.length ≤ allocationLimit) :
    (atField maxBody m.header).bodyPhase = match m.payload with
      | .sized body =>
        if body.length > maxBody then .error .limitExceeded
        else if body.length = 0 then .ok .done
        else .ok (.sized body.length)
      | .chunked _ => .ok (.chunked (.new maxBody))
      | .untilClose _ => .ok .untilClose := by
  obtain ⟨hlow, -, hnoContent, hnotModified⟩ := hm.status
  have hstatus : ¬ ((!true || Response.isBodyless m.header.status) = true) := by
    show ¬ Response.isBodyless m.status
    simp [Response.isBodyless]
    omega
  rw [bodyPhase, if_neg hstatus]
  cases hpayload : m.payload with
  | sized body =>
    have hmemory : ¬ body.length > allocationLimit := by
      rw [hpayload] at hbody
      exact Nat.not_lt.2 hbody
    simp only [Message.header, hpayload, Payload.isChunked, Payload.length?, if_neg hmemory]
    rfl
  | chunked chunks =>
    simp only [Message.header, hpayload, Payload.isChunked, if_true]
  | untilClose body =>
    simp only [Message.header, hpayload, Payload.isChunked, Payload.length?]
    rfl

theorem addToBody_of_empty {r : Reader} (hr : r.response.body = #[]) (part : Bytes) :
    r.addToBody part = { r with response := { r.response with body := part.toArray } } := by
  rw [addToBody, hr, Bytes.store_empty]

/-- The reader that has all of the response, as far as the bytes tell. -/
def hasRead (maxBody : Nat) (m : Message) : Reader :=
  { expectBody := true, maxBody,
    phase := if m.payload.endsWithConnection then .untilClose else .done, response := m.response }

theorem step_wire (hm : m.WellFormed) (hbody : m.payload.body.length ≤ allocationLimit) :
    (new true maxBody).step m.wire =
      if m.payload.body.length ≤ maxBody then .ok (hasRead maxBody m)
      else .error .limitExceeded := by
  have hlimit : m.payload.body.length < Numeral.limit := by
    simp only [allocationLimit, Numeral.limit] at hbody ⊢
    omega
  rw [Message.wire, step_header hm hlimit, step_empty, bodyPhase_header hm hbody]
  have hpayload := hm.payload
  obtain ⟨status, phrase, fields, payload⟩ := m
  cases payload with
  | sized body =>
    change (ite (body.length > maxBody) _ _ >>= _) = ite (body.length ≤ maxBody) _ _
    by_cases hfits : body.length ≤ maxBody
    · rw [if_neg (Nat.not_lt.2 hfits), if_pos hfits]
      cases body with
      | nil => rfl
      | cons b body =>
        rw [if_neg (by simp)]
        show Except.ok (readSized _ (b :: body).length (b :: body)) = _
        rw [readSized, List.take_length, addToBody_of_empty rfl, if_pos (Nat.le_refl _)]
        rfl
    · rw [if_pos (Nat.not_le.1 hfits), if_neg hfits]
      rfl
  | chunked chunks =>
    have hencodes := Chunked.encodes_write hpayload hlimit
    change readChunks _ (.new maxBody) (Chunked.write chunks) =
      ite (chunks.flatten.length ≤ maxBody) _ _
    rw [← List.append_nil (Chunked.write chunks), readChunks]
    by_cases hfits : chunks.flatten.length ≤ maxBody
    · rw [if_pos hfits, Chunked.Decoder.feed_new_of_encodes hencodes hlimit hfits []]
      rfl
    · obtain ⟨d, hfeed⟩ := Chunked.Decoder.feed_of_encodes_of_lt (m := maxBody) (o := #[]) hencodes
        hlimit (Nat.zero_le _) (by simpa using hfits) []
      change (Chunked.Decoder.new maxBody).feed _ = _ at hfeed
      rw [if_neg hfits, hfeed]
  | untilClose body =>
    change (ite (body.length > maxBody) _ (.ok (addToBody _ body)) : Except Error Reader) =
      ite (body.length ≤ maxBody) _ _
    by_cases hfits : body.length ≤ maxBody
    · rw [if_pos hfits, if_neg (Nat.not_lt.2 hfits), addToBody_of_empty rfl]
      rfl
    · rw [if_neg hfits, if_pos (Nat.not_le.1 hfits)]

/-- What was written is read back, if its body is not longer than it may be, and refused otherwise.
A body that ends with the connection is complete once that has closed.  No body is larger than
memory. -/
theorem read_back {m : Message} (hm : m.WellFormed)
    (hbody : m.payload.body.length ≤ allocationLimit) (maxBody : Nat) :
    let r := (new true maxBody).feed m.wire
    let r' := if m.payload.endsWithConnection then r.close else r
    (m.payload.body.length ≤ maxBody → r'.phase = .done ∧ r'.response = m.response) ∧
      (maxBody < m.payload.body.length → r.progress = .error .limitExceeded) := by
  intro r r'
  have hfeed : r = _ := feed_of_not_failed rfl _
  rw [step_wire hm hbody] at hfeed
  constructor
  · intro hfits
    rw [if_pos hfits] at hfeed
    have hr : r = hasRead maxBody m := hfeed
    by_cases hclose : m.payload.endsWithConnection
    · have hr' : r' = { hasRead maxBody m with phase := .done } := by
        simp only [r', if_pos hclose, hr]
        simp only [close, hasRead, if_pos hclose]
      rw [hr']
      exact ⟨rfl, rfl⟩
    · have hr' : r' = hasRead maxBody m := by rw [← hr]; exact if_neg hclose
      rw [hr', hasRead, if_neg hclose]
      exact ⟨rfl, rfl⟩
  · intro hlarge
    rw [if_neg (Nat.not_le.2 hlarge)] at hfeed
    rw [hfeed]
    rfl

/-- Chunks that look like size lines, at the limit and one byte beyond. -/
theorem read_back_chunks :
    let m : Message :=
      ⟨404, utf8 "Pas trouvé", [⟨utf8 "X-Empty", []⟩, ⟨utf8 "Via", utf8 "a: b"⟩],
        .chunked [utf8 "5\r\n", utf8 "0"]⟩
    m.WellFormed ∧ m.payload.body = utf8 "5\r\n0" ∧
      ((new true 4).feed m.wire).phase = .done ∧
      ((new true 4).feed m.wire).response = m.response ∧
      ((new true 3).feed m.wire).progress = .error .limitExceeded := by
  intro m
  have hm : m.WellFormed := by decide +kernel
  obtain ⟨hphase, hresponse⟩ := (read_back hm (by decide) 4).1 (by decide)
  exact ⟨hm, by decide, hphase, hresponse, (read_back hm (by decide) 3).2 (by decide)⟩

end Reader

end NetHost.Http
