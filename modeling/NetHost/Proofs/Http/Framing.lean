import Mathlib.Tactic.Common
import NetHost.Proofs.Http.ChunkGrammar
import NetHost.Proofs.Http.Lines
import NetHost.Proofs.Http.OneShot

/-!
# Where the body of a response comes from

A response that was read has its body from the bytes after the header and from nowhere else, cut in
the way that the response itself announces (`framed_of_readAll`).
-/

namespace NetHost.Http

/-! ## The header in the bytes -/

/-- What follows the first empty line. -/
def afterEmptyLine? (s : Bytes) : Option Bytes :=
  match _h : Ascii.cut Ascii.lf s with
  | (_, none) => none
  | (content, some rest) =>
    if Ascii.dropCr content = [] then some rest else afterEmptyLine? rest
termination_by s.length
decreasing_by
  have := congrArg List.length (Ascii.cut_eq Ascii.lf s)
  simp only [_h, List.length_append, List.length_cons] at this
  omega

/-- What follows the header of a response: the status line, and lines up to an empty one. -/
def afterHeader? (s : Bytes) : Option Bytes :=
  (Ascii.cut Ascii.lf s).2.bind afterEmptyLine?

theorem afterEmptyLine?_line {content : Bytes} (hlf : Ascii.lf ∉ content) (rest : Bytes) :
    afterEmptyLine? (content ++ Ascii.lf :: rest) =
      if Ascii.dropCr content = [] then some rest else afterEmptyLine? rest := by
  have hcut := Reader.cut_at hlf rest
  rw [afterEmptyLine?]
  split <;> simp_all

/-- Some field says that the body comes in chunks. -/
def Headers.AnnounceChunks (h : Headers) : Prop :=
  ∃ field ∈ h.toList, Ascii.sameIgnoringCase field.name (utf8 "Transfer-Encoding") ∧
    ∃ coding ∈ field.value.splitOn Ascii.comma,
      Ascii.sameIgnoringCase (Ascii.trim coding) (utf8 "chunked")

namespace Response

/-- There is no body after a `HEAD` request, nor with these statuses, whatever the header says. -/
abbrev NoBody (response : Response) (expectBody : Bool) : Prop :=
  expectBody = false ∨ 100 ≤ response.status ∧ response.status < 200 ∨ response.status = 204 ∨
    response.status = 304

/-- The body is what the response announces, taken from the start of `rest`. -/
def BodyIn (response : Response) (expectBody : Bool) (maxBody : Nat) (rest : Bytes) : Prop :=
  if response.NoBody expectBody then response.body = #[]
  else if response.chunked then
    ∃ d k, (Chunked.Decoder.new maxBody).feed rest = (d, .ok k) ∧ d.isDone ∧
      response.body = d.output
  else match response.contentLength with
    | some n => n ≤ rest.length ∧ response.body.toList = rest.take n
    | none => response.body.toList = rest

end Response

namespace Reader

variable {r r' : Reader} {response response' : Response} {name value s : Bytes}
  {expectBody : Bool} {maxBody : Nat}

theorem namesChunked_iff : namesChunked value ↔
    ∃ coding ∈ value.splitOn Ascii.comma,
      Ascii.sameIgnoringCase (Ascii.trim coding) (utf8 "chunked") :=
  List.any_eq_true

/-- What a reader in the header holds: no part of a line, nothing of the body, and whether the body
comes in chunks. -/
structure InHeader (r : Reader) : Prop where
  phase : r.phase = .headers
  line : r.line = #[]
  body : r.response.body = #[]
  chunked : r.response.chunked ↔ r.response.headers.AnnounceChunks

theorem chunked_of_addHeader (h : addHeader response name value = .ok response')
    (hchunked : response.chunked ↔ response.headers.AnnounceChunks) :
    (response'.chunked ↔ response'.headers.AnnounceChunks) ∧ response'.body = response.body := by
  cases hpush : response.headers.push name value with
  | error e =>
    rw [addHeader, hpush] at h
    cases h
  | ok headers =>
    have hannounce : headers.AnnounceChunks ↔ response.headers.AnnounceChunks ∨
        (Ascii.sameIgnoringCase name (utf8 "Transfer-Encoding") ∧ namesChunked value) := by
      rw [Headers.AnnounceChunks, Headers.toList_of_push hpush, namesChunked_iff]
      simp [or_and_right, exists_or, Headers.AnnounceChunks]
    rw [addHeader_of_push hpush] at h
    split_ifs at h with hlength
    · have hnot : ¬ (Ascii.sameIgnoringCase name (utf8 "Transfer-Encoding") ∧
          namesChunked value) := by
        rw [not_transferEncoding hlength]
        simp
      split at h
      · cases h
        refine ⟨?_, rfl⟩
        rw [hannounce, or_iff_left hnot]
        exact hchunked
      · cases h
    · cases h
      refine ⟨?_, rfl⟩
      rw [hannounce, Bool.or_eq_true, Bool.and_eq_true, hchunked]

/-- The four ways to delimit a body. -/
inductive Delimits (r : Reader) : Phase → Prop where
  | noBody (h : r.response.NoBody r.expectBody) : Delimits r .done
  | chunks (h : ¬ r.response.NoBody r.expectBody) (hchunked : r.response.chunked) :
    Delimits r (.chunked (.new r.maxBody))
  | length {n : Nat} (h : ¬ r.response.NoBody r.expectBody) (hchunked : ¬ r.response.chunked)
      (hlength : r.response.contentLength = some n) (hmax : n ≤ r.maxBody) :
    Delimits r (if n = 0 then .done else .sized n)
  | untilClose (h : ¬ r.response.NoBody r.expectBody) (hchunked : ¬ r.response.chunked)
      (hlength : r.response.contentLength = none) : Delimits r .untilClose

theorem delimits_of_bodyPhase {phase : Phase} (h : r.bodyPhase = .ok phase) : Delimits r phase := by
  have hnone : (!r.expectBody || Response.isBodyless r.response.status) = true ↔
      r.response.NoBody r.expectBody := by
    simp [Response.isBodyless, or_assoc]
  unfold bodyPhase at h
  split_ifs at h with hbody hchunked
  · cases h
    exact .noBody (hnone.1 hbody)
  · cases h
    exact .chunks (mt hnone.2 hbody) hchunked
  · split at h
    · next hlength =>
      cases h
      exact .untilClose (mt hnone.2 hbody) hchunked hlength
    · next n hlength =>
      split_ifs at h with hmax hzero hmemory
      · cases h
        rw [show Phase.done = if n = 0 then .done else .sized n by rw [if_pos hzero]]
        exact .length (mt hnone.2 hbody) hchunked hlength (Nat.le_of_not_lt hmax)
      · cases h
        rw [show Phase.sized n = if n = 0 then .done else .sized n by rw [if_neg hzero]]
        exact .length (mt hnone.2 hbody) hchunked hlength (Nat.le_of_not_lt hmax)

theorem Delimits.not_inLines {phase : Phase} (h : Delimits r phase) :
    ¬ inLines { r with phase } := by
  cases h with
  | noBody | chunks | untilClose => simp [inLines]
  | length => split_ifs <;> simp [inLines]

/-- A reader that comes out of the header has read it up to the empty line. -/
theorem exists_bodyPhase_of_step (hr : r.InHeader) (h : r.step s = .ok r') (hr' : ¬ r'.inLines) :
    ∃ rest r₁ phase, afterEmptyLine? s = some rest ∧ r₁.InHeader ∧ Continues r r₁ ∧
      r₁.bodyPhase = .ok phase ∧ readBody { r₁ with phase } rest = .ok r' := by
  induction hn : s.length using Nat.strongRecOn generalizing s r with
  | _ n ih =>
  subst hn
  have hlines : r.inLines := by simp [inLines, hr.phase]
  obtain ⟨content, rest, r₁, rfl, hlf, hread, hrest⟩ := exists_line_of_step hlines hr.line h hr'
  rw [afterEmptyLine?_line hlf]
  rcases readLine_headers_cases hr.phase hread with
    ⟨hempty, phase, hphase, rfl⟩ | ⟨hempty, name, value, response, hadd, rfl⟩
  · rw [if_pos hempty]
    rw [step_of_not_inLines (delimits_of_bodyPhase hphase).not_inLines] at hrest
    exact ⟨rest, r, phase, rfl, hr, .refl r, hphase, hrest⟩
  · rw [if_neg hempty]
    obtain ⟨hchunked, hbody⟩ := chunked_of_addHeader hadd hr.chunked
    have hr₁ : InHeader { r with response } := ⟨hr.phase, hr.line, hbody.trans hr.body, hchunked⟩
    obtain ⟨rest', r₂, phase, hafter, hr₂, hcont, hphase, hread⟩ :=
      ih rest.length (by simp; omega) hr₁ hrest rfl
    have hsame : Continues r { r with response } := ⟨rfl, rfl, id⟩
    exact ⟨rest', r₂, phase, hafter, hr₂, hsame.trans hcont, hphase, hread⟩

/-! ## The body -/

theorem bodyIn_of_readBody {rest : Bytes} {phase : Phase} (hr : r.InHeader)
    (hphase : Delimits r phase) (hread : readBody { r with phase } rest = .ok r')
    (hend : r'.phase = .done ∨ r'.phase = .untilClose) :
    (∃ body, r'.response = { r.response with body }) ∧ r'.response.body.size ≤ r.maxBody ∧
      r'.response.BodyIn r.expectBody r.maxBody rest := by
  cases hphase with
  | noBody h =>
    cases hread
    refine ⟨⟨_, rfl⟩, by simp [hr.body], ?_⟩
    rw [Response.BodyIn, if_pos h]
    exact hr.body
  | chunks h hchunked =>
    simp only [readBody, readChunks] at hread
    rcases hfeed : (Chunked.Decoder.new r.maxBody).feed rest with ⟨d, e | k⟩
    · simp only [hfeed] at hread
      cases hread
    · simp only [hfeed] at hread
      cases hread
      by_cases hd : d.isDone
      · rw [withDecoder, if_pos hd]
        refine ⟨⟨_, rfl⟩, (Chunked.Decoder.encodes_of_feed_new hfeed hd).2.2, ?_⟩
        rw [Response.BodyIn, if_neg h, if_pos hchunked]
        exact ⟨d, k, hfeed, hd, rfl⟩
      · rw [withDecoder, if_neg hd] at hend
        simp at hend
  | @length n h hchunked hlength hmax =>
    by_cases hzero : n = 0
    · subst hzero
      cases hread
      refine ⟨⟨_, rfl⟩, by simp [hr.body], ?_⟩
      rw [Response.BodyIn, if_neg h, if_neg hchunked]
      simp only [hlength]
      simp [hr.body]
    · rw [if_neg hzero] at hread
      cases hread
      by_cases henough : n ≤ rest.length
      · refine ⟨⟨_, rfl⟩, ?_, ?_⟩
        · simp [readSized, addToBody, hr.body]
          omega
        · show Response.BodyIn { r.response with body := r.response.body ++ rest.take n } _ _ _
          rw [Response.BodyIn, if_neg h, if_neg hchunked]
          simp only [hlength]
          simp [hr.body, henough]
      · rw [readSized, if_neg henough] at hend
        simp at hend
  | untilClose h hchunked hlength =>
    simp only [readBody, readUntilClose] at hread
    split_ifs at hread with hlarge
    · cases hread
      refine ⟨⟨_, rfl⟩, ?_, ?_⟩
      · simp [addToBody, hr.body] at hlarge ⊢
        omega
      · show Response.BodyIn { r.response with body := r.response.body ++ rest } _ _ _
        rw [Response.BodyIn, if_neg h, if_neg hchunked]
        simp only [hlength]
        simp [hr.body]

/-! ## The whole response -/

theorem close_of_more (h : r.progress = .ok .more) :
    r.close = if r.phase = .untilClose then { r with phase := .done } else r.fail .incomplete := by
  unfold progress at h
  unfold close
  cases hphase : r.phase <;> simp_all

/-- A response is taken from a reader that has all of it, or all that the connection will bring. -/
theorem step_of_readAll (h : (new expectBody maxBody).readAll s = .ok response) :
    ∃ r, (new expectBody maxBody).step s = .ok r ∧ r.response = response ∧
      (r.phase = .done ∨ r.phase = .untilClose) := by
  have hfeed := feed_of_not_failed (show (new expectBody maxBody).failure? = none from rfl) s
  rcases hstep : (new expectBody maxBody).step s with e | r
  · rw [hstep] at hfeed
    rw [readAll, hfeed] at h
    cases h
  · rw [hstep] at hfeed
    refine ⟨r, rfl, ?_⟩
    cases hprogress : r.progress with
    | error e =>
      rw [readAll, hfeed, hprogress] at h
      cases h
    | ok p =>
      cases p with
      | complete =>
        rw [← List.append_nil s, readAll_of_complete (by rw [hfeed, hprogress]), hfeed] at h
        cases h
        exact ⟨rfl, .inl ((progress_eq_complete_iff r).1 hprogress)⟩
      | more =>
        rw [readAll_of_more (by rw [hfeed, hprogress]), hfeed, close_of_more hprogress] at h
        split_ifs at h with hphase
        · cases h
          exact ⟨rfl, .inr hphase⟩
        · cases h

/-- The status line leads into the header. -/
theorem inHeader_of_statusLine {text : Bytes} (h : (new expectBody maxBody).readLine text = .ok r) :
    r.InHeader ∧ Continues (new expectBody maxBody) r := by
  refine ⟨?_, continues_of_readLine h⟩
  unfold readLine at h
  split_ifs at h with hutf8 hstatus
  · obtain ⟨⟨status, phrase⟩, -, h⟩ := bind_eq_ok_iff.1 h
    cases h
    exact ⟨rfl, rfl, rfl, by simp [new, Headers.AnnounceChunks]⟩
  all_goals exact absurd rfl hstatus

/-- The body of a response that was read is what its header announces, taken from the start of
what follows the header, and no longer than it may be. -/
theorem framed_of_readAll {expectBody : Bool} {maxBody : Nat} {data : Bytes} {response : Response}
    (h : (new expectBody maxBody).readAll data = .ok response) :
    ∃ rest, afterHeader? data = some rest ∧
      (response.chunked ↔ response.headers.AnnounceChunks) ∧
      response.BodyIn expectBody maxBody rest ∧ response.body.size ≤ maxBody := by
  obtain ⟨r, hstep, rfl, hend⟩ := step_of_readAll h
  have hlines : ¬ r.inLines := by rcases hend with h | h <;> simp [inLines, h]
  obtain ⟨content, s, r₁, rfl, hlf, hread, hrest⟩ := exists_line_of_step rfl rfl hstep hlines
  obtain ⟨hr₁, hcont⟩ := inHeader_of_statusLine hread
  obtain ⟨rest, r₂, phase, hafter, hr₂, hcont₂, hphase, hbody⟩ :=
    exists_bodyPhase_of_step hr₁ hrest hlines
  obtain ⟨⟨body, hresponse⟩, hsize, hin⟩ :=
    bodyIn_of_readBody hr₂ (delimits_of_bodyPhase hphase) hbody hend
  have hcont := hcont.trans hcont₂
  refine ⟨rest, ?_, ?_, ?_, ?_⟩
  · rw [afterHeader?, cut_at hlf]
    exact hafter
  · rw [hresponse]
    exact hr₂.chunked
  · rw [hcont.expectBody, hcont.maxBody] at hin
    exact hin
  · rw [hcont.maxBody] at hsize
    exact hsize

/-- Chunks go before an announced length, and what follows them is left. -/
theorem framed_of_chunks_and_length :
    let data := utf8 ("HTTP/1.1 200 OK\r\nContent-Length: 3\r\nTransfer-Encoding: gzip, Chunked" ++
      "\r\n\r\n5\r\nHello\r\n0\r\n\r\nrest")
    let response : Response :=
      { status := 200, phrase := utf8 "OK", body := (utf8 "Hello").toArray, chunked := true,
        contentLength := some 3,
        headers := ⟨[⟨utf8 "Content-Length", utf8 "3"⟩,
          ⟨utf8 "Transfer-Encoding", utf8 "gzip, Chunked"⟩]⟩ }
    (new true 5).readAll data = .ok response ∧
      ∃ rest, afterHeader? data = some rest ∧
        (response.chunked ↔ response.headers.AnnounceChunks) ∧
        response.BodyIn true 5 rest ∧ response.body.size ≤ 5 := by
  intro data response
  have h : (new true 5).readAll data = .ok response := by decide +kernel
  exact ⟨h, framed_of_readAll h⟩

end Reader

end NetHost.Http
