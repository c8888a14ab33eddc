import Mathlib.Tactic.Common
import NetHost.Proofs.Http.Calls
import NetHost.Proofs.Http.Framing

/-!
# The announced length of a body

A response may have several fields that announce the length of its body.  The reader goes by the
last one of them, and that is how long a body is that was delimited by its length
(`length_is_last_announced`).  A look-up by name finds the first one, so the two agree if and only
if the first and the last field say the same (`looked_up_length_differs`).
-/

namespace NetHost.Http

/-! ## The fields with one name -/

namespace Headers

/-- The values of the fields with a name, in their order. -/
def values (h : Headers) (name : Bytes) : List Bytes :=
  (h.toList.filter fun f => Ascii.sameIgnoringCase f.name name).map Header.value

variable {h h' : Headers} {name value : Bytes}

theorem get?_eq_head?_values (h : Headers) (name : Bytes) :
    h.get? name = (h.values name).head? := by
  rw [get?, values, List.head?_map, List.head?_filter]

theorem values_eq_nil_iff : h.values name = [] ↔
    ∀ field ∈ h.toList, ¬ Ascii.sameIgnoringCase field.name name := by
  rw [values, List.map_eq_nil_iff, List.filter_eq_nil_iff]

theorem values_of_push {key : Bytes} (hpush : h.push name value = .ok h') :
    h'.values key = h.values key ++ if Ascii.sameIgnoringCase name key then [value] else [] := by
  rw [values, toList_of_push hpush, List.filter_append, List.map_append, ← values]
  by_cases hkey : Ascii.sameIgnoringCase name key
  · simp [hkey]
  · simp [hkey]

end Headers

namespace Response

/-- What the fields say that announce the length of the body. -/
def lengthFields (response : Response) : List Bytes :=
  response.headers.values (utf8 "Content-Length")

/-- Each of these fields is a numeral, and the announced length is what the last one says. -/
structure TakesLast (response : Response) : Prop where
  numeral : ∀ value ∈ response.lengthFields, (Numeral.decimal? value).isSome
  last : response.contentLength = response.lengthFields.getLast?.bind Numeral.decimal?

/-- A body that was delimited by the announced length is that long. -/
def HasLength (response : Response) (expectBody : Bool) : Prop :=
  ∀ n, response.contentLength = some n → ¬ response.NoBody expectBody → ¬ response.chunked →
    response.body.size = n

variable {response response' : Response} {name value : Bytes}

theorem takesLast_empty : TakesLast {} := ⟨nofun, rfl⟩

theorem TakesLast.contentLength_eq_none_iff (h : response.TakesLast) :
    response.contentLength = none ↔ response.lengthFields = [] := by
  rw [h.last]
  refine ⟨fun hnone => ?_, fun hnil => by rw [hnil]; rfl⟩
  by_contra hne
  have hlast := List.getLast?_eq_some_getLast hne
  have hsome := h.numeral _ (List.getLast_mem hne)
  rw [hlast, Option.bind_some] at hnone
  rw [hnone] at hsome
  cases hsome

theorem TakesLast.addHeader (h : response.TakesLast)
    (hadd : Reader.addHeader response name value = .ok response') :
    response'.TakesLast ∧ response'.body = response.body := by
  cases hpush : response.headers.push name value with
  | error e =>
    rw [Reader.addHeader, hpush] at hadd
    cases hadd
  | ok headers =>
    have hfields : headers.values (utf8 "Content-Length") = _ := Headers.values_of_push hpush
    rw [Reader.addHeader_of_push hpush] at hadd
    split_ifs at hadd with hlength
    · rw [if_pos hlength] at hfields
      split at hadd
      · rename_i n hn
        cases hadd
        refine ⟨⟨fun v hv => ?_, ?_⟩, rfl⟩
        · rw [lengthFields, hfields] at hv
          rcases List.mem_append.1 hv with hv | hv
          · exact h.numeral v hv
          · rw [List.mem_singleton.1 hv, hn]
            rfl
        · rw [lengthFields, hfields, List.getLast?_concat, Option.bind_some, hn]
      · cases hadd
    · rw [if_neg hlength, List.append_nil] at hfields
      cases hadd
      refine ⟨⟨?_, ?_⟩, rfl⟩
      · rw [lengthFields, hfields]
        exact h.numeral
      · rw [lengthFields, hfields]
        exact h.last

end Response

namespace Reader

variable {r r' : Reader} {s : Bytes}

/-- What is known of the length of the body: nothing of it has come before the header is read, and
then each phase has so much of it. -/
def MeasuresBody (r : Reader) : Prop :=
  match r.phase with
  | .statusLine | .headers => r.response.body = #[]
  | .sized left => r.response.contentLength = some (r.response.body.size + left)
  | .chunked _ => r.response.chunked
  | .untilClose => r.response.contentLength = none
  | .done => r.response.HasLength r.expectBody
  | .failed _ => True

/-- The reader goes by the last field, and the body that it has read fits what that says. -/
structure GoesByLast (r : Reader) : Prop where
  response : r.response.TakesLast
  body : r.MeasuresBody

namespace GoesByLast

theorem new (expectBody : Bool) (maxBody : Nat) : GoesByLast (.new expectBody maxBody) :=
  ⟨Response.takesLast_empty, rfl⟩

theorem fail (r : Reader) (e : Error) : GoesByLast (r.fail e) :=
  ⟨Response.takesLast_empty, trivial⟩

theorem body_of_inLines (h : GoesByLast r) (hr : r.inLines) : r.response.body = #[] := by
  have hbody := h.body
  simp only [inLines, Bool.or_eq_true, decide_eq_true_eq] at hr
  unfold MeasuresBody at hbody
  rcases hr with hr | hr
  · rw [hr] at hbody
    exact hbody
  · rw [hr] at hbody
    exact hbody

theorem withLine (h : GoesByLast r) (line : Array UInt8) : GoesByLast { r with line } :=
  ⟨h.response, h.body⟩

theorem addToLine {part : Bytes} (h : GoesByLast r) (hadd : r.addToLine part = .ok r') :
    GoesByLast r' := by
  unfold Reader.addToLine at hadd
  split_ifs at hadd
  cases hadd
  exact h.withLine _

theorem bodyPhase (h : GoesByLast r) (hr : r.inLines) {phase : Phase}
    (hphase : r.bodyPhase = .ok phase) : GoesByLast { r with phase } := by
  have hempty := h.body_of_inLines hr
  refine ⟨h.response, ?_⟩
  cases delimits_of_bodyPhase hphase with
  | noBody hnone => exact fun n _ hbody => absurd hnone hbody
  | chunks _ hchunked => exact hchunked
  | @length n _ _ hlength =>
    split_ifs with hzero
    · intro m hm _ _
      show r.response.body.size = m
      have : some n = some m := hlength.symm.trans hm
      cases this
      rw [hempty, hzero]
      rfl
    · show r.response.contentLength = some (r.response.body.size + n)
      rw [hempty, hlength]
      simp
  | untilClose _ _ hlength => exact hlength

theorem readLine {line : Bytes} (h : GoesByLast r) (hr : r.inLines)
    (hread : r.readLine line = .ok r') : GoesByLast r' := by
  have hempty := h.body_of_inLines hr
  unfold Reader.readLine at hread
  split_ifs at hread with _ hstatus hend
  · obtain ⟨⟨status, phrase⟩, -, hread⟩ := bind_eq_ok_iff.1 hread
    cases hread
    exact ⟨⟨h.response.numeral, h.response.last⟩, hempty⟩
  · obtain ⟨phase, hphase, hread⟩ := bind_eq_ok_iff.1 hread
    cases hread
    exact h.bodyPhase hr hphase
  · obtain ⟨⟨name, value⟩, -, hread⟩ := bind_eq_ok_iff.1 hread
    obtain ⟨response, hadd, hread⟩ := bind_eq_ok_iff.1 hread
    cases hread
    obtain ⟨hlast, hbody⟩ := h.response.addHeader hadd
    have hphase : r.phase = .headers := by simpa [inLines, hstatus] using hr
    refine ⟨hlast, ?_⟩
    rw [MeasuresBody, hphase]
    exact hbody.trans hempty

theorem readSized {left : Nat} (h : GoesByLast r) (hphase : r.phase = .sized left) (s : Bytes) :
    GoesByLast (r.readSized left s) := by
  have hbody := h.body
  rw [MeasuresBody, hphase] at hbody
  have hsize : (r.response.body ++ s.take left).size =
      r.response.body.size + min left s.length := by
    rw [Bytes.size_store, List.length_take]
  refine ⟨⟨h.response.numeral, h.response.last⟩, ?_⟩
  by_cases henough : left ≤ s.length
  · rw [Reader.readSized, if_pos henough]
    intro n hn _ _
    show (r.response.body ++ s.take left).size = n
    have : some (r.response.body.size + left) = some n := hbody.symm.trans hn
    cases this
    omega
  · rw [Reader.readSized, if_neg henough]
    show r.response.contentLength =
      some ((r.response.body ++ s.take left).size + (left - s.length))
    rw [hbody, hsize]
    congr 1
    omega

theorem readBody (h : GoesByLast r) (hread : r.readBody s = .ok r') : GoesByLast r' := by
  have hbody := h.body
  unfold Reader.readBody at hread
  split at hread
  · cases hread
    exact h.readSized ‹_› s
  · rename_i d hphase
    rw [MeasuresBody, hphase] at hbody
    simp only [readChunks] at hread
    split at hread
    · cases hread
    · cases hread
      unfold withDecoder
      split_ifs
      · exact ⟨⟨h.response.numeral, h.response.last⟩, fun _ _ _ hnot => absurd hbody hnot⟩
      · exact ⟨h.response, hbody⟩
  · rename_i hphase
    simp only [readUntilClose] at hread
    split_ifs at hread
    cases hread
    rw [MeasuresBody, hphase] at hbody
    refine ⟨⟨h.response.numeral, h.response.last⟩, ?_⟩
    simp only [MeasuresBody, addToBody, hphase]
    exact hbody
  · cases hread
  · cases hread
    exact h

theorem step (h : GoesByLast r) (hstep : r.step s = .ok r') : GoesByLast r' := by
  fun_induction Reader.step r s with
  | case1 r s hr part hs => exact h.addToLine hstep
  | case2 r s hr part rest hs ih =>
    obtain ⟨r₁, hadd, hstep⟩ := bind_eq_ok_iff.1 hstep
    obtain ⟨r₂, hend, hstep⟩ := bind_eq_ok_iff.1 hstep
    have hlines : r₁.inLines := by rw [inLines_of_addToLine hadd]; exact hr
    have hend' : GoesByLast r₂ := ((h.addToLine hadd).withLine #[]).readLine hlines hend
    exact ih r₂ hend' hstep
  | case3 r s hr => exact h.readBody hstep

theorem after (h : GoesByLast r) (c : Call) : GoesByLast (r.after c) := by
  cases c with
  | feed piece =>
    cases hr : r.failure? with
    | some e =>
      rw [after_of_failure hr]
      exact h
    | none =>
      rw [Reader.after, feed_of_not_failed hr]
      rcases hstep : r.step piece with e | r'
      · exact fail r e
      · exact h.step hstep
  | close =>
    simp only [Reader.after, close]
    split
    · exact h
    · exact h
    · rename_i hphase
      have hnone := h.body
      rw [MeasuresBody, hphase] at hnone
      refine ⟨h.response, fun n hn => ?_⟩
      cases hnone.symm.trans hn
    · exact fail r .incomplete

theorem run (expectBody : Bool) (maxBody : Nat) (calls : List Call) :
    GoesByLast ((Reader.new expectBody maxBody).run calls) :=
  List.foldlRecOn calls Reader.after (new expectBody maxBody) fun _ h c _ => h.after c

end GoesByLast

theorem expectBody_after (r : Reader) (c : Call) : (r.after c).expectBody = r.expectBody := by
  cases c with
  | feed piece =>
    cases hr : r.failure? with
    | some e => rw [after_of_failure hr]
    | none =>
      rw [after, feed_of_not_failed hr]
      rcases hstep : r.step piece with e | r'
      · rfl
      · exact (continues_of_step hstep).expectBody
  | close =>
    simp only [after, close]
    split <;> rfl

theorem expectBody_run (expectBody : Bool) (maxBody : Nat) (calls : List Call) :
    ((new expectBody maxBody).run calls).expectBody = expectBody :=
  List.foldlRecOn (motive := fun r => r.expectBody = expectBody) calls after rfl
    fun r h c _ => (expectBody_after r c).trans h

/-- However a response was read, its announced length is what the last field says that announces
one, and there is none without such a field.  That is how long the body is, if it is delimited by
its length.  It is what the field says that is found by name if and only if the first field and the
last one say the same. -/
theorem length_is_last_announced {expectBody : Bool} {maxBody : Nat} {calls : List Call}
    (hdone : ((new expectBody maxBody).run calls).progress = .ok .complete) :
    let response := ((new expectBody maxBody).run calls).response
    let fields := response.headers.values (utf8 "Content-Length")
    (response.contentLength = none ↔ ∀ field ∈ response.headers.toList,
      ¬ Ascii.sameIgnoringCase field.name (utf8 "Content-Length")) ∧
    (∀ value ∈ fields, (Numeral.decimal? value).isSome) ∧
    response.contentLength = fields.getLast?.bind Numeral.decimal? ∧
    (response.contentLength =
        (response.headers.get? (utf8 "Content-Length")).bind Numeral.decimal? ↔
      fields.head?.bind Numeral.decimal? = fields.getLast?.bind Numeral.decimal?) ∧
    ∀ n, response.contentLength = some n → ¬ response.NoBody expectBody → ¬ response.chunked →
      response.body.size = n := by
  intro response fields
  obtain ⟨htakes, hbody⟩ := GoesByLast.run expectBody maxBody calls
  rw [MeasuresBody, (progress_eq_complete_iff _).1 hdone] at hbody
  refine ⟨?_, htakes.numeral, htakes.last, ?_, ?_⟩
  · rw [htakes.contentLength_eq_none_iff]
    exact Headers.values_eq_nil_iff
  · rw [htakes.last, Headers.get?_eq_head?_values]
    exact eq_comm
  · rw [Response.HasLength, expectBody_run] at hbody
    exact hbody

/-- The same length twice, spelled differently, and a piece that ends within the second field. -/
theorem same_length_announced_twice :
    let calls : List Call := [
      .feed (utf8 "HTTP/1.1 200 OK
Content-Length: 5
content-le"),
      .feed (utf8 "ngth: 05

Hello")]
    let response := ((new true 5).run calls).response
    ((new true 5).run calls).progress = .ok .complete ∧
      response.headers.get? (utf8 "Content-Length") = some (utf8 "5") ∧
      response.contentLength =
        (response.headers.get? (utf8 "Content-Length")).bind Numeral.decimal? ∧
      response.body.size = 5 := by
  intro calls response
  have hdone : ((new true 5).run calls).progress = .ok .complete := by decide +kernel
  have hfirst : response.headers.get? (utf8 "Content-Length") = some (utf8 "5") := by
    decide +kernel
  obtain ⟨-, -, -, hagree, hsize⟩ := length_is_last_announced hdone
  have hlookup := hagree.2 (by decide +kernel)
  have hlength : response.contentLength = some 5 := by
    rw [hlookup, hfirst]
    decide
  exact ⟨hdone, hfirst, hlookup, hsize 5 hlength (by decide +kernel) (by decide +kernel)⟩

/-- A body of five bytes, where the field that is found by name says three. -/
theorem looked_up_length_differs :
    let data := utf8 "HTTP/1.1 200 OK
Content-Length: 3
Content-Length: 5

Hello"
    ∃ response, (new true defaultMaxBody).readAll data = .ok response ∧
      (response.headers.get? (utf8 "Content-Length")).bind Numeral.decimal? = some 3 ∧
      response.contentLength = some 5 ∧ response.body.toList = utf8 "Hello" := by
  let response : Response :=
    { status := 200, phrase := utf8 "OK", body := (utf8 "Hello").toArray, contentLength := some 5,
      headers := ⟨[⟨utf8 "Content-Length", utf8 "3"⟩, ⟨utf8 "Content-Length", utf8 "5"⟩]⟩ }
  exact ⟨response, by decide +kernel, by decide +kernel, rfl, by decide +kernel⟩

end Reader

end NetHost.Http
