import Mathlib.Data.List.Basic
import Mathlib.Tactic.Common
import NetHost.Proofs.Http.Calls
import NetHost.Proofs.Http.Lines

/-!
# A fixed budget of memory

Whatever bytes come, and in whatever pieces, what is stored stays within limits that are known
beforehand (`Reader.within_budget`).

* `Decoder.Fits` holds of a chunked decoder after any feeds, those after an error included.
* `Reader.Fits` holds of a reader after any calls.
-/

namespace NetHost.Http

/-! ## The chunked decoder -/

namespace Chunked.Decoder

variable {d d' : Decoder} {m : Nat}

/-- How much of a chunk is to come. -/
def left (d : Decoder) : Nat :=
  match d.phase with
  | .data left => left
  | _ => 0

/-- The decoder keeps to a body of at most `m` bytes, the rest of the present chunk included. -/
structure Fits (m : Nat) (d : Decoder) : Prop where
  maxOutput : d.maxOutput = m
  line : d.line.size ≤ maxLine
  output : d.output.size + d.left ≤ m
  left_pos : 0 < d.left ↔ ∃ left, d.phase = .data left

theorem fits_new (m : Nat) : Fits m (new m) :=
  ⟨rfl, Nat.zero_le _, Nat.zero_le _, by simp [new, left]⟩

theorem length_dropCr_le (line : Bytes) : (Ascii.dropCr line).length ≤ line.length := by
  unfold Ascii.dropCr
  split_ifs
  · rw [List.length_dropLast]
    omega
  · exact Nat.le_refl _

/-- Outside a chunk only the line and the phase change. -/
theorem Fits.idle (h : Fits m d) {phase : Phase} (hphase : ∀ left, phase ≠ .data left)
    {line : Array UInt8} (hline : line.size ≤ maxLine) : Fits m { d with phase, line } := by
  have hleft : ({ d with phase, line } : Decoder).left = 0 := by
    unfold left
    split
    · exact absurd ‹_› (hphase _)
    · rfl
  refine ⟨h.maxOutput, hline, ?_, ?_⟩
  · rw [hleft]
    exact Nat.le_trans (Nat.le_add_right _ _) h.output
  · rw [hleft]
    exact ⟨nofun, fun ⟨left, hdata⟩ => absurd hdata (hphase left)⟩

theorem Fits.addToLine (h : Fits m d) (b : UInt8) : Fits m (d.addToLine b).1 := by
  unfold Decoder.addToLine
  split_ifs with hroom
  · refine ⟨h.maxOutput, ?_, h.output, h.left_pos⟩
    rw [Array.size_push]
    exact hroom
  · exact h

/-- The size of a chunk is held against the room that is left. -/
theorem Fits.endSize (h : Fits m d) (hphase : d.phase = .size) : Fits m d.endSize.1 := by
  have hidle : ∀ left, d.phase ≠ .data left := by simp [hphase]
  have hempty : (#[] : Array UInt8).size ≤ maxLine := Nat.zero_le _
  have houtput := h.output
  simp only [Decoder.endSize]
  split
  · apply h.idle hidle
    rw [List.size_toArray]
    exact Nat.le_trans (length_dropCr_le _) (by rw [Array.length_toList]; exact h.line)
  · rename_i n _
    split_ifs with hzero hlarge
    · exact h.idle (by nofun) hempty
    · exact h.idle hidle hempty
    · have hroom : d.output.size + n ≤ m := by
        rw [← h.maxOutput] at houtput ⊢
        omega
      exact ⟨h.maxOutput, hempty, hroom, ⟨fun _ => ⟨n, rfl⟩, fun _ => Nat.pos_of_ne_zero hzero⟩⟩

theorem Fits.endTrailer (h : Fits m d) (hphase : d.phase = .trailer) : Fits m d.endTrailer := by
  have hempty : (#[] : Array UInt8).size ≤ maxLine := Nat.zero_le _
  unfold Decoder.endTrailer
  split_ifs
  · exact h.idle (by nofun) hempty
  · exact h.idle (by simp [hphase]) hempty

/-- A byte that is refused leaves the decoder within its budget too. -/
theorem Fits.byte (h : Fits m d) (b : UInt8) : Fits m (d.byte b).1 := by
  unfold Decoder.byte
  cases hphase : d.phase with
  | size =>
    dsimp only
    split_ifs
    · exact h.endSize hphase
    · exact h.addToLine b
  | trailer =>
    dsimp only
    split_ifs
    · exact h.endTrailer hphase
    · exact h.addToLine b
  | dataEnd =>
    dsimp only
    split_ifs
    · exact h.idle (by nofun) h.line
    · exact h.idle (by nofun) h.line
    · exact h
  | dataLineFeed =>
    dsimp only
    split_ifs
    · exact h.idle (by nofun) h.line
    · exact h
  | data left => exact h
  | done => exact h

/-- What is copied was counted as to come. -/
theorem Fits.copy {left : Nat} (h : Fits m d) (hphase : d.phase = .data left) {data : Bytes}
    (hdata : data.length ≤ left) : Fits m (d.copy left data) := by
  have houtput : d.output.size + left ≤ m := by
    have := h.output
    rwa [Decoder.left, hphase] at this
  have hsize : (d.output ++ data).size = d.output.size + data.length :=
    Bytes.size_store d.output data
  unfold Decoder.copy
  split_ifs with hend
  · have hroom : (d.output ++ data).size ≤ m := by omega
    exact ⟨h.maxOutput, h.line, hroom, ⟨nofun, nofun⟩⟩
  · have hroom : (d.output ++ data).size + (left - data.length) ≤ m := by omega
    have hpos : 0 < left - data.length := by omega
    exact ⟨h.maxOutput, h.line, hroom, ⟨fun _ => ⟨_, rfl⟩, fun _ => hpos⟩⟩

theorem Fits.feedFrom (h : Fits m d) (n : Nat) (s : Bytes) : Fits m (d.feedFrom n s).1 := by
  fun_induction Decoder.feedFrom n d s with
  | case1 n d => exact h
  | case2 n d b s hdone => exact h
  | case3 n d b s left hdata data ih => exact ih (h.copy hdata (List.length_take_le _ _))
  | case4 n d b s d' hb hdone hdata ih =>
    have hbyte := h.byte b
    rw [hb] at hbyte
    exact ih hbyte
  | case5 n d b s d' e hb hdone hdata =>
    have hbyte := h.byte b
    rw [hb] at hbyte
    exact hbyte

/-- Pieces are fed one after the other, whether or not one of them was refused. -/
theorem fits_of_pieces (m : Nat) (pieces : List Bytes) :
    Fits m (pieces.foldl (fun d s => (d.feed s).1) (new m)) :=
  List.foldlRecOn pieces _ (fits_new m) fun _ h s _ => h.feedFrom 0 s

end Chunked.Decoder

/-! ## The reader -/

/-- So many fields, and none too long. -/
structure Headers.Fits (h : Headers) : Prop where
  count : h.toList.length ≤ maxCount
  fields : ∀ field ∈ h.toList, field.name.length < maxName ∧ field.value.length < maxValue

theorem Headers.Fits.push {h h' : Headers} {name value : Bytes} (hfits : h.Fits)
    (hpush : h.push name value = .ok h') : h'.Fits := by
  have htoList := toList_of_push hpush
  unfold Headers.push at hpush
  split_ifs at hpush with hlimit
  simp only [ge_iff_le, Bool.or_eq_true, decide_eq_true_eq, not_or, Nat.not_le] at hlimit
  obtain ⟨⟨hcount, hname⟩, hvalue⟩ := hlimit
  constructor
  · rw [htoList, List.length_append]
    exact hcount
  · intro field hfield
    rw [htoList, List.mem_append, List.mem_singleton] at hfield
    rcases hfield with hfield | rfl
    · exact hfits.fields field hfield
    · exact ⟨hname, hvalue⟩

namespace Reader

variable {r r' : Reader} {m : Nat} {s : Bytes}

/-- The reader keeps to a body of at most `m` bytes, and to the limits of the lines. -/
structure Fits (m : Nat) (r : Reader) : Prop where
  maxBody : r.maxBody = m
  line : r.line.size ≤ maxLine
  headers : r.response.headers.Fits
  phrase : r.response.phrase.length < maxPhrase
  body : r.response.body.size ≤ m
  /-- Before the end of the header there is no body. -/
  header : r.inLines → r.response.body.size = 0
  sized : ∀ left, r.left? = some left → 0 < left ∧
    ∃ n, r.response.contentLength = some n ∧ r.response.body.size + left = n ∧ n ≤ m
  chunked : ∀ d, r.decoder? = some d → d.Fits m

theorem fits_new (expectBody : Bool) (m : Nat) : Fits m (new expectBody m) where
  maxBody := rfl
  line := Nat.zero_le _
  headers := ⟨Nat.zero_le _, nofun⟩
  phrase := (by decide : 0 < maxPhrase)
  body := Nat.zero_le _
  header _ := rfl
  sized := nofun
  chunked := nofun

theorem Fits.fail (h : Fits m r) (e : Error) : Fits m (r.fail e) where
  maxBody := h.maxBody
  line := Nat.zero_le _
  headers := ⟨Nat.zero_le _, nofun⟩
  phrase := (by decide : 0 < maxPhrase)
  body := Nat.zero_le _
  header _ := rfl
  sized := nofun
  chunked := nofun

/-- Bytes may be added to the line, or taken out of it, as long as they have room. -/
theorem Fits.withLine (h : Fits m r) {line : Array UInt8} (hline : line.size ≤ maxLine) :
    Fits m { r with line } :=
  ⟨h.maxBody, hline, h.headers, h.phrase, h.body, h.header, h.sized, h.chunked⟩

/-- In a phase that is neither in the header nor in a counted body, all that matters is the size of
the body. -/
theorem Fits.idle (h : Fits m r) {phase : Phase} {body : Array UInt8}
    (hphase : phase = .done ∨ phase = .untilClose) (hbody : body.size ≤ m) :
    Fits m { r with phase, response := { r.response with body } } := by
  rcases hphase with rfl | rfl
  · exact ⟨h.maxBody, h.line, h.headers, h.phrase, hbody, nofun, nofun, nofun⟩
  · exact ⟨h.maxBody, h.line, h.headers, h.phrase, hbody, nofun, nofun, nofun⟩

theorem Fits.chunks (h : Fits m r) {d : Chunked.Decoder} (hd : d.Fits m) :
    Fits m { r with phase := .chunked d } := by
  refine ⟨h.maxBody, h.line, h.headers, h.phrase, h.body, nofun, nofun, ?_⟩
  rintro _ ⟨⟩
  exact hd

theorem Fits.addToLine {part : Bytes} (h : Fits m r) (hadd : r.addToLine part = .ok r') :
    Fits m r' := by
  unfold Reader.addToLine at hadd
  split_ifs at hadd with hlong
  cases hadd
  apply h.withLine
  rw [Bytes.size_store]
  exact Nat.le_of_not_lt hlong

/-! ### Lines -/

theorem phrase_of_readStatusLine {line : Bytes} {status : Nat} {phrase : Bytes}
    (h : readStatusLine line = .ok (status, phrase)) : phrase.length < maxPhrase := by
  simp only [readStatusLine] at h
  split at h
  · cases h
  · split at h
    · cases h
    · split_ifs at h with _ hlong
      cases h
      exact Nat.lt_of_not_le hlong

theorem Fits.bodyPhase (h : Fits m r) (hr : r.inLines) {phase : Phase}
    (hphase : r.bodyPhase = .ok phase) : Fits m { r with phase } := by
  have hidle {phase : Phase} (hphase : phase = .done ∨ phase = .untilClose) :
      Fits m { r with phase } := h.idle hphase h.body
  unfold Reader.bodyPhase at hphase
  split_ifs at hphase
  · cases hphase
    exact hidle (.inl rfl)
  · cases hphase
    apply h.chunks
    rw [h.maxBody]
    exact Chunked.Decoder.fits_new m
  · split at hphase
    · cases hphase
      exact hidle (.inr rfl)
    · rename_i n hlength
      split_ifs at hphase with hlarge hzero hmemory
      · cases hphase
        exact hidle (.inl rfl)
      · cases hphase
        refine ⟨h.maxBody, h.line, h.headers, h.phrase, h.body, nofun, ?_, nofun⟩
        rintro left ⟨⟩
        have hmax := h.maxBody
        have hempty := h.header hr
        refine ⟨Nat.pos_of_ne_zero hzero, n, hlength, ?_, by omega⟩
        show r.response.body.size + n = n
        omega

theorem headers_of_addHeader {response response' : Response} {name value : Bytes}
    (h : addHeader response name value = .ok response') :
    ∃ headers chunked contentLength, response.headers.push name value = .ok headers ∧
      response' = { response with headers, chunked, contentLength } := by
  cases hpush : response.headers.push name value with
  | error e =>
    rw [addHeader, hpush] at h
    cases h
  | ok headers =>
    rw [addHeader_of_push hpush] at h
    split_ifs at h
    · split at h
      · cases h
        exact ⟨_, _, _, rfl, rfl⟩
      · cases h
    · cases h
      exact ⟨_, _, _, rfl, rfl⟩

theorem Fits.readLine {line : Bytes} (h : Fits m r) (hr : r.inLines)
    (hread : r.readLine line = .ok r') : Fits m r' := by
  unfold Reader.readLine at hread
  split_ifs at hread with _ hstatus hempty
  · obtain ⟨⟨status, phrase⟩, hline, hread⟩ := bind_eq_ok_iff.1 hread
    cases hread
    exact ⟨h.maxBody, h.line, h.headers, phrase_of_readStatusLine hline, h.body,
      fun _ => h.header hr, nofun, nofun⟩
  · obtain ⟨phase, hphase, hread⟩ := bind_eq_ok_iff.1 hread
    cases hread
    exact h.bodyPhase hr hphase
  · obtain ⟨⟨name, value⟩, -, hread⟩ := bind_eq_ok_iff.1 hread
    obtain ⟨response, hadd, hread⟩ := bind_eq_ok_iff.1 hread
    cases hread
    obtain ⟨headers, chunked, contentLength, hpush, rfl⟩ := headers_of_addHeader hadd
    have hphase : r.phase = .headers := by simpa [inLines, hstatus] using hr
    refine ⟨h.maxBody, h.line, h.headers.push hpush, h.phrase, h.body, fun _ => h.header hr, ?_, ?_⟩
    · simp [left?, hphase]
    · simp [decoder?, hphase]

/-! ### Bodies -/

theorem Fits.readSized {left : Nat} (h : Fits m r) (hphase : r.phase = .sized left) (s : Bytes) :
    Fits m (r.readSized left s) := by
  obtain ⟨hpos, n, hlength, hbody, hmax⟩ := h.sized left (by rw [left?, hphase])
  have hsize : (r.response.body ++ s.take left).size =
      r.response.body.size + min left s.length := by
    rw [Bytes.size_store, List.length_take]
  by_cases henough : left ≤ s.length
  · rw [Reader.readSized, if_pos henough]
    exact h.idle (.inl rfl) (by omega)
  · rw [Reader.readSized, if_neg henough]
    have hroom : (r.response.body ++ s.take left).size ≤ m := by omega
    refine ⟨h.maxBody, h.line, h.headers, h.phrase, hroom, ?_, ?_, ?_⟩
    · intro hlines
      cases hlines
    · rintro _ ⟨⟩
      refine ⟨by omega, n, hlength, ?_, hmax⟩
      show (r.response.body ++ s.take left).size + (left - s.length) = n
      omega
    · rintro _ ⟨⟩

theorem Fits.readBody (h : Fits m r) (hread : r.readBody s = .ok r') : Fits m r' := by
  unfold Reader.readBody at hread
  split at hread
  · cases hread
    exact h.readSized ‹_› s
  · rename_i d hphase
    have hd := (h.chunked d (by rw [decoder?, hphase])).feedFrom 0 s
    simp only [readChunks] at hread
    split at hread
    · cases hread
    · rename_i d' k hfeed
      have hd' : d'.Fits m := by
        rw [Chunked.Decoder.feed] at hfeed
        rwa [hfeed] at hd
      cases hread
      unfold withDecoder
      split_ifs
      · exact h.idle (.inl rfl) (Nat.le_trans (Nat.le_add_right _ _) hd'.output)
      · exact h.chunks hd'
  · rename_i hphase
    simp only [readUntilClose] at hread
    split_ifs at hread with hlarge
    cases hread
    have hmax := h.maxBody
    have hbody := h.body
    have hroom : (r.response.body ++ s).size ≤ m := by
      rw [Bytes.size_store]
      omega
    have hfits := h.idle (.inr rfl) hroom
    rw [← hphase] at hfits
    exact hfits
  · cases hread
  · cases hread
    exact h

theorem Fits.step (h : Fits m r) (hstep : r.step s = .ok r') : Fits m r' := by
  fun_induction Reader.step r s with
  | case1 r s hr part hs => exact h.addToLine hstep
  | case2 r s hr part rest hs ih =>
    obtain ⟨r₁, hadd, hstep⟩ := bind_eq_ok_iff.1 hstep
    obtain ⟨r₂, hend, hstep⟩ := bind_eq_ok_iff.1 hstep
    have hlines : r₁.inLines := by rw [inLines_of_addToLine hadd]; exact hr
    have hempty : (#[] : Array UInt8).size ≤ maxLine := Nat.zero_le _
    have hend' : Fits m r₂ := ((h.addToLine hadd).withLine hempty).readLine hlines hend
    exact ih r₂ hend' hstep
  | case3 r s hr => exact h.readBody hstep

/-! ### Calls -/

theorem Fits.after (h : Fits m r) (c : Call) : Fits m (r.after c) := by
  cases c with
  | feed piece =>
    cases hr : r.failure? with
    | some e =>
      rw [after_of_failure hr]
      exact h
    | none =>
      rw [Reader.after, feed_of_not_failed hr]
      rcases hstep : r.step piece with e | r'
      · exact h.fail e
      · exact h.step hstep
  | close =>
    simp only [Reader.after, close]
    split
    · exact h
    · exact h
    · exact h.idle (.inl rfl) h.body
    · exact h.fail .incomplete

/-- A reader keeps to its limits under all calls, and a decoder that is fed by itself does so under
all feeds.  So there is always room for what is compared with the rest of the room. -/
theorem within_budget (expectBody : Bool) (maxBody : Nat) (calls : List Call) (maxOutput : Nat)
    (pieces : List Bytes) :
    Fits maxBody ((new expectBody maxBody).run calls) ∧
      (pieces.foldl (fun d s => (d.feed s).1) (Chunked.Decoder.new maxOutput)).Fits maxOutput :=
  ⟨List.foldlRecOn calls Reader.after (fits_new expectBody maxBody) fun _ h c _ => h.after c,
    Chunked.Decoder.fits_of_pieces maxOutput pieces⟩

end Reader

end NetHost.Http
