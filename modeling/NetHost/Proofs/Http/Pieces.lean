import Mathlib.Tactic.Common
import NetHost.Http.Reader

/-!
# Reading in pieces

What a reader makes of a response does not depend on the pieces in which the bytes come.

* `Decoder.feed_append`: a chunked decoder that is fed two pieces stands where it stands after the
  joined piece, errors included.
* `Decoder.feed_joined`: the same by the three ways in which the first piece can end.
* `Reader.feed_append`: the same of a reader, in whatever state it is.
* `Reader.state_of_pieces`: the state reached by any pieces is the one reached by their bytes.
-/

namespace NetHost.Http

namespace Chunked.Decoder

/-! ## The chunked decoder -/

theorem feedFrom_nil (d : Decoder) (n : Nat) : d.feedFrom n [] = (d, .ok n) := by
  rw [feedFrom]

theorem feedFrom_of_done {d : Decoder} (h : d.phase = .done) (n : Nat) (s : Bytes) :
    d.feedFrom n s = (d, .ok n) := by
  cases s with
  | nil => exact d.feedFrom_nil n
  | cons b s =>
    rw [feedFrom]
    split <;> simp_all

theorem feedFrom_of_data {d : Decoder} {left : Nat} (h : d.phase = .data left) (n : Nat) {s : Bytes}
    (hs : s ≠ []) :
    d.feedFrom n s =
      (d.copy left (s.take left)).feedFrom (n + (s.take left).length) (s.drop left) := by
  cases s with
  | nil => exact absurd rfl hs
  | cons b s =>
    rw [feedFrom]
    split <;> simp_all

theorem feedFrom_of_byte {d : Decoder} (hdone : d.phase ≠ .done)
    (hdata : ∀ left, d.phase ≠ .data left) (n : Nat) (b : UInt8) (s : Bytes) :
    d.feedFrom n (b :: s) =
      match d.byte b with
      | (d', none) => d'.feedFrom (n + 1) s
      | (d', some e) => (d', .error e) := by
  rw [feedFrom]
  split
  · exact absurd ‹_› hdone
  · exact absurd ‹_› (hdata _)
  · rfl

/-- Copying two parts one after the other is copying them joined. -/
theorem copy_append (d : Decoder) (left : Nat) (x y : Bytes) :
    d.copy left (x ++ y) = (d.copy left x).copy (left - x.length) y := by
  have hle : left - x.length ≤ y.length ↔ left ≤ x.length + y.length := by omega
  simp only [copy, List.length_append, Bytes.store_append, Nat.sub_sub, hle]

/-- A chunk that the first piece leaves unfinished goes on with the second. -/
theorem feedFrom_copy {d : Decoder} {left : Nat} {x : Bytes} (h : x.length < left) (n : Nat)
    (y : Bytes) :
    (d.copy left x).feedFrom n y =
      (d.copy left (x ++ y.take (left - x.length))).feedFrom
        (n + (y.take (left - x.length)).length) (y.drop (left - x.length)) := by
  have hphase : (d.copy left x).phase = .data (left - x.length) := if_neg (by omega)
  cases y with
  | nil => simp only [List.take_nil, List.append_nil, List.drop_nil, List.length_nil, Nat.add_zero]
  | cons b y => rw [feedFrom_of_data hphase n (List.cons_ne_nil b y), copy_append]

/-- Feeding two pieces one after the other is feeding them joined.  After an error nothing of the
second piece is read. -/
theorem feedFrom_append (d : Decoder) (n : Nat) (s t : Bytes) :
    d.feedFrom n (s ++ t) =
      match d.feedFrom n s with
      | (d', .ok k) => d'.feedFrom k t
      | (d', .error e) => (d', .error e) := by
  fun_induction feedFrom n d s with
  | case1 n d => rfl
  | case2 n d b s done => simp only [feedFrom_of_done done]
  | case3 n d b s left hdata data ih =>
    rw [feedFrom_of_data hdata n (by simp)]
    rcases Nat.lt_or_ge (b :: s).length left with short | enough
    · -- The data goes on in the second piece.
      have htake : (b :: s).take left = b :: s := List.take_of_length_le (Nat.le_of_lt short)
      have hdrop : (b :: s).drop left = [] := List.drop_eq_nil_of_le (Nat.le_of_lt short)
      simp only [data, hdrop, htake, feedFrom_nil, List.take_append, List.drop_append,
        List.nil_append, List.length_append, ← Nat.add_assoc]
      exact (feedFrom_copy short _ t).symm
    · rw [List.take_append_of_le_length enough, List.drop_append_of_le_length enough]
      exact ih
  | case4 n d b s d' hb hdone hdata ih =>
    rw [List.cons_append, feedFrom_of_byte hdone hdata, hb]
    exact ih
  | case5 n d b s d' e hb hdone hdata =>
    rw [List.cons_append, feedFrom_of_byte hdone hdata, hb]

/-- What was read before is counted in, and changes nothing else. -/
theorem feedFrom_add (d : Decoder) (m n : Nat) (s : Bytes) :
    d.feedFrom (m + n) s = ((d.feedFrom n s).1, (d.feedFrom n s).2.map (m + ·)) := by
  fun_induction feedFrom n d s with
  | case1 n d => exact feedFrom_nil d _
  | case2 n d b s done => exact feedFrom_of_done done _ _
  | case3 n d b s left hdata data ih =>
    rw [feedFrom_of_data hdata _ (List.cons_ne_nil b s), Nat.add_assoc]
    exact ih
  | case4 n d b s d' hb hdone hdata ih =>
    rw [feedFrom_of_byte hdone hdata, hb]
    exact ih
  | case5 n d b s d' e hb hdone hdata =>
    rw [feedFrom_of_byte hdone hdata, hb]
    rfl

/-- Feeding on, in terms of a feed that counts its own bytes. -/
theorem feed_append (d : Decoder) (s t : Bytes) :
    d.feed (s ++ t) =
      match d.feed s with
      | (d', .ok k) => ((d'.feed t).1, (d'.feed t).2.map (k + ·))
      | (d', .error e) => (d', .error e) := by
  unfold feed
  rw [feedFrom_append]
  split
  · exact feedFrom_add _ _ 0 t
  · rfl

/-- Without an error all is read, or the body has come to its end before. -/
theorem consumed_of_feedFrom {d d' : Decoder} {n k : Nat} {s : Bytes}
    (h : d.feedFrom n s = (d', .ok k)) :
    k = n + s.length ∨ k < n + s.length ∧ d'.phase = .done := by
  fun_induction feedFrom n d s with
  | case1 n d =>
    cases h
    exact .inl rfl
  | case2 n d b s done =>
    cases h
    exact .inr ⟨by simp, done⟩
  | case3 n d b s left hdata data ih =>
    have hlength : data.length + ((b :: s).drop left).length = (b :: s).length := by
      rw [← List.length_append, List.take_append_drop]
    rw [← hlength, ← Nat.add_assoc]
    exact ih h
  | case4 n d b s d' hb hdone hdata ih =>
    rw [List.length_cons, Nat.add_comm s.length, ← Nat.add_assoc]
    exact ih h
  | case5 n d b s d' e hb hdone hdata => cases h

/-- Feeding two pieces joined, by what the first one does alone: it fails, or ends the body before
its own end, or goes on into the second. -/
theorem feed_joined (d : Decoder) (s t : Bytes) :
    match d.feed s with
    | (d', .error e) => d.feed (s ++ t) = (d', .error e)
    | (d', .ok n) =>
      if n < s.length then d'.isDone ∧ d.feed (s ++ t) = (d', .ok n)
      else n = s.length ∧
        d.feed (s ++ t) = ((d'.feed t).1, (d'.feed t).2.map (s.length + ·)) := by
  rw [feed_append]
  rcases hs : d.feed s with ⟨d', e | n⟩
  · rfl
  · rcases consumed_of_feedFrom hs with rfl | ⟨hlt, done⟩
    · rw [Nat.zero_add]
      simp only [Nat.lt_irrefl, if_false, true_and]
    · rw [Nat.zero_add] at hlt
      have hstop : d'.feed t = (d', .ok 0) := feedFrom_of_done done 0 t
      simp only [hlt, if_true, hstop]
      exact ⟨beq_iff_eq.2 done, rfl⟩

end Chunked.Decoder

/-! ## The reader -/

namespace Reader

variable {r r' : Reader} {s part rest : Bytes} {left : Nat}

theorem step_of_cut_none (hr : r.inLines) (hs : Ascii.cut Ascii.lf s = (part, none)) :
    r.step s = r.addToLine part := by
  rw [step, if_pos hr]
  split <;> simp_all

theorem step_of_cut_some (hr : r.inLines) (hs : Ascii.cut Ascii.lf s = (part, some rest)) :
    r.step s = r.addToLine part >>= fun r => r.endLine >>= fun r => r.step rest := by
  rw [step, if_pos hr]
  split <;> simp_all

theorem step_of_not_inLines (hr : ¬ r.inLines) (s : Bytes) : r.step s = r.readBody s := by
  rw [step, if_neg hr]

theorem addToLine_append (r : Reader) (x y : Bytes) :
    r.addToLine (x ++ y) = r.addToLine x >>= fun r => r.addToLine y := by
  unfold addToLine
  by_cases hx : r.line.size + x.length > maxLine
  · rw [if_pos hx, if_pos (by simp only [List.length_append]; omega)]
    rfl
  · rw [if_neg hx]
    show _ = if (r.line ++ x).size + y.length > maxLine then _ else _
    simp only [Bytes.store_append, Bytes.size_store, List.length_append, Nat.add_assoc]

theorem inLines_of_addToLine (h : r.addToLine part = .ok r') :
    r'.inLines = r.inLines := by
  unfold addToLine at h
  split at h
  · cases h
  · cases h
    rfl

theorem addToBody_append (r : Reader) (x y : Bytes) :
    r.addToBody (x ++ y) = (r.addToBody x).addToBody y := by
  simp only [addToBody, Bytes.store_append]

theorem readBody_of_done (hr : r.phase = .done) (s : Bytes) : r.readBody s = .ok r := by
  simp only [readBody, hr]

theorem readSized_append (r : Reader) (left : Nat) (s t : Bytes) :
    .ok (r.readSized left (s ++ t)) = (r.readSized left s).readBody t := by
  rcases Nat.lt_or_ge s.length left with short | enough
  · have hphase : (r.readSized left s).phase = .sized (left - s.length) := if_neg (by omega)
    have hle : left - s.length ≤ t.length ↔ left ≤ s.length + t.length := by omega
    simp only [readBody, hphase]
    simp only [readSized, addToBody, List.length_append, List.take_append,
      List.take_of_length_le (Nat.le_of_lt short), Bytes.store_append, hle, Nat.sub_sub]
  · have hphase : (r.readSized left s).phase = .done := if_pos enough
    have hle : left ≤ s.length + t.length := by omega
    rw [readBody_of_done hphase]
    simp only [readSized, List.length_append, List.take_append_of_le_length enough, hle, enough,
      if_true]

theorem readChunks_append (hr : r.phase = .done) (d : Chunked.Decoder) (s t : Bytes) :
    r.readChunks d (s ++ t) = r.readChunks d s >>= fun r => r.readBody t := by
  unfold readChunks
  rw [Chunked.Decoder.feed_append]
  rcases d.feed s with ⟨d', e | k⟩
  · rfl
  · show _ = (r.withDecoder d').readBody t
    by_cases done : d'.phase = .done
    · have hfeed : d'.feed t = (d', .ok 0) := Chunked.Decoder.feedFrom_of_done done 0 t
      have hphase : (r.withDecoder d').phase = .done := by
        simp only [withDecoder, Chunked.Decoder.isDone, done, BEq.rfl, if_true]
      rw [readBody_of_done hphase]
      simp only [hfeed]
      rfl
    · have hwith : r.withDecoder d' = { r with phase := .chunked d' } :=
        if_neg (by simpa only [Chunked.Decoder.isDone, beq_iff_eq] using done)
      have hback : ({ r with phase := .done } : Reader) = r := by rw [← hr]
      rw [hwith]
      show _ = ({ r with phase := .done } : Reader).readChunks d' t
      rw [hback, readChunks]
      simp only
      rcases d'.feed t with ⟨d'', e | k'⟩ <;> rfl

theorem readUntilClose_append (hr : r.phase = .untilClose) (s t : Bytes) :
    r.readUntilClose (s ++ t) = r.readUntilClose s >>= fun r => r.readBody t := by
  unfold readUntilClose
  by_cases hs : s.length > r.maxBody - r.response.body.size
  · rw [if_pos hs, if_pos (by simp only [List.length_append]; omega)]
    rfl
  · have hsize : (r.addToBody s).response.body.size = r.response.body.size + s.length :=
      Bytes.size_store _ _
    have hle : (s ++ t).length > r.maxBody - r.response.body.size ↔
        t.length > r.maxBody - (r.addToBody s).response.body.size := by
      rw [hsize, List.length_append]
      omega
    rw [if_neg hs]
    show _ = (r.addToBody s).readBody t
    have hphase : (r.addToBody s).phase = .untilClose := hr
    simp only [readBody, hphase, readUntilClose, hle, addToBody_append]
    rfl

/-- Reading two pieces of what follows the header is reading them joined. -/
theorem readBody_append (r : Reader) (s t : Bytes) :
    r.readBody (s ++ t) = r.readBody s >>= fun r => r.readBody t := by
  cases hr : r.phase with
  | sized left =>
    simp only [readBody, hr]
    exact r.readSized_append left s t
  | chunked d =>
    simp only [readBody, hr]
    exact readChunks_append rfl d s t
  | untilClose =>
    simp only [readBody, hr]
    exact readUntilClose_append hr s t
  | failed e =>
    simp only [readBody, hr]
    rfl
  | statusLine | headers | done =>
    simp only [readBody, hr]
    show _ = r.readBody t
    simp only [readBody, hr]

/-- Once the body has begun, no more lines are read. -/
theorem inLines_of_readBody (hr : ¬ r.inLines) (h : r.readBody s = .ok r') : ¬ r'.inLines := by
  unfold readBody at h
  split at h
  · cases h
    simp only [inLines, readSized]
    split <;> simp
  · simp only [readChunks] at h
    split at h <;> cases h
    simp only [inLines, withDecoder]
    split <;> simp
  · simp only [readUntilClose] at h
    split at h <;> cases h
    exact hr
  · cases h
  · cases h
    exact hr

/-- Reading two pieces, as long as none fails, is reading them joined. -/
theorem step_append (r : Reader) (s t : Bytes) :
    r.step (s ++ t) = r.step s >>= fun r => r.step t := by
  fun_induction step r s with
  | case1 r s hr part hs =>
    -- The first piece ends inside a line, which the second goes on with.
    have hcut := Ascii.cut_append_of_none hs t
    rcases ht : Ascii.cut Ascii.lf t with ⟨p, _ | rest⟩ <;> rw [ht] at hcut
    · rw [step_of_cut_none hr hcut, addToLine_append]
      rcases h : r.addToLine part with e | r'
      · rfl
      · exact (step_of_cut_none (inLines_of_addToLine h ▸ hr) ht).symm
    · rw [step_of_cut_some hr hcut, addToLine_append]
      rcases h : r.addToLine part with e | r'
      · rfl
      · exact (step_of_cut_some (inLines_of_addToLine h ▸ hr) ht).symm
  | case2 r s hr part rest hs ih =>
    rw [step_of_cut_some hr (Ascii.cut_append_of_some hs t)]
    rcases r.addToLine part with e | r₁
    · rfl
    show (r₁.endLine >>= fun r => r.step (rest ++ t)) =
      (r₁.endLine >>= fun r => r.step rest) >>= fun r => r.step t
    rcases r₁.endLine with e | r₂
    · rfl
    · exact ih r₂
  | case3 r s hr =>
    rw [step_of_not_inLines hr, readBody_append]
    rcases h : r.readBody s with e | r'
    · rfl
    · exact (step_of_not_inLines (inLines_of_readBody hr h) t).symm

/-! ## What reading leaves alone -/

/-- A reader that `r` may have become without failing. -/
structure Continues (r r' : Reader) : Prop where
  expectBody : r'.expectBody = r.expectBody
  maxBody : r'.maxBody = r.maxBody
  failure : r.failure? = none → r'.failure? = none

theorem Continues.refl (r : Reader) : Continues r r := ⟨rfl, rfl, id⟩

theorem Continues.trans {r₁ r₂ r₃ : Reader} (h : Continues r₁ r₂) (h' : Continues r₂ r₃) :
    Continues r₁ r₃ :=
  ⟨h'.expectBody.trans h.expectBody, h'.maxBody.trans h.maxBody, h'.failure ∘ h.failure⟩

theorem Continues.fail_eq (h : Continues r r') (e : Error) : r'.fail e = r.fail e := by
  simp only [fail, h.expectBody, h.maxBody]

theorem continues_of_addToLine (h : r.addToLine part = .ok r') : Continues r r' := by
  unfold addToLine at h
  split at h <;> cases h
  exact ⟨rfl, rfl, id⟩

theorem bodyPhase_ne_failed {p : Phase} (h : r.bodyPhase = .ok p) (e : Error) : p ≠ .failed e := by
  unfold bodyPhase at h
  split_ifs at h
  · cases h; simp
  · cases h; simp
  · split at h
    · cases h; simp
    · split_ifs at h <;> cases h <;> simp

theorem continues_of_readLine {line : Bytes} (h : r.readLine line = .ok r') : Continues r r' := by
  unfold readLine at h
  split_ifs at h with _ hstatus hend
  · obtain ⟨⟨status, phrase⟩, -, h⟩ := bind_eq_ok_iff.1 h
    cases h
    exact ⟨rfl, rfl, fun _ => rfl⟩
  · obtain ⟨p, hp, h⟩ := bind_eq_ok_iff.1 h
    cases h
    refine ⟨rfl, rfl, fun _ => ?_⟩
    unfold failure?
    split
    · exact absurd ‹_› (bodyPhase_ne_failed hp _)
    · rfl
  · obtain ⟨⟨name, value⟩, -, h⟩ := bind_eq_ok_iff.1 h
    obtain ⟨response, -, h⟩ := bind_eq_ok_iff.1 h
    cases h
    exact ⟨rfl, rfl, id⟩

theorem continues_of_endLine (h : r.endLine = .ok r') : Continues r r' :=
  (show Continues r { r with line := #[] } from ⟨rfl, rfl, id⟩).trans (continues_of_readLine h)

theorem continues_of_readBody (h : r.readBody s = .ok r') : Continues r r' := by
  unfold readBody at h
  split at h
  · cases h
    refine ⟨rfl, rfl, fun _ => ?_⟩
    simp only [failure?, readSized]
    split_ifs <;> rfl
  · simp only [readChunks] at h
    split at h <;> cases h
    refine ⟨?_, ?_, fun _ => ?_⟩
    all_goals
      simp only [withDecoder]
      split_ifs <;> rfl
  · simp only [readUntilClose] at h
    split at h <;> cases h
    exact ⟨rfl, rfl, id⟩
  · cases h
  · cases h
    exact .refl r

theorem continues_of_step (h : r.step s = .ok r') : Continues r r' := by
  fun_induction step r s with
  | case1 r s hr part hs => exact continues_of_addToLine h
  | case2 r s hr part rest hs ih =>
    obtain ⟨r₁, hadd, h⟩ := bind_eq_ok_iff.1 h
    obtain ⟨r₂, hend, h⟩ := bind_eq_ok_iff.1 h
    exact (continues_of_addToLine hadd).trans ((continues_of_endLine hend).trans (ih r₂ h))
  | case3 r s hr => exact continues_of_readBody h

/-! ## Pieces -/

theorem feed_of_failure {e : Error} (h : r.failure? = some e) (s : Bytes) : r.feed s = r := by
  unfold failure? at h
  split at h
  · simp only [feed, *]
  · cases h

theorem feed_of_not_failed (h : r.failure? = none) (s : Bytes) :
    r.feed s = match r.step s with
      | .ok r => r
      | .error e => r.fail e := by
  unfold failure? at h
  split at h
  · cases h
  · unfold feed
    split
    · exact absurd ‹_› (‹∀ e, r.phase = .failed e → False› _)
    · rfl

theorem failure?_fail (r : Reader) (e : Error) : (r.fail e).failure? = some e := rfl

/-- Reading two pieces is reading them joined, wherever the reader stands. -/
theorem feed_append (r : Reader) (s t : Bytes) : r.feed (s ++ t) = (r.feed s).feed t := by
  cases hr : r.failure? with
  | some e => simp only [feed_of_failure hr]
  | none =>
    rw [feed_of_not_failed hr, feed_of_not_failed hr s, step_append]
    rcases hs : r.step s with e | r'
    · exact (feed_of_failure (failure?_fail r e) t).symm
    · have hcont := continues_of_step hs
      show (match r'.step t with
        | .ok r => r
        | .error e => r.fail e) = r'.feed t
      rw [feed_of_not_failed (hcont.failure hr)]
      simp only [hcont.fail_eq]

theorem progress_eq_error_iff (r : Reader) (e : Error) :
    r.progress = .error e ↔ r.failure? = some e := by
  unfold progress failure?
  cases r.phase <;> simp

theorem feed_of_progress_error {e : Error} (h : r.progress = .error e) (s : Bytes) :
    r.feed s = r :=
  feed_of_failure ((progress_eq_error_iff r e).1 h) s

theorem feed_new_nil (expectBody : Bool) (maxBody : Nat) :
    (new expectBody maxBody).feed [] = new expectBody maxBody := by
  have hcut : Ascii.cut Ascii.lf [] = ([], none) := rfl
  rw [feed_of_not_failed rfl, step_of_cut_none rfl hcut]
  rfl

/-- Reading pieces one after the other is reading what they are joined to. -/
theorem foldl_feed (r : Reader) (s : Bytes) (pieces : List Bytes) :
    pieces.foldl feed (r.feed s) = r.feed (s ++ pieces.flatten) := by
  induction pieces generalizing s with
  | nil => rw [List.foldl_nil, List.flatten_nil, List.append_nil]
  | cons t pieces ih =>
    rw [List.foldl_cons, List.flatten_cons, ← feed_append, ih, List.append_assoc]

/-- The state of a reader, and with it what it answers, depends on the bytes that it was fed and
not on the pieces they came in.  The error of one piece is what every later one meets, and what
leads up to a complete response is at no point refused. -/
theorem state_of_pieces (expectBody : Bool) (maxBody : Nat) (earlier : List Bytes) (a b : Bytes) :
    let r := earlier.foldl feed (new expectBody maxBody)
    r.feed (a ++ b) = (r.feed a).feed b ∧
      r = (new expectBody maxBody).feed earlier.flatten ∧
      (∀ e, (r.feed a).progress = .error e → ((r.feed a).feed b).progress = .error e) ∧
      ((r.feed (a ++ b)).progress = .ok .complete → ∃ p, (r.feed a).progress = .ok p) := by
  intro r
  have hsplit : r.feed (a ++ b) = (r.feed a).feed b := r.feed_append a b
  have hrepeat : ∀ e, (r.feed a).progress = .error e → ((r.feed a).feed b).progress = .error e := by
    intro e he
    rw [feed_of_progress_error he]
    exact he
  refine ⟨hsplit, ?_, hrepeat, fun hdone => ?_⟩
  · have := foldl_feed (new expectBody maxBody) [] earlier
    rwa [feed_new_nil, List.nil_append] at this
  · cases h : (r.feed a).progress with
    | error e =>
      rw [hsplit, hrepeat e h] at hdone
      cases hdone
    | ok p => exact ⟨p, rfl⟩

end Reader

end NetHost.Http
