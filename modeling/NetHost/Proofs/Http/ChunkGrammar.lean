import Mathlib.Tactic.Common
import NetHost.Proofs.Http.Pieces
import NetHost.Proofs.Text.Numeral

/-!
# The grammar of chunked bodies

`Encodes s body` says that `s` is `body` in chunked form, without reference to the decoder.

* `Decoder.feed_new_of_encodes`: what the grammar derives is read to its end, if the body is not
  longer than allowed, and is refused if it is (`Decoder.feed_of_encodes_of_lt`).
* `Decoder.encodes_of_feed_new`: what is read to its end is derived by the grammar.
* `Decoder.isDone_iff_encodes` has both, and that nothing after the end is looked at.
-/

namespace NetHost.Http.Chunked

/-! ## The grammar -/

/-- `s` is a line that says `text`: some bytes, at most `maxLine` and no line feed among them, and a
line feed.  The carriage return that they may end in does not belong to the text. -/
inductive Line : Bytes → Bytes → Prop where
  | intro {content : Bytes} (hlf : Ascii.lf ∉ content) (hlength : content.length ≤ maxLine) :
    Line (content ++ [Ascii.lf]) (Ascii.dropCr content)

/-- The part of a size line that has the size in it. -/
def sizeText (text : Bytes) : Bytes := Ascii.trim (text.takeWhile (· ≠ Ascii.semicolon))

inductive SizeLine : Bytes → Nat → Prop where
  | intro {s text : Bytes} {n : Nat} (hline : Line s text) (hutf8 : Utf8.isValid text)
      (hsize : Numeral.Denotes 16 (sizeText text) n) : SizeLine s n

/-- Lines up to the first empty one. -/
inductive Trailer : Bytes → Prop where
  | last {s : Bytes} (hline : Line s []) : Trailer s
  | field {s text rest : Bytes} (hline : Line s text) (htext : text ≠ []) (hrest : Trailer rest) :
    Trailer (s ++ rest)

/-- `s` is a body in chunked form. -/
inductive Encodes : Bytes → Bytes → Prop where
  | last {s rest : Bytes} (hsize : SizeLine s 0) (hrest : Trailer rest) : Encodes (s ++ rest) []
  | chunk {s data ending rest body : Bytes} (hsize : SizeLine s data.length) (hdata : data ≠ [])
      (hending : ending = [Ascii.lf] ∨ ending = Ascii.crlf) (hrest : Encodes rest body) :
    Encodes (s ++ data ++ ending ++ rest) (data ++ body)

namespace Decoder

variable {d d' d₁ d₂ : Decoder} {s t content : Bytes} {b : UInt8} {k : Nat}

/-! ## Reading to the end of a piece -/

/-- All of `s` is read. -/
def Reads (d : Decoder) (s : Bytes) (d' : Decoder) : Prop := d.feed s = (d', .ok s.length)

/-- The end of the body comes after `k` bytes of `s`. -/
def Finishes (d : Decoder) (s : Bytes) (d' : Decoder) (k : Nat) : Prop :=
  d.feed s = (d', .ok k) ∧ d'.phase = .done

theorem reads_nil (d : Decoder) : Reads d [] d := d.feedFrom_nil 0

theorem Reads.feed_append (h : Reads d s d₁) (t : Bytes) :
    d.feed (s ++ t) = ((d₁.feed t).1, (d₁.feed t).2.map (s.length + ·)) := by
  rw [Decoder.feed_append, h]

theorem Reads.append (h : Reads d s d₁) (h' : Reads d₁ t d₂) : Reads d (s ++ t) d₂ := by
  rw [Reads, h.feed_append, h', List.length_append]
  rfl

theorem Reads.of_done (h : Reads d s d') (hdone : d'.phase = .done) (t : Bytes) :
    d.feed (s ++ t) = (d', .ok s.length) := by
  have hstop : d'.feed t = (d', .ok 0) := feedFrom_of_done hdone 0 t
  rw [h.feed_append, hstop]
  rfl

/-! ### Single bytes -/

theorem feed_cons (hdone : d.phase ≠ .done) (hdata : ∀ left, d.phase ≠ .data left) (b : UInt8)
    (s : Bytes) :
    d.feed (b :: s) = match d.byte b with
      | (d₁, none) => ((d₁.feed s).1, (d₁.feed s).2.map (1 + ·))
      | (d₁, some e) => (d₁, .error e) := by
  rw [feed, feedFrom_of_byte hdone hdata]
  rcases d.byte b with ⟨d₁, _ | e⟩
  · exact feedFrom_add d₁ 1 0 s
  · rfl

theorem Reads.cons (hdone : d.phase ≠ .done) (hdata : ∀ left, d.phase ≠ .data left)
    (hbyte : d.byte b = (d₁, none)) (h : Reads d₁ s d') : Reads d (b :: s) d' := by
  have hs : d₁.feed s = (d', .ok s.length) := h
  rw [Reads, feed_cons hdone hdata, hbyte, List.length_cons, Nat.add_comm]
  simp only [hs]
  rfl

theorem Finishes.cons (h : Finishes d (b :: s) d' k) (hdone : d.phase ≠ .done)
    (hdata : ∀ left, d.phase ≠ .data left) :
    ∃ d₁ j, d.byte b = (d₁, none) ∧ Finishes d₁ s d' j ∧ k = 1 + j := by
  obtain ⟨hfeed, hd'⟩ := h
  rw [feed_cons hdone hdata] at hfeed
  rcases hbyte : d.byte b with ⟨d₁, _ | e⟩
  · rw [hbyte] at hfeed
    rcases hs : d₁.feed s with ⟨d₂, e | j⟩
    · simp only [hs] at hfeed
      cases hfeed
    · simp only [hs] at hfeed
      cases hfeed
      exact ⟨d₁, j, rfl, ⟨hs, hd'⟩, rfl⟩
  · rw [hbyte] at hfeed
    cases hfeed

theorem Finishes.ne_nil (h : Finishes d s d' k) (hdone : d.phase ≠ .done) : s ≠ [] := by
  rintro rfl
  have hd' : (d, Except.ok 0) = (d', .ok k) := (d.feedFrom_nil 0).symm.trans h.1
  cases hd'
  exact hdone h.2

theorem Finishes.after (h : Finishes d (s ++ t) d' k) (hs : Reads d s d₁) :
    ∃ j, Finishes d₁ t d' j ∧ k = s.length + j := by
  obtain ⟨hfeed, hd'⟩ := h
  rw [hs.feed_append] at hfeed
  rcases ht : d₁.feed t with ⟨d₂, e | j⟩
  · simp only [ht] at hfeed
    cases hfeed
  · simp only [ht] at hfeed
    cases hfeed
    exact ⟨j, ⟨ht, hd'⟩, rfl⟩

/-! ### Lines -/

/-- The decoder is at a size line or a trailer line. -/
def InLine (d : Decoder) : Prop := d.phase = .size ∨ d.phase = .trailer

theorem InLine.not_done (h : d.InLine) : d.phase ≠ .done := by
  rcases h with h | h <;> simp [h]

theorem InLine.not_data (h : d.InLine) (left : Nat) : d.phase ≠ .data left := by
  rcases h with h | h <;> simp [h]

theorem byte_of_ne_lf (h : d.InLine) (hb : b ≠ Ascii.lf) : d.byte b = d.addToLine b := by
  rcases h with h | h <;> simp only [byte, h, if_neg hb]

theorem line_append_cons (a : Array UInt8) (b : UInt8) (s : Bytes) :
    a.push b ++ s = a ++ (b :: s) := by
  rw [← List.singleton_append, Bytes.store_append]
  congr 1

theorem reads_content (h : d.InLine) (hlf : Ascii.lf ∉ content)
    (hlength : d.line.size + content.length ≤ maxLine) :
    Reads d content { d with line := d.line ++ content } := by
  induction content generalizing d with
  | nil =>
    have hline : d.line ++ ([] : Bytes) = d.line := by simp
    rw [hline]
    exact reads_nil d
  | cons b content ih =>
    rw [List.mem_cons, not_or] at hlf
    rw [List.length_cons] at hlength
    have hbyte : d.byte b = ({ d with line := d.line.push b }, none) := by
      rw [byte_of_ne_lf h (Ne.symm hlf.1), addToLine, if_pos (by omega)]
    have hsize : (d.line.push b).size = d.line.size + 1 := Array.size_push b
    have hrest := ih (d := { d with line := d.line.push b }) h hlf.2 (by simp only [hsize]; omega)
    rw [← line_append_cons]
    exact hrest.cons h.not_done h.not_data hbyte

/-- A body that comes to its end has the rest of a line in it first. -/
theorem Finishes.exists_line (h : Finishes d s d' k) (hline : d.InLine)
    (hsize : d.line.size ≤ maxLine) :
    ∃ content rest d₁ j, s = content ++ Ascii.lf :: rest ∧ Ascii.lf ∉ content ∧
      d.line.size + content.length ≤ maxLine ∧
      ({ d with line := d.line ++ content } : Decoder).byte Ascii.lf = (d₁, none) ∧
      Finishes d₁ rest d' j ∧ k = content.length + 1 + j := by
  induction s generalizing d k with
  | nil => exact absurd rfl (h.ne_nil hline.not_done)
  | cons b s ih =>
    obtain ⟨d₁, j, hbyte, hs, rfl⟩ := h.cons hline.not_done hline.not_data
    by_cases hb : b = Ascii.lf
    · subst hb
      have hsame : ({ d with line := d.line ++ ([] : Bytes) } : Decoder) = d := by simp
      rw [← hsame] at hbyte
      exact ⟨[], s, d₁, j, rfl, List.not_mem_nil, hsize, hbyte, hs, by simp⟩
    · rw [byte_of_ne_lf hline hb, addToLine] at hbyte
      split_ifs at hbyte with hroom
      · cases hbyte
        have hpush : (d.line.push b).size = d.line.size + 1 := Array.size_push b
        obtain ⟨content, rest, d₂, i, rfl, hlf, hlength, hend, hrest, rfl⟩ :=
          ih hs hline (by simp only [hpush]; omega)
        simp only [hpush] at hlength
        simp only [line_append_cons] at hend
        refine ⟨b :: content, rest, d₂, i, rfl, ?_, ?_, hend, hrest, ?_⟩
        · rw [List.mem_cons, not_or]
          exact ⟨Ne.symm hb, hlf⟩
        · rw [List.length_cons]
          omega
        · rw [List.length_cons]
          omega
      · cases hbyte

/-! ### The parts of a body -/

/-- A decoder of which no part of a line was read. -/
abbrev between (maxOutput : Nat) (output : Array UInt8) (phase : Phase) : Decoder :=
  { phase, maxOutput, output }

variable {m n : Nat} {o : Array UInt8} {p : Phase}

theorem reads_content_between (hp : p = .size ∨ p = .trailer) (hlf : Ascii.lf ∉ content)
    (hlength : content.length ≤ maxLine) :
    Reads (between m o p) content { between m o p with line := content.toArray } := by
  have hsize : (between m o p).line.size + content.length ≤ maxLine := by simpa using hlength
  rw [← Bytes.store_empty]
  exact reads_content (d := between m o p) hp hlf hsize

theorem reads_line (hp : p = .size ∨ p = .trailer) (hlf : Ascii.lf ∉ content)
    (hlength : content.length ≤ maxLine)
    (hend : ({ between m o p with line := content.toArray } : Decoder).byte Ascii.lf =
      (d₁, none)) :
    Reads (between m o p) (content ++ [Ascii.lf]) d₁ := by
  have hbetween : InLine { between m o p with line := content.toArray } := hp
  exact (reads_content_between hp hlf hlength).append
    ((reads_nil d₁).cons hbetween.not_done hbetween.not_data hend)

theorem Finishes.line (h : Finishes (between m o p) s d' k) (hp : p = .size ∨ p = .trailer) :
    ∃ content rest d₁ j, s = content ++ Ascii.lf :: rest ∧ Ascii.lf ∉ content ∧
      content.length ≤ maxLine ∧
      ({ between m o p with line := content.toArray } : Decoder).byte Ascii.lf = (d₁, none) ∧
      Finishes d₁ rest d' j ∧ k = content.length + 1 + j := by
  obtain ⟨content, rest, d₁, j, hs, hlf, hlength, hend, hrest, hk⟩ :=
    h.exists_line hp (Nat.zero_le _)
  simp only [Bytes.store_empty] at hend
  exact ⟨content, rest, d₁, j, hs, hlf, by simpa using hlength, hend, hrest, hk⟩

theorem byte_lf_of_trailer (m : Nat) (o : Array UInt8) (content : Bytes) :
    ({ between m o .trailer with line := content.toArray } : Decoder).byte Ascii.lf =
      (if (Ascii.dropCr content).isEmpty then between m o .done else between m o .trailer, none) :=
  rfl

theorem reads_trailer (h : Trailer s) : Reads (between m o .trailer) s (between m o .done) := by
  induction h with
  | @last s hline =>
    generalize htext : ([] : Bytes) = text at hline
    obtain ⟨hlf, hlength⟩ := hline
    refine reads_line (.inr rfl) hlf hlength ?_
    rw [byte_lf_of_trailer, ← htext]
    rfl
  | @field s text rest hline htext _ ih =>
    obtain ⟨hlf, hlength⟩ := hline
    refine .append (reads_line (.inr rfl) hlf hlength ?_) ih
    rw [byte_lf_of_trailer, if_neg (by simpa using htext)]

theorem Finishes.trailer (h : Finishes (between m o .trailer) s d' k) :
    ∃ t rest, Trailer t ∧ s = t ++ rest ∧ k = t.length ∧ d' = between m o .done := by
  -- Each round reads one line, so there is less to come.
  induction hn : s.length using Nat.strongRecOn generalizing s k with
  | _ n ih =>
  subst hn
  obtain ⟨content, rest, d₁, j, rfl, hlf, hlength, hend, hrest, rfl⟩ := h.line (.inr rfl)
  have hline : Line (content ++ [Ascii.lf]) (Ascii.dropCr content) := .intro hlf hlength
  rw [byte_lf_of_trailer] at hend
  cases hend
  split_ifs at hrest with hempty
  · rw [List.isEmpty_iff] at hempty
    rw [hempty] at hline
    have hstop : (between m o .done).feed rest = (between m o .done, .ok 0) :=
      feedFrom_of_done rfl 0 rest
    cases hstop.symm.trans hrest.1
    exact ⟨content ++ [Ascii.lf], rest, .last hline, by simp, by simp, rfl⟩
  · obtain ⟨t, rest', ht, rfl, rfl, hd'⟩ := ih rest.length (by simp; omega) hrest rfl
    refine ⟨content ++ [Ascii.lf] ++ t, rest', .field hline (by simpa using hempty) ht, ?_, ?_, hd'⟩
    · simp
    · simp
      omega

theorem readSize_eq_ok_iff {text : Bytes} :
    readSize text = .ok n ↔
      Utf8.isValid text ∧ Numeral.Denotes 16 (sizeText text) n ∧ n < Numeral.limit := by
  rw [← Numeral.read?_eq_some_iff (by omega)]
  show _ ↔ _ ∧ Numeral.hex? (Ascii.trim (text.takeWhile (· ≠ Ascii.semicolon))) = some n
  unfold readSize
  split_ifs with hutf8
  · cases Numeral.hex? (Ascii.trim (text.takeWhile (· ≠ Ascii.semicolon))) <;> simp [hutf8]
  · simp [hutf8]

/-- What comes after a size. -/
def afterSize (m : Nat) (o : Array UInt8) (n : Nat) : Decoder × Option Error :=
  if n = 0 then (between m o .trailer, none)
  else if n > m - o.size then (between m o .size, some .limitExceeded)
  else (between m o (.data n), none)

theorem byte_lf_of_size {content : Bytes} (h : readSize (Ascii.dropCr content) = .ok n) (m : Nat)
    (o : Array UInt8) :
    ({ between m o .size with line := content.toArray } : Decoder).byte Ascii.lf =
      afterSize m o n := by
  have hbyte : ({ between m o .size with line := content.toArray } : Decoder).byte Ascii.lf =
    ({ between m o .size with line := content.toArray } : Decoder).endSize := rfl
  rw [hbyte, endSize]
  simp only [h]
  rfl

theorem readSize_of_sizeLine {l : Bytes} (h : SizeLine l n) (hlimit : n < Numeral.limit) :
    ∃ content, l = content ++ [Ascii.lf] ∧ Ascii.lf ∉ content ∧ content.length ≤ maxLine ∧
      readSize (Ascii.dropCr content) = .ok n := by
  obtain ⟨⟨hlf, hlength⟩, hutf8, hsize⟩ := h
  exact ⟨_, rfl, hlf, hlength, readSize_eq_ok_iff.2 ⟨hutf8, hsize, hlimit⟩⟩

theorem reads_size {l : Bytes} (h : SizeLine l n) (hlimit : n < Numeral.limit)
    (hafter : afterSize m o n = (d₁, none)) : Reads (between m o .size) l d₁ := by
  obtain ⟨content, rfl, hlf, hlength, hread⟩ := readSize_of_sizeLine h hlimit
  exact reads_line (.inl rfl) hlf hlength ((byte_lf_of_size hread m o).trans hafter)

theorem feed_size_of_error {l : Bytes} {e : Error} (h : SizeLine l n) (hlimit : n < Numeral.limit)
    (hafter : afterSize m o n = (d₁, some e)) (t : Bytes) :
    (between m o .size).feed (l ++ t) = (d₁, .error e) := by
  obtain ⟨content, rfl, hlf, hlength, hread⟩ := readSize_of_sizeLine h hlimit
  have hline : InLine { between m o .size with line := content.toArray } := .inl rfl
  rw [List.append_assoc, (reads_content_between (.inl rfl) hlf hlength).feed_append,
    List.singleton_append, feed_cons hline.not_done hline.not_data, byte_lf_of_size hread, hafter]
  rfl

theorem Finishes.size (h : Finishes (between m o .size) s d' k) :
    ∃ l rest n d₁ j, SizeLine l n ∧ s = l ++ rest ∧ afterSize m o n = (d₁, none) ∧
      Finishes d₁ rest d' j ∧ k = l.length + j := by
  obtain ⟨content, rest, d₁, j, rfl, hlf, hlength, hend, hrest, rfl⟩ := h.line (.inl rfl)
  cases hread : readSize (Ascii.dropCr content) with
  | error e =>
    have hbyte : ({ between m o .size with line := content.toArray } : Decoder).byte Ascii.lf =
      ({ between m o .size with line := content.toArray } : Decoder).endSize := rfl
    rw [hbyte, endSize] at hend
    simp only [hread] at hend
    cases hend
  | ok n =>
    rw [byte_lf_of_size hread] at hend
    obtain ⟨hutf8, hsize, -⟩ := readSize_eq_ok_iff.1 hread
    exact ⟨content ++ [Ascii.lf], rest, n, d₁, j, ⟨.intro hlf hlength, hutf8, hsize⟩, by simp,
      hend, hrest, by simp⟩

theorem reads_data {data : Bytes} (hdata : data ≠ []) :
    Reads (between m o (.data data.length)) data (between m (o ++ data) .dataEnd) := by
  rw [Reads, feed, feedFrom_of_data rfl 0 hdata, List.take_length, List.drop_length,
    feedFrom_nil, Nat.zero_add, copy, if_pos (Nat.le_refl _)]

theorem Finishes.data (h : Finishes (between m o (.data n)) s d' k) (hn : n ≠ 0) :
    ∃ data rest j, data.length = n ∧ s = data ++ rest ∧
      Finishes (between m (o ++ data) .dataEnd) rest d' j ∧ k = data.length + j := by
  have hs : s ≠ [] := h.ne_nil nofun
  rcases Nat.lt_or_ge s.length n with hshort | henough
  · -- The chunk would be left unfinished.
    obtain ⟨hfeed, hd'⟩ := h
    rw [feed, feedFrom_of_data rfl 0 hs, List.drop_eq_nil_of_le (Nat.le_of_lt hshort), feedFrom_nil,
      copy, if_neg (by rw [List.length_take]; omega)] at hfeed
    cases hfeed
    cases hd'
  · have htake : (s.take n).length = n := List.length_take_of_le henough
    have hdata : s.take n ≠ [] := List.ne_nil_of_length_pos (by omega)
    have hreads :
        Reads (between m o (.data n)) (s.take n) (between m (o ++ s.take n) .dataEnd) := by
      have := reads_data (m := m) (o := o) hdata
      rwa [htake] at this
    rw [← List.take_append_drop n s] at h
    obtain ⟨j, hrest, hk⟩ := h.after hreads
    exact ⟨s.take n, s.drop n, j, htake, (List.take_append_drop n s).symm, hrest, hk⟩

theorem reads_ending {ending : Bytes} (h : ending = [Ascii.lf] ∨ ending = Ascii.crlf) :
    Reads (between m o .dataEnd) ending (between m o .size) := by
  rcases h with rfl | rfl
  · exact (reads_nil _).cons nofun nofun rfl
  · exact ((reads_nil _).cons (d := between m o .dataLineFeed) nofun nofun rfl).cons nofun nofun rfl

theorem Finishes.ending (h : Finishes (between m o .dataEnd) s d' k) :
    ∃ ending rest j, (ending = [Ascii.lf] ∨ ending = Ascii.crlf) ∧ s = ending ++ rest ∧
      Finishes (between m o .size) rest d' j ∧ k = ending.length + j := by
  obtain ⟨b, s, rfl⟩ := List.exists_cons_of_ne_nil (h.ne_nil nofun)
  obtain ⟨d₁, j, hbyte, hs, rfl⟩ := h.cons nofun nofun
  simp only [byte] at hbyte
  split_ifs at hbyte with hcr hlf
  · cases hbyte
    obtain ⟨c, s, rfl⟩ := List.exists_cons_of_ne_nil (hs.ne_nil nofun)
    obtain ⟨d₂, i, hbyte, hrest, rfl⟩ := hs.cons nofun nofun
    simp only [byte] at hbyte
    split_ifs at hbyte with hlf
    · cases hbyte
      subst hcr hlf
      exact ⟨Ascii.crlf, s, i, .inr rfl, rfl, hrest, by simp [Ascii.crlf]; omega⟩
    · cases hbyte
  · cases hbyte
    subst hlf
    exact ⟨[Ascii.lf], s, j, .inl rfl, rfl, hs, rfl⟩
  · cases hbyte

/-! ## Reading what the grammar derives -/

/-- A body that is not too long is read to its end. -/
theorem reads_of_encodes {body : Bytes} (h : Encodes s body) (hlimit : body.length < Numeral.limit)
    (hroom : o.size + body.length ≤ m) :
    Reads (between m o .size) s (between m (o ++ body) .done) := by
  induction h generalizing o with
  | last hsize hrest =>
    have hbody : o ++ ([] : Bytes) = o := by simp
    rw [hbody]
    exact (reads_size hsize (by decide) rfl).append (reads_trailer hrest)
  | @chunk l data ending rest body hsize hdata hending _ ih =>
    rw [List.length_append] at hlimit hroom
    have hpos := List.length_pos_iff.2 hdata
    have hafter : afterSize m o data.length = (between m o (.data data.length), none) := by
      rw [afterSize, if_neg (by omega), if_neg (by omega)]
    have hrest := ih (o := o ++ data) (by omega) (by rw [Bytes.size_store]; omega)
    rw [Bytes.store_append]
    exact ((reads_size hsize (by omega) hafter).append (reads_data hdata)).append
      (reads_ending hending) |>.append hrest

/-- A body that is too long is refused at the size of the chunk with which it gets so. -/
theorem feed_of_encodes_of_lt {body : Bytes} (h : Encodes s body)
    (hlimit : body.length < Numeral.limit) (hsize : o.size ≤ m) (hlt : m < o.size + body.length)
    (t : Bytes) :
    ∃ d', (between m o .size).feed (s ++ t) = (d', .error .limitExceeded) := by
  induction h generalizing o with
  | last =>
    rw [List.length_nil] at hlt
    omega
  | @chunk l data ending rest body hl hdata hending _ ih =>
    rw [List.length_append] at hlimit hlt
    have hpos := List.length_pos_iff.2 hdata
    simp only [List.append_assoc]
    rcases Nat.lt_or_ge (m - o.size) data.length with hlarge | hfits
    · have hafter : afterSize m o data.length = (between m o .size, some .limitExceeded) := by
        rw [afterSize, if_neg (by omega), if_pos hlarge]
      exact ⟨_, feed_size_of_error hl (by omega) hafter _⟩
    · have hafter : afterSize m o data.length = (between m o (.data data.length), none) := by
        rw [afterSize, if_neg (by omega), if_neg (by omega)]
      have hsize' : (o ++ data).size = o.size + data.length := Bytes.size_store o data
      obtain ⟨d', hd'⟩ := ih (o := o ++ data) (by omega) (by omega) (by omega)
      rw [(reads_size hl (by omega) hafter).feed_append, (reads_data hdata).feed_append,
        (reads_ending hending).feed_append, hd']
      exact ⟨d', rfl⟩

/-! ## What is read is derived -/

theorem encodes_of_finishes (h : Finishes (between m o .size) s d' k) (ho : o.size ≤ m) :
    ∃ t body rest, Encodes t body ∧ s = t ++ rest ∧ k = t.length ∧
      o.size + body.length ≤ m ∧ d' = between m (o ++ body) .done := by
  -- Each round reads one chunk.
  induction hn : s.length using Nat.strongRecOn generalizing s o k with
  | _ n ih =>
  subst hn
  obtain ⟨l, rest, n, d₁, j, hsize, rfl, hafter, hrest, rfl⟩ := h.size
  unfold afterSize at hafter
  split_ifs at hafter with hzero hlarge
  · cases hafter
    subst hzero
    obtain ⟨t, rest, ht, rfl, rfl, hd'⟩ := hrest.trailer
    exact ⟨l ++ t, [], rest, .last hsize ht, by simp, by simp, by simpa using ho,
      by simpa using hd'⟩
  · cases hafter
  · cases hafter
    obtain ⟨data, s₁, i, rfl, rfl, hend, rfl⟩ := hrest.data hzero
    obtain ⟨ending, s₂, j, hending, rfl, hnext, rfl⟩ := hend.ending
    have hdata : data ≠ [] := List.ne_nil_of_length_pos (by omega)
    obtain ⟨t, body, rest, ht, rfl, rfl, hroom, hd'⟩ := ih s₂.length (by simp; omega) hnext
      (by rw [Bytes.size_store]; omega) rfl
    refine ⟨l ++ data ++ ending ++ t, data ++ body, rest, .chunk hsize hdata hending ht, ?_, ?_, ?_,
      ?_⟩
    · simp
    · simp
    · rw [Bytes.size_store] at hroom
      rw [List.length_append]
      omega
    · rw [Bytes.store_append]
      exact hd'

/-! ## From the start of a body -/

theorem isDone_iff (d : Decoder) : d.isDone ↔ d.phase = .done := beq_iff_eq

theorem feed_new_of_encodes {max : Nat} {body : Bytes} (h : Encodes s body)
    (hlimit : body.length < Numeral.limit) (hroom : body.length ≤ max) (t : Bytes) :
    (new max).feed (s ++ t) =
      ({ phase := .done, maxOutput := max, output := body.toArray }, .ok s.length) := by
  have hreads := reads_of_encodes (m := max) (o := #[]) h hlimit (by simpa using hroom)
  rw [Bytes.store_empty] at hreads
  exact hreads.of_done rfl t

theorem encodes_of_feed_new {max : Nat} (h : (new max).feed s = (d, .ok k)) (hd : d.isDone) :
    k ≤ s.length ∧ Encodes (s.take k) d.output.toList ∧ d.output.size ≤ max := by
  have hfinishes : Finishes (between max #[] .size) s d k := ⟨h, (isDone_iff d).1 hd⟩
  obtain ⟨t, body, rest, ht, rfl, rfl, hroom, rfl⟩ := encodes_of_finishes hfinishes (Nat.zero_le _)
  refine ⟨by simp, ?_, ?_⟩
  · simpa using ht
  · simpa using hroom

/-- The body and the place where it ends are those that the grammar gives.  What comes after that
place is not looked at. -/
theorem isDone_iff_encodes (max : UInt64) (data : Bytes) :
    (∀ body k,
      (∃ d, (new max.toNat).feed data = (d, .ok k) ∧ d.isDone ∧ d.output.toList = body) ↔
        k ≤ data.length ∧ Encodes (data.take k) body ∧ body.length ≤ max.toNat) ∧
    ∀ d k, (new max.toNat).feed data = (d, .ok k) → d.isDone →
      ∀ later, (new max.toNat).feed (data.take k ++ later) = (d, .ok k) := by
  have hlimit {body : Bytes} (hroom : body.length ≤ max.toNat) : body.length < Numeral.limit :=
    Nat.lt_of_le_of_lt hroom max.toNat_lt
  refine ⟨fun body k => ⟨?_, ?_⟩, fun d k hfeed hd later => ?_⟩
  · rintro ⟨d, hfeed, hd, rfl⟩
    obtain ⟨hk, hencodes, hroom⟩ := encodes_of_feed_new hfeed hd
    exact ⟨hk, hencodes, by simpa using hroom⟩
  · rintro ⟨hk, hencodes, hroom⟩
    have hfeed := feed_new_of_encodes hencodes (hlimit hroom) hroom (data.drop k)
    rw [List.take_append_drop, List.length_take_of_le hk] at hfeed
    exact ⟨_, hfeed, rfl, rfl⟩
  · obtain ⟨hk, hencodes, hroom⟩ := encodes_of_feed_new hfeed hd
    have hfits : d.output.toList.length ≤ max.toNat := by simpa using hroom
    have hagain := feed_new_of_encodes hencodes (hlimit hfits) hfits
    have hsame := hagain (data.drop k)
    rw [List.take_append_drop, hfeed] at hsame
    rw [hagain later, hsame]

end Decoder

end NetHost.Http.Chunked
