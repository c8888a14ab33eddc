import Mathlib.Tactic.Common
import NetHost.Proofs.Http.Pieces

/-!
# The lines of a response

How the reader takes a line that has come in full (`step_line`), that nothing else leads it past
the header (`exists_line_of_step`), and what a header line does to the response
(`addHeader_of_push`).
-/

namespace NetHost.Http.Reader

variable {r r' : Reader} {response : Response} {headers : Headers} {content text s : Bytes}
  {name value : Bytes}

/-! ## Lines in the bytes -/

theorem cut_at {sep : UInt8} (h : sep ∉ text) (rest : Bytes) :
    Ascii.cut sep (text ++ sep :: rest) = (text, some rest) := by
  rw [Ascii.cut_append h, Ascii.cut_cons_self, List.append_nil]

theorem eq_line_of_cut {rest : Bytes} (h : Ascii.cut Ascii.lf s = (content, some rest)) :
    s = content ++ Ascii.lf :: rest ∧ Ascii.lf ∉ content := by
  have heq := Ascii.cut_eq Ascii.lf s
  have hlf := Ascii.not_mem_cut_fst Ascii.lf s
  rw [h] at heq hlf
  exact ⟨heq, hlf⟩

theorem step_line (hr : r.inLines) (hline : r.line = #[]) (hlf : Ascii.lf ∉ content)
    (hlength : content.length ≤ maxLine) (rest : Bytes) :
    r.step (content ++ Ascii.lf :: rest) =
      r.readLine (Ascii.dropCr content) >>= fun r => r.step rest := by
  have hroom : ¬ r.line.size + content.length > maxLine := by simp [hline, hlength]
  have hcontent : r.line ++ content = content.toArray := by rw [hline, Bytes.store_empty]
  have hback : ({ r with line := #[] } : Reader) = r := by rw [← hline]
  rw [step_of_cut_some hr (cut_at hlf rest), addToLine, if_neg hroom, hcontent]
  show (readLine { r with line := #[] } (Ascii.dropCr content) >>= fun r => r.step rest) = _
  rw [hback]

theorem dropCr_append_cr (text : Bytes) : Ascii.dropCr (text ++ [Ascii.cr]) = text := by
  simp [Ascii.dropCr]

/-- The usual line, which ends in both characters. -/
theorem step_crlf (hr : r.inLines) (hline : r.line = #[]) (hlf : Ascii.lf ∉ text)
    (hlength : text.length < maxLine) (rest : Bytes) :
    r.step (text ++ Ascii.crlf ++ rest) = r.readLine text >>= fun r => r.step rest := by
  have hcontent : Ascii.lf ∉ text ++ [Ascii.cr] := by
    simp only [List.mem_append, List.mem_singleton, not_or]
    exact ⟨hlf, by decide⟩
  have hstep := step_line hr hline hcontent (by simp; omega) rest
  rw [dropCr_append_cr] at hstep
  rw [← hstep, Ascii.crlf, List.append_assoc, List.append_assoc]
  rfl

/-- What takes the reader past the header has a line in it first. -/
theorem exists_line_of_step (hr : r.inLines) (hline : r.line = #[]) (h : r.step s = .ok r')
    (hr' : ¬ r'.inLines) :
    ∃ content rest r₁, s = content ++ Ascii.lf :: rest ∧ Ascii.lf ∉ content ∧
      r.readLine (Ascii.dropCr content) = .ok r₁ ∧ r₁.step rest = .ok r' := by
  rcases hs : Ascii.cut Ascii.lf s with ⟨content, _ | rest⟩
  · rw [step_of_cut_none hr hs] at h
    rw [inLines_of_addToLine h] at hr'
    exact absurd hr hr'
  · obtain ⟨heq, hlf⟩ := eq_line_of_cut hs
    by_cases hlength : content.length ≤ maxLine
    · rw [heq, step_line hr hline hlf hlength] at h
      obtain ⟨r₁, hr₁, hrest⟩ := bind_eq_ok_iff.1 h
      exact ⟨content, rest, r₁, heq, hlf, hr₁, hrest⟩
    · rw [step_of_cut_some hr hs, addToLine, if_pos (by simp [hline]; omega)] at h
      cases h

/-! ## Header lines -/

theorem readLine_nil (hr : r.phase = .headers) :
    r.readLine [] = r.bodyPhase >>= fun phase => .ok { r with phase } := by
  simp [readLine, hr, Utf8.isValid, Utf8.run]
  rfl

theorem readLine_of_ne_nil (hr : r.phase = .headers) (hutf8 : Utf8.isValid text)
    (htext : text ≠ []) :
    r.readLine text = readHeaderLine text >>= fun field =>
      addHeader r.response field.1 field.2 >>= fun response => .ok { r with response } := by
  simp [readLine, hr, hutf8, htext]
  rfl

theorem readLine_headers_cases (hr : r.phase = .headers) (h : r.readLine text = .ok r') :
    (text = [] ∧ ∃ phase, r.bodyPhase = .ok phase ∧ r' = { r with phase }) ∨
      (text ≠ [] ∧ ∃ name value response,
        addHeader r.response name value = .ok response ∧ r' = { r with response }) := by
  by_cases htext : text = []
  · subst htext
    rw [readLine_nil hr] at h
    obtain ⟨phase, hphase, ⟨⟩⟩ := bind_eq_ok_iff.1 h
    exact .inl ⟨rfl, phase, hphase, rfl⟩
  · by_cases hutf8 : Utf8.isValid text
    · rw [readLine_of_ne_nil hr hutf8 htext] at h
      obtain ⟨⟨name, value⟩, -, h⟩ := bind_eq_ok_iff.1 h
      obtain ⟨response, hresponse, ⟨⟩⟩ := bind_eq_ok_iff.1 h
      exact .inr ⟨htext, name, value, response, hresponse, rfl⟩
    · simp [readLine, hutf8] at h

theorem addHeader_of_push (h : response.headers.push name value = .ok headers) :
    addHeader response name value =
      if Ascii.sameIgnoringCase name (utf8 "Content-Length") then
        match Numeral.decimal? value with
        | some n => .ok { response with headers, contentLength := some n }
        | none => .error .malformed
      else .ok { response with
        headers
        chunked := response.chunked ||
          (Ascii.sameIgnoringCase name (utf8 "Transfer-Encoding") && namesChunked value) } := by
  rw [addHeader, h]
  show (if Ascii.sameIgnoringCase name (utf8 "Content-Length") then _ else _) = _
  split_ifs with hlength hchunked
  · cases Numeral.decimal? value <;> rfl
  · rw [hchunked, Bool.or_true]
    rfl
  · rw [Bool.eq_false_iff.2 hchunked, Bool.or_false]
    rfl

/-- A field cannot be both. -/
theorem not_transferEncoding (h : Ascii.sameIgnoringCase name (utf8 "Content-Length")) :
    Ascii.sameIgnoringCase name (utf8 "Transfer-Encoding") = false := by
  rw [Bool.eq_false_iff]
  intro h'
  have hlength := (Ascii.length_eq_of_sameIgnoringCase h).symm.trans
    (Ascii.length_eq_of_sameIgnoringCase h')
  revert hlength
  decide

end NetHost.Http.Reader
