import Mathlib.Data.List.Basic
import Mathlib.Tactic.Common
import NetHost.Http.Request
import NetHost.Proofs.Text.Numeral
import NetHost.Proofs.Http.RoundTrip

/-!
# A written request says what was asked for

A request is read back by cutting it at the first blank line, its head at the ends of lines, the
request line at its spaces, and each header line at its first colon and space.  Nothing in a URL, a
header field or a body can be taken for one of these (`Request.read_wire`).

* `Request.Built` has the requests that can be made.
* `Request.OnOneLine` is what every step of making one keeps.
-/

namespace NetHost

/-! ## Taking a text apart -/

namespace Bytes

variable {s p rest sep : Bytes} {b c : UInt8} {ls : List Bytes}

/-- What stands before the first `sep` of a text, and what follows it. -/
def cut? (sep : Bytes) : Bytes → Option (Bytes × Bytes)
  | [] => none
  | b :: s =>
    if sep.isPrefixOf (b :: s) then some ([], (b :: s).drop sep.length)
    else (cut? sep s).map fun r => (b :: r.1, r.2)

theorem eq_of_cut? (h : cut? sep s = some (p, rest)) : s = p ++ sep ++ rest := by
  induction s generalizing p with
  | nil => cases h
  | cons b s ih =>
    rw [cut?] at h
    split_ifs at h with hprefix
    · obtain ⟨t, ht⟩ := List.isPrefixOf_iff_prefix.1 hprefix
      rw [← ht, List.drop_left] at h
      cases h
      exact ht.symm
    · obtain ⟨⟨q, t⟩, hq, heq⟩ := Option.map_eq_some_iff.1 h
      cases heq
      rw [ih hq]
      rfl

/-- The lines of a text, which end in a carriage return and a line feed. -/
def lines (s : Bytes) : List Bytes :=
  match _h : cut? Ascii.crlf s with
  | none => [s]
  | some (line, rest) => line :: lines rest
termination_by s.length
decreasing_by
  have hlength := congrArg List.length (eq_of_cut? _h)
  simp only [List.length_append, Ascii.crlf, List.length_cons, List.length_nil] at hlength
  omega

theorem cut?_cons_of_ne (h : b ≠ c) (sep s : Bytes) :
    cut? (c :: sep) (b :: s) = (cut? (c :: sep) s).map fun r => (b :: r.1, r.2) := by
  rw [cut?, if_neg]
  simp [Ne.symm h]

/-- A text that does not have the first byte of the separator is passed over. -/
theorem cut?_append (h : c ∉ p) (sep s : Bytes) :
    cut? (c :: sep) (p ++ s) = (cut? (c :: sep) s).map fun r => (p ++ r.1, r.2) := by
  induction p with
  | nil => simp
  | cons b p ih =>
    rw [List.mem_cons, not_or] at h
    rw [List.cons_append, cut?_cons_of_ne (Ne.symm h.1), ih h.2, Option.map_map]
    rfl

theorem cut?_at (h : c ∉ p) (sep rest : Bytes) :
    cut? (c :: sep) (p ++ (c :: sep ++ rest)) = some (p, rest) := by
  have hself : cut? (c :: sep) (c :: sep ++ rest) = some ([], rest) := by
    rw [List.cons_append, cut?, if_pos (by simp)]
    simp
  rw [cut?_append h, hself, Option.map_some, List.append_nil]

theorem lines_of_not_mem (h : Ascii.cr ∉ s) : lines s = [s] := by
  have hcut := cut?_append h [Ascii.lf] []
  rw [List.append_nil] at hcut
  rw [lines]
  split
  · rfl
  · rename_i hsome
    rw [Ascii.crlf, hcut] at hsome
    cases hsome

theorem lines_crlf (h : Ascii.cr ∉ p) (rest : Bytes) :
    lines (p ++ (Ascii.crlf ++ rest)) = p :: lines rest := by
  have hcut : cut? Ascii.crlf (p ++ (Ascii.crlf ++ rest)) = some (p, rest) := cut?_at h _ rest
  rw [lines]
  split
  · rename_i hnone
    rw [hcut] at hnone
    cases hnone
  · rename_i line rest' hsome
    rw [hcut] at hsome
    cases hsome
    rfl

/-- Lines that were joined come apart again. -/
theorem lines_intercalate (hls : ls ≠ []) (hcr : ∀ l ∈ ls, Ascii.cr ∉ l) :
    lines (Ascii.crlf.intercalate ls) = ls := by
  induction ls with
  | nil => exact absurd rfl hls
  | cons l ls ih =>
    have hl := hcr l List.mem_cons_self
    cases ls with
    | nil => rw [List.intercalate_singleton, lines_of_not_mem hl]
    | cons l' ls =>
      rw [List.intercalate_cons_cons, List.append_assoc, lines_crlf hl,
        ih (List.cons_ne_nil l' ls) fun m hm => hcr m (List.mem_cons_of_mem l hm)]

/-- The end of a line is no blank line if another line follows. -/
theorem cut?_blankLine_crlf (hc : c ≠ Ascii.cr) (s : Bytes) :
    cut? (Ascii.crlf ++ Ascii.crlf) (Ascii.crlf ++ c :: s) =
      (cut? (Ascii.crlf ++ Ascii.crlf) (c :: s)).map fun r => (Ascii.crlf ++ r.1, r.2) := by
  have hlf : cut? (Ascii.crlf ++ Ascii.crlf) (Ascii.lf :: c :: s) =
      (cut? (Ascii.crlf ++ Ascii.crlf) (c :: s)).map fun r => (Ascii.lf :: r.1, r.2) :=
    cut?_cons_of_ne (by decide) _ _
  have hcr : cut? (Ascii.crlf ++ Ascii.crlf) (Ascii.cr :: Ascii.lf :: c :: s) =
      (cut? (Ascii.crlf ++ Ascii.crlf) (Ascii.lf :: c :: s)).map fun r =>
        (Ascii.cr :: r.1, r.2) := by
    rw [cut?, if_neg]
    simp [Ascii.crlf, Ne.symm hc]
  refine hcr.trans ?_
  rw [hlf, Option.map_map]
  rfl

theorem exists_cons_of_intercalate {l : Bytes} (hl : l ≠ []) (hcr : Ascii.cr ∉ l)
    (ls : List Bytes) (rest : Bytes) :
    ∃ c t, c ≠ Ascii.cr ∧ Ascii.crlf.intercalate (l :: ls) ++ rest = c :: t := by
  obtain ⟨c, l, rfl⟩ := List.exists_cons_of_ne_nil hl
  rw [List.mem_cons, not_or] at hcr
  cases ls with
  | nil => exact ⟨c, _, Ne.symm hcr.1, by rw [List.intercalate_singleton, List.cons_append]⟩
  | cons l' ls => exact ⟨c, _, Ne.symm hcr.1, by rw [List.intercalate_cons_cons]; rfl⟩

/-- Lines with something on them have no blank line among them, whatever comes after. -/
theorem cut?_blankLine (hls : ls ≠ []) (hcr : ∀ l ∈ ls, Ascii.cr ∉ l) (hne : ∀ l ∈ ls, l ≠ [])
    (rest : Bytes) :
    cut? (Ascii.crlf ++ Ascii.crlf)
        (Ascii.crlf.intercalate ls ++ (Ascii.crlf ++ Ascii.crlf ++ rest)) =
      some (Ascii.crlf.intercalate ls, rest) := by
  induction ls with
  | nil => exact absurd rfl hls
  | cons l ls ih =>
    have hl := hcr l List.mem_cons_self
    cases ls with
    | nil =>
      rw [List.intercalate_singleton]
      exact cut?_at hl _ rest
    | cons l' ls =>
      have ih := ih (List.cons_ne_nil l' ls) (fun m hm => hcr m (List.mem_cons_of_mem l hm))
        fun m hm => hne m (List.mem_cons_of_mem l hm)
      have hmem : l' ∈ l :: l' :: ls := by simp
      obtain ⟨c, t, hc, ht⟩ := exists_cons_of_intercalate (hne l' hmem) (hcr l' hmem) ls
        (Ascii.crlf ++ Ascii.crlf ++ rest)
      -- The line end after `l` is passed over, since the next line has a first byte `c`.
      have hskip := cut?_append hl ([Ascii.lf] ++ Ascii.crlf) (Ascii.crlf ++ c :: t)
      rw [List.intercalate_cons_cons, List.append_assoc, List.append_assoc, ht]
      rw [ht] at ih
      refine hskip.trans ?_
      have hcut : cut? (Ascii.cr :: ([Ascii.lf] ++ Ascii.crlf)) (Ascii.crlf ++ c :: t) =
          some (Ascii.crlf ++ Ascii.crlf.intercalate (l' :: ls), rest) := by
        refine (cut?_blankLine_crlf hc t).trans ?_
        rw [ih]
        rfl
      rw [hcut]
      simp only [Option.map_some, List.append_assoc]

/-- Lines that are ended are lines joined, and an end. -/
theorem flatMap_crlf (l : Bytes) (ls : List Bytes) :
    (l :: ls).flatMap (· ++ Ascii.crlf) = Ascii.crlf.intercalate (l :: ls) ++ Ascii.crlf := by
  induction ls generalizing l with
  | nil => rw [List.intercalate_singleton, List.flatMap_singleton]
  | cons l' ls ih =>
    rw [List.flatMap_cons, ih, List.intercalate_cons_cons]
    simp only [List.append_assoc]

end Bytes

theorem Ascii.not_isLineBreak_of_isWireSafe {b : UInt8} (h : isWireSafe b) : ¬ isLineBreak b := by
  intro hbreak
  rcases Bool.or_eq_true_iff.1 hbreak with hcr | hlf
  · rw [of_decide_eq_true hcr] at h
    cases h
  · rw [of_decide_eq_true hlf] at h
    cases h

theorem Numeral.not_isLineBreak_of_mem_decimal {b : UInt8} {n : Nat} (h : b ∈ decimal n) :
    ¬ Ascii.isLineBreak b := by
  intro hbreak
  rcases Bool.or_eq_true_iff.1 hbreak with hcr | hlf
  · rw [of_decide_eq_true hcr] at h
    exact not_mem_render (by decide) (by decide) n (.inl (by decide)) h
  · rw [of_decide_eq_true hlf] at h
    exact not_mem_render (by decide) (by decide) n (.inl (by decide)) h

namespace Http

/-! ## Reading a request -/

def Method.ofName? (name : Bytes) : Option Method :=
  [get, post, head, put, delete].find? fun m => utf8 m.name = name

theorem Method.ofName?_name (m : Method) : ofName? (utf8 m.name) = some m := by
  cases m <;> decide

def Header.read? (line : Bytes) : Option Header :=
  (Bytes.cut? (utf8 ": ") line).map fun r => ⟨r.1, r.2⟩

namespace Request

/-- What a written request says. -/
structure Content where
  method : Method
  path : Bytes
  version : Bytes
  fields : List Header
  body : Bytes
  deriving DecidableEq, Repr

def readLine? (line : Bytes) : Option (Method × Bytes × Bytes) :=
  match line.splitOn Ascii.space with
  | [method, path, version] => (Method.ofName? method).map fun m => (m, path, version)
  | _ => none

/-- The content of a written request. -/
def read? (s : Bytes) : Option Content :=
  match Bytes.cut? (Ascii.crlf ++ Ascii.crlf) s with
  | none => none
  | some (head, body) =>
    match Bytes.lines head with
    | [] => none
    | first :: rest =>
      match readLine? first, rest.mapM Header.read? with
      | some (method, path, version), some fields => some { method, path, version, fields, body }
      | _, _ => none

/-! ## What a request is to say -/

/-- The caller has set a field of that name. -/
def sets (r : Request) (name : Bytes) : Bool :=
  r.headers.toList.any fun field => Ascii.sameIgnoringCase field.name name

/-- The field with the length of the body. -/
def lengthField? (r : Request) : Option Header :=
  if r.sets (utf8 "Content-Length") then none
  else r.body.map fun body => ⟨utf8 "Content-Length", Numeral.decimal body.length⟩

/-- The fields that the caller has set, and before and after them those that are supplied. -/
def fields (r : Request) : List Header :=
  (if r.sets (utf8 "Host") then [] else [⟨utf8 "Host", r.target.authority⟩]) ++
    r.headers.toList ++ r.lengthField?.toList

def content (r : Request) : Content :=
  { method := r.method, path := r.target.path, version := utf8 "HTTP/1.1", fields := r.fields,
    body := r.body.getD [] }

/-! ## Requests that can be made -/

/-- The requests that are made from a URL by setting fields, body and timeout, and by turning to
another URL.  A step that fails leaves the request as it is. -/
inductive Built : Request → Prop where
  | new {r : Request} {method : Method} {url : Bytes} (h : Request.new method url = .ok r) : Built r
  | get {r : Request} {url : Bytes} (h : Request.get url = .ok r) : Built r
  | head {r : Request} {url : Bytes} (h : Request.head url = .ok r) : Built r
  | post {r : Request} {url body : Bytes} (h : Request.post url body = .ok r) : Built r
  | setHeader {r r' : Request} {name value : Bytes} (h : Built r)
      (hset : r.setHeader name value = .ok r') : Built r'
  | withBody {r : Request} (h : Built r) (body : Bytes) : Built (r.withBody body)
  | withTimeout {r : Request} (h : Built r) (timeout : UInt32) : Built { r with timeout }
  /-- The host is emptied, the URL replaced, and that taken apart. -/
  | retarget {r r' : Request} (h : Built r) (url : Bytes)
      (hresolve : { r with url, target := { r.target with host := [] } }.resolve = .ok r') :
    Built r'

end Request

/-! ## What keeps to its line -/

/-- A field that stays on its line, with a name that ends at the first colon. -/
structure Header.OnOneLine (field : Header) : Prop where
  name_ne_nil : field.name ≠ []
  colon : Ascii.colon ∉ field.name
  name : ∀ b ∈ field.name, ¬ Ascii.isLineBreak b
  value : ∀ b ∈ field.value, ¬ Ascii.isLineBreak b

namespace Header

variable {field : Header}

theorem onOneLine_of_isWritable {name value : Bytes} (h : Request.isWritable name value) :
    (⟨name, value⟩ : Header).OnOneLine := by
  simp only [Request.isWritable, Bool.not_eq_true', Bool.or_eq_false_iff] at h
  obtain ⟨⟨⟨hne, hcolon⟩, hname⟩, hvalue⟩ := h
  exact
    { name_ne_nil := fun heq => by simp [show name = [] from heq] at hne
      colon := fun hmem => by
        rw [List.contains_iff_mem.2 hmem] at hcolon
        cases hcolon
      name := fun b hb hbreak => List.any_eq_false.1 hname b hb hbreak
      value := fun b hb hbreak => List.any_eq_false.1 hvalue b hb hbreak }

theorem onOneLine_of_name {name value : Bytes} (h : Request.isWritable name [])
    (hvalue : ∀ b ∈ value, ¬ Ascii.isLineBreak b) : (⟨name, value⟩ : Header).OnOneLine :=
  have hname := onOneLine_of_isWritable h
  ⟨hname.name_ne_nil, hname.colon, hname.name, hvalue⟩

theorem cr_not_mem_line (h : field.OnOneLine) : Ascii.cr ∉ field.line := by
  intro hmem
  rcases List.mem_append.1 hmem with hname | hvalue
  · exact h.name _ hname (by decide)
  · rcases List.mem_cons.1 hvalue with hcolon | hvalue
    · cases hcolon
    · rcases List.mem_cons.1 hvalue with hspace | hvalue
      · cases hspace
      · exact h.value _ hvalue (by decide)

theorem line_ne_nil (h : field.OnOneLine) : field.line ≠ [] :=
  List.append_ne_nil_of_left_ne_nil h.name_ne_nil _

/-- The value may hold further colons, and may itself begin with one. -/
theorem read?_line (h : field.OnOneLine) : read? field.line = some field := by
  have hcut : Bytes.cut? (utf8 ": ") field.line = some (field.name, field.value) :=
    Bytes.cut?_at h.colon [Ascii.space] field.value
  rw [read?, hcut]
  rfl

theorem mapM_read?_line {fields : List Header} (h : ∀ field ∈ fields, field.OnOneLine) :
    (fields.map line).mapM read? = some fields := by
  induction fields with
  | nil => rfl
  | cons field fields ih =>
    rw [List.map_cons, List.mapM_cons, read?_line (h field List.mem_cons_self),
      ih fun other hother => h other (List.mem_cons_of_mem field hother)]
    rfl

end Header

/-- Host and path have neither spaces nor control bytes in them. -/
structure Url.WireSafe (u : Url) : Prop where
  host : ∀ b ∈ u.host, Ascii.isWireSafe b
  path : ∀ b ∈ u.path, Ascii.isWireSafe b

namespace Url

theorem wireSafe_of_parse {text : Bytes} {u : Url} (h : parse text = .ok u) : u.WireSafe := by
  rw [parse] at h
  split at h
  · cases h
  · dsimp only at h
    split at h
    · cases h
    · rename_i hhost
      split at h
      · cases h
      · rename_i port tail _
        -- Which path it is does not matter: either one is checked.
        generalize (if tail.isEmpty then [Ascii.slash] else tail) = path at h
        split at h
        · cases h
        · rename_i hpath
          simp only [Bool.or_eq_true, not_or, Bool.not_eq_true, Bool.not_eq_false'] at hhost hpath
          cases h
          exact ⟨List.all_eq_true.1 hhost.2, List.all_eq_true.1 hpath.2⟩

/-- The port is a numeral behind a colon. -/
theorem not_isLineBreak_of_mem_authority {u : Url} (h : u.WireSafe) {b : UInt8}
    (hb : b ∈ u.authority) : ¬ Ascii.isLineBreak b := by
  rw [authority] at hb
  split at hb
  · exact Ascii.not_isLineBreak_of_isWireSafe (h.host b hb)
  · rcases List.mem_append.1 hb with hhost | hport
    · exact Ascii.not_isLineBreak_of_isWireSafe (h.host b hhost)
    · rcases List.mem_cons.1 hport with rfl | hdigit
      · decide
      · exact Numeral.not_isLineBreak_of_mem_decimal hdigit

end Url

namespace Request

variable {r r' : Request}

structure OnOneLine (r : Request) : Prop where
  target : r.target.WireSafe
  headers : ∀ field ∈ r.headers.toList, field.OnOneLine

theorem onOneLine_of_new {method : Method} {url : Bytes} (h : new method url = .ok r) :
    r.OnOneLine := by
  obtain ⟨target, htarget, h⟩ := bind_eq_ok_iff.1 h
  cases h
  exact ⟨Url.wireSafe_of_parse htarget, fun field hfield => absurd hfield List.not_mem_nil⟩

/-- A host that is known is left as it is, and any other is checked. -/
theorem wireSafe_of_resolve (h : r.resolve = .ok r')
    (htarget : r.target.host ≠ [] → r.target.WireSafe) : r'.target.WireSafe := by
  rw [resolve] at h
  split at h
  · obtain ⟨target, htarget, h⟩ := bind_eq_ok_iff.1 h
    cases h
    exact Url.wireSafe_of_parse htarget
  · rename_i hhost
    cases h
    exact htarget fun hnil => hhost (by rw [hnil]; rfl)

theorem headers_of_resolve (h : r.resolve = .ok r') : r'.headers = r.headers := by
  rw [resolve] at h
  split at h
  · obtain ⟨target, -, h⟩ := bind_eq_ok_iff.1 h
    cases h
    rfl
  · cases h
    rfl

theorem OnOneLine.setHeader {name value : Bytes} (h : r.OnOneLine)
    (hset : r.setHeader name value = .ok r') : r'.OnOneLine := by
  rw [Request.setHeader] at hset
  split at hset
  · rename_i hwritable
    obtain ⟨headers, hpush, hset⟩ := bind_eq_ok_iff.1 hset
    cases hset
    refine ⟨h.target, fun field hfield => ?_⟩
    rw [Headers.toList_of_push hpush] at hfield
    rcases List.mem_append.1 hfield with hmem | hnew
    · exact h.headers field hmem
    · rw [List.mem_singleton.1 hnew]
      exact Header.onOneLine_of_isWritable hwritable
  · cases hset

theorem onOneLine_of_built (h : r.Built) : r.OnOneLine := by
  induction h with
  | new h | get h | head h => exact onOneLine_of_new h
  | post h =>
    obtain ⟨r₁, hnew, h⟩ := bind_eq_ok_iff.1 h
    cases h
    exact ⟨(onOneLine_of_new hnew).target, (onOneLine_of_new hnew).headers⟩
  | setHeader h hset ih => exact ih.setHeader hset
  | withBody h body ih | withTimeout h timeout ih => exact ⟨ih.target, ih.headers⟩
  | retarget h url hresolve ih =>
    refine ⟨wireSafe_of_resolve hresolve fun hhost => absurd rfl hhost, ?_⟩
    rw [headers_of_resolve hresolve]
    exact ih.headers

/-! ## The fields and the lines of the written form -/

theorem contains_eq_sets (r : Request) (name : Bytes) :
    r.headers.contains name = r.sets name := by
  rw [Headers.contains, Headers.get?, Option.isSome_map, List.isSome_find?]
  rfl

theorem onOneLine_of_mem_fields (h : r.OnOneLine) {field : Header} (hfield : field ∈ r.fields) :
    field.OnOneLine := by
  rw [fields, List.mem_append, List.mem_append] at hfield
  rcases hfield with (hhost | hset) | hlength
  · split at hhost
    · cases hhost
    · rw [List.mem_singleton.1 hhost]
      exact Header.onOneLine_of_name (by decide) fun b hb =>
        Url.not_isLineBreak_of_mem_authority h.target hb
  · exact h.headers field hset
  · rw [lengthField?] at hlength
    split at hlength
    · cases hlength
    · obtain ⟨body, -, rfl⟩ := Option.map_eq_some_iff.1 (Option.mem_toList.1 hlength)
      exact Header.onOneLine_of_name (by decide) fun b hb =>
        Numeral.not_isLineBreak_of_mem_decimal hb

/-- Method, path and version with a space between them. -/
def line (r : Request) : Bytes :=
  [Ascii.space].intercalate [utf8 r.method.name, r.target.path, version]

theorem readLine?_line (h : r.OnOneLine) :
    readLine? r.line = some (r.method, r.target.path, version) := by
  have hspace : ∀ word ∈ [utf8 r.method.name, r.target.path, version], Ascii.space ∉ word := by
    simp only [List.forall_mem_cons]
    refine ⟨?_, fun hmem => absurd (h.target.path _ hmem) (by decide), by decide, nofun⟩
    cases r.method <;> decide
  have hsplit : r.line.splitOn Ascii.space = [utf8 r.method.name, r.target.path, version] :=
    List.splitOn_intercalate Ascii.space hspace (List.cons_ne_nil _ _)
  rw [readLine?, hsplit]
  dsimp only
  rw [Method.ofName?_name]
  rfl

theorem cr_not_mem_line (h : r.OnOneLine) : Ascii.cr ∉ r.line := by
  have hmethod : Ascii.cr ∉ utf8 r.method.name := by cases r.method <;> decide
  have hpath : Ascii.cr ∉ r.target.path := fun hmem => absurd (h.target.path _ hmem) (by decide)
  have hversion : Ascii.cr ∉ version := by decide
  have hspace : Ascii.cr ≠ Ascii.space := by decide
  simp [line, List.intercalate_cons_cons, hmethod, hpath, hversion, hspace]

theorem line_ne_nil (r : Request) : r.line ≠ [] := by
  simp [line, List.intercalate_cons_cons]

theorem flatten_linePieces (name value : Bytes) :
    (linePieces name value).flatten = writeFields [⟨name, value⟩] := by
  have hsep : utf8 ": " = [Ascii.colon, Ascii.space] := by decide
  rw [Reader.writeFields_singleton, linePieces, hsep, Header.line]
  simp only [List.flatten_cons, List.flatten_nil, List.append_nil, List.cons_append,
    List.nil_append, List.append_assoc]

theorem flatten_flatMap_linePieces (fields : List Header) :
    (fields.flatMap fun field => linePieces field.name field.value).flatten =
      writeFields fields := by
  induction fields with
  | nil => rfl
  | cons field fields ih =>
    rw [List.flatMap_cons, List.flatten_append, ih, flatten_linePieces,
      Reader.writeFields_singleton]
    rfl

theorem pieces_eq (r : Request) :
    r.pieces = [utf8 r.method.name, [Ascii.space], r.target.path, [Ascii.space], version,
        Ascii.crlf] ++ r.fields.flatMap (fun field => linePieces field.name field.value) ++
      [Ascii.crlf] ++ r.body.toList := by
  simp only [pieces, fields, lengthField?, contains_eq_sets, List.flatMap_append]
  cases r.body with
  | none => split_ifs <;> simp
  | some body => split_ifs <;> simp

theorem wire_eq_writeFields (r : Request) :
    r.wire = r.line ++ Ascii.crlf ++ writeFields r.fields ++ (Ascii.crlf ++ r.body.getD []) := by
  have hline : [utf8 r.method.name, [Ascii.space], r.target.path, [Ascii.space], version,
      Ascii.crlf].flatten = r.line ++ Ascii.crlf := by
    simp [line, List.intercalate_cons_cons]
  have hbody : r.body.toList.flatten = r.body.getD [] := by
    cases r.body <;> simp
  rw [wire, pieces_eq]
  simp only [List.flatten_append, flatten_flatMap_linePieces, hline, hbody, List.append_assoc,
    List.flatten_singleton]

theorem wire_eq (r : Request) :
    r.wire = Ascii.crlf.intercalate (r.line :: r.fields.map Header.line) ++
      (Ascii.crlf ++ Ascii.crlf ++ r.body.getD []) := by
  have hlines := Bytes.flatMap_crlf r.line (r.fields.map Header.line)
  rw [List.flatMap_cons, List.flatMap_map] at hlines
  rw [wire_eq_writeFields, writeFields, hlines]
  simp only [List.append_assoc]

/-- What is written says what was asked for, and nothing else. -/
theorem read_wire (h : r.Built) : read? r.wire = some r.content := by
  have hline := onOneLine_of_built h
  have hcr : ∀ l ∈ r.line :: r.fields.map Header.line, Ascii.cr ∉ l := by
    simp only [List.forall_mem_cons, List.forall_mem_map]
    exact ⟨cr_not_mem_line hline, fun field hfield =>
      Header.cr_not_mem_line (onOneLine_of_mem_fields hline hfield)⟩
  have hne : ∀ l ∈ r.line :: r.fields.map Header.line, l ≠ [] := by
    simp only [List.forall_mem_cons, List.forall_mem_map]
    exact ⟨line_ne_nil r, fun field hfield =>
      Header.line_ne_nil (onOneLine_of_mem_fields hline hfield)⟩
  rw [wire_eq, read?, Bytes.cut?_blankLine (List.cons_ne_nil _ _) hcr hne]
  dsimp only
  rw [Bytes.lines_intercalate (List.cons_ne_nil _ _) hcr]
  dsimp only
  rw [readLine?_line hline,
    Header.mapM_read?_line fun field hfield => onOneLine_of_mem_fields hline hfield]
  rfl

/-- A blank line in the body and a separator in a value are not taken for the request's own. -/
theorem read_wire_blank_line_in_body :
    ∃ r : Request, r.Built ∧ read? r.wire = some
      { method := .post
        path := utf8 "/a?b"
        version := utf8 "HTTP/1.1"
        fields := [⟨utf8 "Host", utf8 "h:81"⟩, ⟨utf8 "X", utf8 ": y"⟩,
          ⟨utf8 "Content-Length", utf8 "4"⟩]
        body := Ascii.crlf ++ Ascii.crlf } := by
  have hpost : post (utf8 "http://h:81/a?b") (Ascii.crlf ++ Ascii.crlf) =
      .ok { method := .post, url := utf8 "http://h:81/a?b", target := ⟨utf8 "h", 81, utf8 "/a?b"⟩,
            body := some (Ascii.crlf ++ Ascii.crlf) } := by rfl
  have hset : setHeader { method := .post, url := utf8 "http://h:81/a?b",
                          target := ⟨utf8 "h", 81, utf8 "/a?b"⟩,
                          body := some (Ascii.crlf ++ Ascii.crlf) } (utf8 "X") (utf8 ": y") =
      .ok { method := .post, url := utf8 "http://h:81/a?b", target := ⟨utf8 "h", 81, utf8 "/a?b"⟩,
            headers := ⟨[⟨utf8 "X", utf8 ": y"⟩]⟩,
            body := some (Ascii.crlf ++ Ascii.crlf) } := by rfl
  have hbuilt := (Built.post hpost).setHeader hset
  exact ⟨_, hbuilt, (read_wire hbuilt).trans (by rfl)⟩

end Request

end Http

end NetHost
