import Mathlib.Data.List.TakeWhile
import Mathlib.Tactic.Common
import NetHost.Http.Url
import NetHost.Proofs.Text.Numeral

/-!
# The grammar of URLs

`Url.Denotes text url` says that `text` is a URL and what it names, without reference to how it is
read.

* `Url.parse_eq_ok_iff`: what is read is what the grammar has.
* `Url.error_of_parse`: there is one failure, whatever the fault.
* `Url.isValid_of_denotes`: a URL in UTF-8 is cut between characters.
* `Url.denotes_render`: a URL that is written out again names the same.
-/

namespace NetHost

namespace Bytes

variable {f : UInt8 → Bool} {p q s : Bytes} {b : UInt8}

/-- What is passed over ends where `f` first fails. -/
theorem takeWhile_append_stop (hp : ∀ b ∈ p, f b) (hq : ∀ b ∈ q.head?, ¬ f b) :
    (p ++ q).takeWhile f = p := by
  rw [List.takeWhile_append_of_pos hp]
  cases q with
  | nil => rw [List.takeWhile_nil, List.append_nil]
  | cons b q => rw [List.takeWhile_cons_of_neg (hq b rfl), List.append_nil]

theorem dropWhile_append_stop (hp : ∀ b ∈ p, f b) (hq : ∀ b ∈ q.head?, ¬ f b) :
    (p ++ q).dropWhile f = q := by
  rw [List.dropWhile_append_of_pos hp]
  cases q with
  | nil => rfl
  | cons b q => rw [List.dropWhile_cons_of_neg (hq b rfl)]

theorem not_of_mem_head?_dropWhile (hb : b ∈ (s.dropWhile f).head?) : ¬ f b := by
  have hstop := List.head?_dropWhile_not f s
  rw [Option.mem_def.1 hb] at hstop
  simpa using hstop

end Bytes

namespace Ascii

variable {b : UInt8}

theorem isDigit_iff : isDigit b ↔ ∃ d < 10, Numeral.digit? b = some d := by
  constructor
  · intro h
    have hrange : 0x30 ≤ b.toNat ∧ b.toNat ≤ 0x39 := by
      simpa [isDigit, UInt8.le_iff_toNat_le] using h
    exact ⟨b.toNat - 0x30, by omega, if_pos h⟩
  · rintro ⟨d, hd, h⟩
    unfold Numeral.digit? at h
    split_ifs at h with hdigit hlower hupper
    · exact hdigit
    -- A letter stands for ten or more.
    · cases h
      omega
    · cases h
      omega

theorem isWireSafe_iff : isWireSafe b ↔ 0x20 < b ∧ b ≠ 0x7F := by
  simp [isWireSafe]

theorem lt_of_toLower_lt (h : toLower b < 0x80) : b < 0x80 := by
  by_cases hupper : isUpper b
  · have hle : b ≤ 0x5A := by simpa using (Bool.and_eq_true_iff.1 hupper).2
    exact UInt8.lt_of_le_of_lt hle (by decide)
  · rwa [toLower, if_neg hupper] at h

end Ascii

namespace Http.Url

variable {u t p q s scheme host path : Bytes} {port : UInt16} {url : Url} {e : Error}

/-! ## The grammar -/

/-- What may stand between the scheme and the first colon or slash. -/
structure IsHost (host : Bytes) : Prop where
  ne_nil : host ≠ []
  length_lt : host.length < 256
  delimiters : ∀ b ∈ host, b ≠ Ascii.colon ∧ b ≠ Ascii.slash
  /-- There is no control byte, no space and no DEL. -/
  bytes : ∀ b ∈ host, 0x20 < b ∧ b ≠ 0x7F

/-- The port that the text behind a colon stands for.  A numeral is that of a number from 1 to
65535, with any number of leading zeros. -/
inductive PortText : Bytes → UInt16 → Prop where
  | other {t : Bytes} (ht : t = [] ∨ ∃ b ∈ t, ¬ Ascii.isDigit b) : PortText t 80
  | number {t : Bytes} {port : UInt16} (ht : Numeral.Denotes 10 t port.toNat)
      (hpos : 1 ≤ port.toNat) : PortText t port

/-- What stands between the host and the path, and the port that it names. -/
inductive Port : Bytes → UInt16 → Prop where
  | absent : Port [] 80
  | given {t : Bytes} {port : UInt16} (hslash : Ascii.slash ∉ t) (ht : PortText t port) :
    Port (Ascii.colon :: t) port

/-- What stands at the end of a URL, and the path that it names. -/
inductive Path : Bytes → Bytes → Prop where
  | absent : Path [] [Ascii.slash]
  | given {t : Bytes} (hlength : (Ascii.slash :: t).length < 1024)
      (hbytes : ∀ b ∈ t, 0x20 < b ∧ b ≠ 0x7F) : Path (Ascii.slash :: t) (Ascii.slash :: t)

/-- The text is a URL that names `url`. -/
inductive Denotes : Bytes → Url → Prop where
  | intro {scheme host p q path : Bytes} {port : UInt16}
      (hscheme : Ascii.sameIgnoringCase scheme (utf8 "http://")) (hhost : IsHost host)
      (hport : Port p port) (hpath : Path q path)
      (hlength : (scheme ++ host ++ p ++ q).length < 2048) :
    Denotes (scheme ++ host ++ p ++ q) { host, port, path }

/-! ## Reading the parts -/

theorem isHost_iff (hdelim : ∀ b ∈ host, b ≠ Ascii.colon ∧ b ≠ Ascii.slash) :
    IsHost host ↔ ¬ (host.isEmpty || host.length ≥ maxHost || !host.all Ascii.isWireSafe) := by
  have hcheck : ¬ (host.isEmpty || host.length ≥ maxHost || !host.all Ascii.isWireSafe) ↔
      host ≠ [] ∧ host.length < 256 ∧ ∀ b ∈ host, 0x20 < b ∧ b ≠ 0x7F := by
    simp [maxHost, Ascii.isWireSafe_iff, and_assoc]
  rw [hcheck]
  exact ⟨fun h => ⟨h.ne_nil, h.length_lt, h.bytes⟩,
    fun ⟨hne, hlength, hbytes⟩ => ⟨hne, hlength, hdelim, hbytes⟩⟩

theorem path_iff (hq : ∀ b ∈ q.head?, b = Ascii.slash) :
    Path q path ↔ path = (if q.isEmpty then [Ascii.slash] else q) ∧
      ¬ (path.length ≥ maxPath || !path.all Ascii.isWireSafe) := by
  have hcheck : ¬ (path.length ≥ maxPath || !path.all Ascii.isWireSafe) ↔
      path.length < 1024 ∧ ∀ b ∈ path, 0x20 < b ∧ b ≠ 0x7F := by
    simp [maxPath, Ascii.isWireSafe_iff]
  rw [hcheck]
  cases q with
  | nil =>
    rw [List.isEmpty_nil, if_pos rfl]
    constructor
    · rintro ⟨⟩
      exact ⟨rfl, by decide, List.forall_mem_singleton.2 (by decide)⟩
    · rintro ⟨rfl, -, -⟩
      exact .absent
  | cons b t =>
    obtain rfl : b = Ascii.slash := hq b rfl
    rw [List.isEmpty_cons, if_neg Bool.false_ne_true]
    constructor
    · rintro (_ | ⟨hlength, hbytes⟩)
      exact ⟨rfl, hlength, List.forall_mem_cons.2 ⟨by decide, hbytes⟩⟩
    · rintro ⟨rfl, hlength, hbytes⟩
      exact .given hlength (List.forall_mem_cons.1 hbytes).2

theorem readPort_of_other (h : t = [] ∨ ∃ b ∈ t, ¬ Ascii.isDigit b) : readPort t = .ok 80 := by
  rw [readPort, if_pos (by simpa using h)]
  rfl

theorem readPort_number_iff (h : ¬ (t = [] ∨ ∃ b ∈ t, ¬ Ascii.isDigit b)) :
    readPort t = .ok port ↔ Numeral.Denotes 10 t port.toNat ∧ 1 ≤ port.toNat := by
  have hlt := port.toNat_lt
  have hdecimal : Numeral.Denotes 10 t port.toNat ↔ Numeral.decimal? t = some port.toNat := by
    have hlimit : port.toNat < Numeral.limit := Nat.lt_trans hlt (by decide)
    rw [Numeral.decimal?, Numeral.read?_eq_some_iff (by decide), and_iff_left hlimit]
  rw [hdecimal, readPort, if_neg (by simpa using h)]
  cases Numeral.decimal? t with
  | none => simp
  | some n =>
    simp only [Option.some.injEq]
    split_ifs with hrange
    · have hn : n.toUInt16.toNat = n := UInt16.toNat_ofNat_of_lt' (Nat.lt_succ_of_le hrange.2)
      rw [Except.ok.injEq, ← UInt16.toNat_inj, hn]
      omega
    · simp only [false_iff]
      omega

theorem readPort_eq_ok_iff : readPort t = .ok port ↔ PortText t port := by
  by_cases h : t = [] ∨ ∃ b ∈ t, ¬ Ascii.isDigit b
  · rw [readPort_of_other h]
    constructor
    · rintro ⟨⟩
      exact .other h
    · rintro (_ | ⟨ht, -⟩)
      · rfl
      · rcases h with hnil | ⟨b, hb, hdigit⟩
        · exact absurd hnil ht.ne_nil
        · exact absurd (Ascii.isDigit_iff.2 (ht.digits b hb)) hdigit
  · rw [readPort_number_iff h]
    constructor
    · rintro ⟨ht, hpos⟩
      exact .number ht hpos
    · rintro (hother | ⟨ht, hpos⟩)
      · exact absurd hother h
      · exact ⟨ht, hpos⟩

theorem readTail_colon (t : Bytes) :
    readTail (Ascii.colon :: t) = readPort (t.takeWhile (· ≠ Ascii.slash)) >>= fun port =>
      .ok (port, t.dropWhile (· ≠ Ascii.slash)) := rfl

theorem readTail_of_ne (h : s.head? ≠ some Ascii.colon) : readTail s = .ok (80, s) := by
  unfold readTail
  split
  · exact absurd rfl h
  · rfl

/-- Port and path part at the first slash. -/
theorem readTail_eq_ok_iff (hs : ∀ b ∈ s.head?, b = Ascii.colon ∨ b = Ascii.slash) :
    readTail s = .ok (port, q) ↔
      ∃ p, s = p ++ q ∧ Port p port ∧ ∀ b ∈ q.head?, b = Ascii.slash := by
  by_cases hcolon : s.head? = some Ascii.colon
  · obtain ⟨t, rfl⟩ := List.head?_eq_some_iff.1 hcolon
    rw [readTail_colon, bind_eq_ok_iff]
    constructor
    · rintro ⟨_, hport, ⟨⟩⟩
      refine ⟨Ascii.colon :: t.takeWhile (· ≠ Ascii.slash), ?_, ?_, ?_⟩
      · rw [List.cons_append, List.takeWhile_append_dropWhile]
      · refine .given (fun hmem => ?_) (readPort_eq_ok_iff.1 hport)
        simpa using List.mem_takeWhile_imp hmem
      · intro b hb
        simpa using Bytes.not_of_mem_head?_dropWhile hb
    · rintro ⟨p, hp, hport, hq⟩
      cases hport with
      | absent =>
        rw [List.nil_append] at hp
        subst hp
        exact absurd (hq _ rfl) (by decide)
      | @given t' _ hslash ht =>
        rw [List.cons_append] at hp
        obtain ⟨-, rfl⟩ := List.cons.inj hp
        have hbefore : ∀ b ∈ t', decide (b ≠ Ascii.slash) = true := fun b hb =>
          decide_eq_true fun heq => hslash (heq ▸ hb)
        have hafter : ∀ b ∈ q.head?, ¬ decide (b ≠ Ascii.slash) = true := fun b hb => by
          simpa using hq b hb
        exact ⟨port, by rw [Bytes.takeWhile_append_stop hbefore hafter, readPort_eq_ok_iff.2 ht],
          by rw [Bytes.dropWhile_append_stop hbefore hafter]⟩
  · rw [readTail_of_ne hcolon]
    constructor
    · rintro ⟨⟩
      refine ⟨[], rfl, .absent, fun b hb => (hs b hb).resolve_left ?_⟩
      rintro rfl
      exact hcolon hb
    · rintro ⟨p, rfl, hport, -⟩
      cases hport with
      | absent => rfl
      | given => exact absurd rfl hcolon

/-! ## Reading the whole -/

theorem head?_of_path (h : Path q path) : ∀ b ∈ q.head?, b = Ascii.slash := by
  cases h with
  | absent => nofun
  | given =>
    rintro b ⟨⟩
    rfl

theorem head?_of_port (h : Port p port) (hq : ∀ b ∈ q.head?, b = Ascii.slash) :
    ∀ b ∈ (p ++ q).head?, b = Ascii.colon ∨ b = Ascii.slash := by
  cases h with
  | absent => exact fun b hb => .inr (hq b hb)
  | given =>
    rintro b ⟨⟩
    exact .inl rfl

/-- Once scheme and host are cut off, what is left to check is the parts one by one. -/
theorem parse_append_eq_ok_iff (hscheme : Ascii.sameIgnoringCase scheme (utf8 "http://"))
    (hdelim : ∀ b ∈ host, b ≠ Ascii.colon ∧ b ≠ Ascii.slash)
    (hs : ∀ b ∈ s.head?, b = Ascii.colon ∨ b = Ascii.slash) :
    parse (scheme ++ (host ++ s)) = .ok url ↔
      (scheme ++ (host ++ s)).length < 2048 ∧ IsHost host ∧ url.host = host ∧
        ∃ p q, s = p ++ q ∧ Port p url.port ∧ Path q url.path := by
  have hlength : scheme.length = Url.scheme.length := Ascii.length_eq_of_sameIgnoringCase hscheme
  have htake : (scheme ++ (host ++ s)).take Url.scheme.length = scheme := by
    rw [← hlength, List.take_left]
  have hdrop : (scheme ++ (host ++ s)).drop Url.scheme.length = host ++ s := by
    rw [← hlength, List.drop_left]
  have hhost : (host ++ s).takeWhile (fun b => b ≠ Ascii.colon && b ≠ Ascii.slash) = host := by
    apply Bytes.takeWhile_append_stop
    · simpa using hdelim
    · intro b hb
      simpa [Decidable.or_iff_not_imp_left] using hs b hb
  have hstart : ¬ ((scheme ++ (host ++ s)).length ≥ maxLength ||
      !Ascii.sameIgnoringCase scheme Url.scheme) ↔ (scheme ++ (host ++ s)).length < 2048 := by
    have hscheme : Ascii.sameIgnoringCase scheme Url.scheme := hscheme
    simp [hscheme, maxLength]
  simp only [parse, htake, hdrop, hhost, List.drop_left, ite_error_eq_ok_iff, hstart,
    ← isHost_iff hdelim]
  refine and_congr_right fun _ => and_congr_right fun _ => ⟨fun h => ?_, ?_⟩
  · rcases htail : readTail s with e | ⟨port, q⟩
    · rw [htail] at h
      cases h
    · obtain ⟨p, hp, hport, hq⟩ := (readTail_eq_ok_iff hs).1 htail
      rw [htail] at h
      obtain ⟨hpath, h⟩ := ite_error_eq_ok_iff.1 h
      cases h
      exact ⟨rfl, p, q, hp, hport, (path_iff hq).2 ⟨rfl, hpath⟩⟩
  · rintro ⟨rfl, p, q, hp, hport, hpath⟩
    have hq := head?_of_path hpath
    obtain ⟨hdefault, hsafe⟩ := (path_iff hq).1 hpath
    rw [(readTail_eq_ok_iff hs).2 ⟨p, hp, hport, hq⟩]
    simp only [← hdefault, if_neg hsafe]

/-- Behind the right scheme there is a host, which ends at the first delimiter. -/
theorem exists_append_of_parse (h : parse u = .ok url) :
    ∃ scheme host s, u = scheme ++ (host ++ s) ∧
      Ascii.sameIgnoringCase scheme (utf8 "http://") ∧
      (∀ b ∈ host, b ≠ Ascii.colon ∧ b ≠ Ascii.slash) ∧
      ∀ b ∈ s.head?, b = Ascii.colon ∨ b = Ascii.slash := by
  have hscheme : Ascii.sameIgnoringCase (u.take Url.scheme.length) Url.scheme := by
    obtain ⟨hstart, -⟩ := ite_error_eq_ok_iff.1 h
    simp only [Bool.or_eq_true, not_or] at hstart
    simpa using hstart.2
  refine ⟨u.take Url.scheme.length,
    (u.drop Url.scheme.length).takeWhile fun b => b ≠ Ascii.colon && b ≠ Ascii.slash,
    (u.drop Url.scheme.length).dropWhile fun b => b ≠ Ascii.colon && b ≠ Ascii.slash,
    ?_, hscheme, fun b hb => ?_, fun b hb => ?_⟩
  · rw [List.takeWhile_append_dropWhile, List.take_append_drop]
  · simpa using List.mem_takeWhile_imp hb
  · simpa [Decidable.or_iff_not_imp_left] using Bytes.not_of_mem_head?_dropWhile hb

theorem parse_eq_ok_iff : parse u = .ok url ↔ Denotes u url := by
  constructor
  · intro h
    obtain ⟨scheme, host, s, rfl, hscheme, hdelim, hs⟩ := exists_append_of_parse h
    obtain ⟨hlength, hhost, rfl, p, q, rfl, hport, hpath⟩ :=
      (parse_append_eq_ok_iff hscheme hdelim hs).1 h
    simp only [← List.append_assoc] at hlength ⊢
    exact .intro hscheme hhost hport hpath hlength
  · rintro ⟨hscheme, hhost, hport, hpath, hlength⟩
    have hs := head?_of_port hport (head?_of_path hpath)
    simp only [List.append_assoc] at hlength ⊢
    exact (parse_append_eq_ok_iff hscheme hhost.delimiters hs).2
      ⟨hlength, hhost, rfl, _, _, rfl, hport, hpath⟩

/-! ### What is refused -/

theorem error_of_readPort (h : readPort t = .error e) : e = .invalidUrl := by
  unfold readPort at h
  split_ifs at h
  split at h
  · split_ifs at h
    cases h
    rfl
  · cases h
    rfl

theorem error_of_readTail (h : readTail s = .error e) : e = .invalidUrl := by
  by_cases hcolon : s.head? = some Ascii.colon
  · obtain ⟨t, rfl⟩ := List.head?_eq_some_iff.1 hcolon
    rw [readTail_colon] at h
    rcases hport : readPort (t.takeWhile (· ≠ Ascii.slash)) with e' | port
    · rw [hport] at h
      cases h
      exact error_of_readPort hport
    · rw [hport] at h
      cases h
  · rw [readTail_of_ne hcolon] at h
    cases h

theorem error_of_parse (h : parse u = .error e) : e = .invalidUrl := by
  rw [parse] at h
  split at h
  · cases h
    rfl
  · dsimp only at h
    split at h
    · cases h
      rfl
    · split at h
      · rename_i htail
        cases h
        exact error_of_readTail htail
      · rename_i port tail _
        generalize (if tail.isEmpty then [Ascii.slash] else tail) = path at h
        split at h
        · cases h
          rfl
        · cases h

theorem parse_eq_invalidUrl_iff : parse u = .error .invalidUrl ↔ ∀ url, ¬ Denotes u url := by
  constructor
  · intro h url hurl
    rw [parse_eq_ok_iff.2 hurl] at h
    cases h
  · intro h
    rcases hparse : parse u with e | url
    · rw [error_of_parse hparse]
    · exact absurd (parse_eq_ok_iff.1 hparse) (h url)

/-! ### URLs in UTF-8 -/

theorem ascii_of_scheme (h : Ascii.sameIgnoringCase scheme (utf8 "http://")) :
    ∀ b ∈ scheme, b < 0x80 := by
  intro b hb
  have hmem : Ascii.toLower b ∈ (utf8 "http://").map Ascii.toLower :=
    eq_of_beq h ▸ List.mem_map_of_mem hb
  have hascii : ((utf8 "http://").map Ascii.toLower).all (· < 0x80) := by decide
  exact Ascii.lt_of_toLower_lt (of_decide_eq_true (List.all_eq_true.1 hascii _ hmem))

/-- Host and path are cut out at ASCII bytes, so neither begins or ends within a character. -/
theorem isValid_of_denotes (h : Denotes u url) (hu : Utf8.isValid u) :
    Utf8.isValid url.host ∧ Utf8.isValid url.path := by
  obtain ⟨hscheme, hhost, hport, hpath, -⟩ := h
  have hq := head?_of_path hpath
  rw [List.append_assoc, List.append_assoc,
    Utf8.isValid_append (Utf8.isValid_of_ascii (ascii_of_scheme hscheme))] at hu
  obtain ⟨hvalid, hrest⟩ := Utf8.isValid_of_isValid_append hu fun b hb => by
    rcases head?_of_port hport hq b hb with rfl | rfl <;> decide
  obtain ⟨-, htail⟩ := Utf8.isValid_of_isValid_append hrest fun b hb => by
    rw [hq b hb]
    decide
  refine ⟨hvalid, ?_⟩
  cases hpath with
  | absent => rfl
  | given => exact htail

/-- What is read as a URL, and what is read out of it, is what the grammar says; any other text is
refused as malformed.  Of a text in UTF-8, host and path are in UTF-8 too. -/
theorem parse_iff_denotes (text : Bytes) :
    (∀ url, parse text = .ok url ↔ Denotes text url) ∧
      (parse text = .error .invalidUrl ↔ ∀ url, ¬ Denotes text url) ∧
      (Utf8.isValid text → ∀ url, Denotes text url →
        Utf8.isValid url.host ∧ Utf8.isValid url.path) :=
  ⟨fun _ => parse_eq_ok_iff, parse_eq_invalidUrl_iff, fun htext _ h => isValid_of_denotes h htext⟩

/-- The zeros do not count, and the host is longer in bytes than in characters. -/
theorem denotes_leading_zeros :
    Denotes (utf8 "hTTp://é:0065535/ß") ⟨utf8 "é", 65535, utf8 "/ß"⟩ ∧
      Utf8.isValid (utf8 "é") ∧ Utf8.isValid (utf8 "/ß") ∧
      ∀ url, ¬ Denotes (utf8 "http://é:0065536/ß") url := by
  obtain ⟨haccepts, -, hvalid⟩ := parse_iff_denotes (utf8 "hTTp://é:0065535/ß")
  obtain ⟨-, hrefuses, -⟩ := parse_iff_denotes (utf8 "http://é:0065536/ß")
  have hdenotes := (haccepts ⟨utf8 "é", 65535, utf8 "/ß"⟩).1 (by rfl)
  obtain ⟨hhost, hpath⟩ := hvalid (by rfl) _ hdenotes
  exact ⟨hdenotes, hhost, hpath, hrefuses.1 (by rfl)⟩

/-! ## Writing a URL out again -/

theorem one_le_of_port (h : Port p port) : 1 ≤ port.toNat := by
  cases h with
  | absent => decide
  | given _ ht =>
    cases ht with
    | other => decide
    | number _ hpos => exact hpos

theorem length_of_path (h : Path q path) : path.length < 1024 := by
  cases h with
  | absent => decide
  | given hlength => exact hlength

theorem path_self_of_path (h : Path q path) : Path path path := by
  cases h with
  | absent => exact .given (by decide) nofun
  | given hlength hbytes => exact .given hlength hbytes

/-- The default port is left out, and any other is written without leading zeros. -/
theorem exists_port_of_authority (url : Url) (h : Port p url.port) :
    ∃ p', url.authority = url.host ++ p' ∧ Port p' url.port ∧ p'.length ≤ 6 := by
  by_cases hdefault : url.port = 80
  · exact ⟨[], (if_pos hdefault).trans (List.append_nil _).symm, hdefault ▸ .absent, by decide⟩
  · have hnumeral : Numeral.Denotes 10 (Numeral.decimal url.port.toNat) url.port.toNat :=
      Numeral.denotes_render (by decide) (by decide) _
    have hslash : Ascii.slash ∉ Numeral.decimal url.port.toNat := by
      intro hmem
      obtain ⟨_, _, hdigit⟩ := hnumeral.digits _ hmem
      cases hdigit
    have hlength : (Numeral.decimal url.port.toNat).length ≤ 5 := by
      rw [Numeral.decimal, Numeral.render, List.length_map]
      exact Nat.toDigits_length 10 _ 5 (by decide) (Nat.lt_trans url.port.toNat_lt (by decide))
    exact ⟨Ascii.colon :: Numeral.decimal url.port.toNat, if_neg hdefault,
      .given hslash (.number hnumeral (one_le_of_port h)), Nat.succ_le_succ hlength⟩

/-- The written form keeps within the limit, since its parts are short enough together. -/
theorem denotes_render (h : Denotes u url) : Denotes url.render url := by
  rcases h with @⟨_, host, _, _, path, port, -, hhost, hport, hpath, -⟩
  obtain ⟨p', hauthority, hport', hp'⟩ := exists_port_of_authority ⟨host, port, path⟩ hport
  have hscheme : Url.scheme.length = 7 := by decide
  have hhostLength := hhost.length_lt
  have hpathLength := length_of_path hpath
  rw [render, hauthority, ← List.append_assoc]
  refine .intro (Ascii.sameIgnoringCase_refl _) hhost hport' (path_self_of_path hpath) ?_
  simp only [List.length_append, hscheme]
  omega

/-- What was read is written in a form that is read as the same, and does not change any more. -/
theorem parse_render (h : parse u = .ok url) :
    parse url.render = .ok url ∧ (parse url.render).map render = .ok url.render := by
  have hagain : parse url.render = .ok url :=
    parse_eq_ok_iff.2 (denotes_render (parse_eq_ok_iff.1 h))
  refine ⟨hagain, ?_⟩
  rw [hagain]
  rfl

theorem parse_render_without_path :
    let url : Url := ⟨utf8 "h", 81, utf8 "/"⟩
    parse (utf8 "HTTP://h:00081") = .ok url ∧ url.render = utf8 "http://h:81/" ∧
      parse url.render = .ok url ∧ (parse url.render).map render = .ok (utf8 "http://h:81/") := by
  have hparse : parse (utf8 "HTTP://h:00081") = .ok ⟨utf8 "h", 81, utf8 "/"⟩ := by rfl
  obtain ⟨hagain, hrender⟩ := parse_render hparse
  exact ⟨hparse, by rfl, hagain, hrender⟩

end Http.Url

end NetHost
