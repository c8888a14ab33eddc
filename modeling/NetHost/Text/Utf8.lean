import NetHost.Bytes

/-!
# Well-formed UTF-8

The rule is a machine that reads one byte at a time.  Its state tells which bytes are still owed to
the character that has begun; a byte that no character can hold there is refused.  A byte string is
UTF-8 when the machine reads all of it and ends between two characters.
-/

namespace NetHost.Utf8

/-- Where the machine stands between two bytes. -/
inductive State where
  /-- Between two characters. -/
  | start
  /-- One continuation byte is owed. -/
  | one
  | two
  | three
  /-- After `E0`: the next of the two bytes owed is not below `A0`, which would be overlong. -/
  | afterE0
  /-- After `ED`: the next of the two bytes owed is not above `9F`, which would be a surrogate. -/
  | afterED
  /-- After `F0`: the next of the three bytes owed is not below `90`, which would be overlong. -/
  | afterF0
  /-- After `F4`: the next of the three bytes owed is not above `8F`, the end of the code space. -/
  | afterF4
  deriving DecidableEq, Repr

def first (b : UInt8) : Option State :=
  if b < 0x80 then some .start
  else if b < 0xC2 then none
  else if b < 0xE0 then some .one
  else if b = 0xE0 then some .afterE0
  else if b = 0xED then some .afterED
  else if b < 0xF0 then some .two
  else if b = 0xF0 then some .afterF0
  else if b < 0xF4 then some .three
  else if b = 0xF4 then some .afterF4
  else none

/-- `next` if `lo ≤ b ≤ hi`. -/
def within (lo hi b : UInt8) (next : State) : Option State :=
  if lo ≤ b && b ≤ hi then some next else none

/-- The state after one more byte, if that byte can stand there. -/
def step : State → UInt8 → Option State
  | .start, b => first b
  | .one, b => within 0x80 0xBF b .start
  | .two, b => within 0x80 0xBF b .one
  | .three, b => within 0x80 0xBF b .two
  | .afterE0, b => within 0xA0 0xBF b .one
  | .afterED, b => within 0x80 0x9F b .one
  | .afterF0, b => within 0x90 0xBF b .two
  | .afterF4, b => within 0x80 0x8F b .two

def run (q : State) (s : Bytes) : Option State := s.foldlM step q

def isValid (s : Bytes) : Bool := run .start s == some .start

theorem run_append (q : State) (s t : Bytes) : run q (s ++ t) = (run q s).bind (run · t) := by
  simp only [run, List.foldlM_append]
  rfl

theorem isValid_iff (s : Bytes) : isValid s = true ↔ run .start s = some .start := by
  simp [isValid]

/-- After valid text, validity is decided by the rest. -/
theorem isValid_append {s : Bytes} (h : isValid s = true) (t : Bytes) :
    isValid (s ++ t) = isValid t := by
  rw [isValid_iff] at h
  simp [isValid, run_append, h]

/-- ASCII is UTF-8. -/
theorem isValid_of_ascii {s : Bytes} (h : ∀ b ∈ s, b < 0x80) : isValid s = true := by
  induction s with
  | nil => rfl
  | cons b s ih =>
    have hb : isValid [b] = true := by
      simp [isValid, run, step, first, h b List.mem_cons_self]
    rw [← List.singleton_append, isValid_append hb]
    exact ih fun c hc => h c (List.mem_cons_of_mem b hc)

/-- An ASCII byte stands between two characters only, and is a character of its own. -/
theorem step_eq_some_of_ascii {q q' : State} {b : UInt8} (hb : b < 0x80)
    (h : step q b = some q') : q = .start ∧ q' = .start := by
  have hlow {lo hi : UInt8} {next : State} (hlo : 0x80 ≤ lo) : within lo hi b next = none := by
    have hnot : ¬ lo ≤ b := UInt8.not_le.2 (UInt8.lt_of_lt_of_le hb hlo)
    simp [within, hnot]
  cases q with
  | start =>
    rw [step, first, if_pos hb] at h
    cases h
    exact ⟨rfl, rfl⟩
  | _ =>
    rw [step, hlow (by decide)] at h
    cases h

/-- Valid text may be cut in front of an ASCII byte. -/
theorem isValid_of_isValid_append {s t : Bytes} (h : isValid (s ++ t) = true)
    (ht : ∀ b ∈ t.head?, b < 0x80) : isValid s = true ∧ isValid t = true := by
  have hs : isValid s = true := by
    cases t with
    | nil => rwa [List.append_nil] at h
    | cons b t =>
      rw [isValid_iff, run_append] at h
      obtain ⟨q, hq, h⟩ := Option.bind_eq_some_iff.1 h
      obtain ⟨q', hstep, -⟩ := Option.bind_eq_some_iff.1 h
      obtain ⟨rfl, -⟩ := step_eq_some_of_ascii (ht b rfl) hstep
      exact (isValid_iff s).2 hq
  exact ⟨hs, by rwa [isValid_append hs] at h⟩

end NetHost.Utf8
