import Mathlib.Algebra.Group.Nat.Defs
import Mathlib.Tactic.Common
import NetHost.Proofs.Icmp.Blocking
import NetHost.Proofs.Icmp.Tries

/-!
# The schedule of a continuous session

The echoes of a continuous session are due at the start and then once each interval.  However
late, often or clustered the polls are, no echo is tried before it is due, and so the session never
tries more of them than the time that went by allows.  As long as no poll is missed, each echo is
tried at the very time it is due (`World.on_schedule`).

* `World.Course` has what happens from the start of a session to the start of the next one, on a
  clock that never goes back and stands still while a call makes its turn.
* `Log.Kept` is what every turn keeps: the echoes tried so far are on schedule
  (`Log.OnSchedule`), and the session is to try the next one on schedule (`Log.GoesOnAs`).
-/

namespace NetHost.Icmp

/-! ## What was tried when -/

structure Try where
  key : EchoKey
  time : Instant
  deriving DecidableEq, Repr

/-- What happened to a session so far. -/
structure Log where
  now : Instant
  /-- When it was polled. -/
  polls : List Instant := []
  /-- The echoes that were tried, in order. -/
  tries : List Try := []
  deriving DecidableEq, Repr

namespace Log

/-- The log after a turn that was made at the time `later` and tried the given echoes. -/
def add (log : Log) (later : Instant) (polled : Bool) (keys : List EchoKey) : Log where
  now := later
  polls := log.polls ++ if polled then [later] else []
  tries := log.tries ++ keys.map (⟨·, later⟩)

def PolledAt (log : Log) (time : Nat) : Prop := ∃ p ∈ log.polls, p.toNat = time

end Log

/-- When the echo with the number `k` is due. -/
def Ping.Session.dueAt (s : Ping.Session) (start : Instant) (k : Nat) : Nat :=
  start.toNat + k * s.config.interval.toNat

/-- Whenever one of the first `n` echoes was due, the session was polled. -/
def Log.Punctual (log : Log) (start : Instant) (s : Ping.Session) (n : Nat) : Prop :=
  ∀ k < n, log.PolledAt (s.dueAt start k)

namespace World

/-- What can happen from the start of a continuous session to the start of the next, with what is
logged of it.  `s` is the session after its first echo was tried. -/
inductive Course (start : Instant) (s : Ping.Session) : World → Log → Prop where
  | opens (w : World) {c : Call} (hmode : c.mode? = some .continuous)
      (hstarts : (w.call c (.still start)).starts = w.starts + 1)
      (hs : (w.call c (.still start)).engine.session = some s)
      (hroom : start.toNat + s.config.interval.toNat < 2 ^ 64) :
    Course start s (w.call c (.still start))
      (.add ⟨start, [], []⟩ start true ((w.engine.start (.still start) c).tried w.engine))
  | call {w : World} {log : Log} (h : Course start s w log) (c : Call) {later : Instant}
      (hnow : log.now ≤ later) (hroom : later.toNat + s.config.interval.toNat < 2 ^ 64)
      (hstarts : (w.call c (.still later)).starts = w.starts) :
    Course start s (w.call c (.still later))
      (log.add later (c = .poll ∧ w.engine.session.isSome)
        ((w.engine.start (.still later) c).tried w.engine))
  | resume {w : World} {log : Log} (h : Course start s w log) {before after : List Frame}
      {f : Frame} {later : Instant} {turn : Turn} (hnow : log.now ≤ later)
      (hroom : later.toNat + s.config.interval.toNat < 2 ^ 64)
      (hframes : w.frames = before ++ f :: after)
      (hturn : Resumes w.engine (.still later) f.call turn) :
    Course start s
      { w with engine := turn.engine, frames := suspend (before ++ after) turn f.born }
      (log.add later false (turn.tried w.engine))

end World

/-! ## When echoes are due -/

namespace Ping.Session

variable {s : Ping.Session} {start now : Instant} {j k : Nat}

theorem dueAt_zero : s.dueAt start 0 = start.toNat := by
  rw [dueAt, Nat.zero_mul, Nat.add_zero]

theorem dueAt_succ : s.dueAt start (k + 1) = s.dueAt start k + s.config.interval.toNat := by
  rw [dueAt, dueAt, Nat.succ_mul, Nat.add_assoc]

theorem dueAt_mono (start : Instant) (h : j ≤ k) : s.dueAt start j ≤ s.dueAt start k :=
  Nat.add_le_add_left (Nat.mul_le_mul_right _ h) _

theorem dueAt_lt (start : Instant) (hinterval : 0 < s.config.interval.toNat) (h : j < k) :
    s.dueAt start j < s.dueAt start k :=
  Nat.add_lt_add_left (Nat.mul_lt_mul_of_pos_right h hinterval) _

/-- The next echo is due one interval after this one, or one interval from now. -/
theorem toNat_advance (hdue : s.nextSendAt ≤ now)
    (hroom : now.toNat + s.config.interval.toNat < 2 ^ 64) :
    (s.advance now).nextSendAt.toNat =
      if s.nextSendAt.toNat + s.config.interval.toNat ≤ now.toNat then
        now.toNat + s.config.interval.toNat
      else s.nextSendAt.toNat + s.config.interval.toNat := by
  rw [UInt64.le_iff_toNat_le] at hdue
  have hnext : (Saturating.add64 s.nextSendAt s.config.interval.toUInt64).toNat =
      s.nextSendAt.toNat + s.config.interval.toNat := by
    rw [Saturating.toNat_add64, UInt32.toNat_toUInt64]
    omega
  simp only [advance, UInt64.le_iff_toNat_le, hnext]
  split_ifs
  · rw [UInt64.toNat_add, UInt32.toNat_toUInt64]
    exact Nat.mod_eq_of_lt hroom
  · exact hnext

end Ping.Session

/-! ## What the log says -/

namespace Log

variable {log : Log} {start later : Instant} {s : Ping.Session} {keys : List EchoKey} {n m : Nat}

theorem Punctual.mono (h : log.Punctual start s n) (hle : m ≤ n) : log.Punctual start s m :=
  fun k hk => h k (Nat.lt_of_lt_of_le hk hle)

theorem add_false_nil (log : Log) (later : Instant) :
    log.add later false [] = { log with now := later } := by
  simp [add]

theorem polledAt_add_iff {time : Nat} :
    (log.add later true keys).PolledAt time ↔ log.PolledAt time ∨ later.toNat = time := by
  simp only [PolledAt, add, if_true, List.mem_append, List.mem_singleton, or_and_right, exists_or,
    exists_eq_left]

theorem Punctual.succ (h : log.Punctual start s n) (hlast : log.PolledAt (s.dueAt start n)) :
    log.Punctual start s (n + 1) := by
  intro k hk
  rcases Nat.lt_succ_iff_lt_or_eq.1 hk with hk | rfl
  · exact h k hk
  · exact hlast

/-- A poll that comes after all others can have been missing for the last echo only. -/
theorem Punctual.of_add (hinterval : 0 < s.config.interval.toNat)
    (hpolls : ∀ p ∈ log.polls, p.toNat ≤ later.toNat)
    (h : (log.add later true keys).Punctual start s (n + 1)) :
    log.Punctual start s (n + 1) ∨ log.Punctual start s n ∧ later.toNat = s.dueAt start n := by
  have hlast := polledAt_add_iff.1 (h n (Nat.lt_succ_self n))
  have hle : s.dueAt start n ≤ later.toNat := by
    rcases hlast with ⟨p, hp, heq⟩ | heq
    · exact heq ▸ hpolls p hp
    · exact Nat.le_of_eq heq.symm
  have hbefore : log.Punctual start s n := by
    intro k hk
    have hlt := s.dueAt_lt start hinterval hk
    exact (polledAt_add_iff.1 (h k (by omega))).resolve_right (by omega)
  exact hlast.imp hbefore.succ fun heq => ⟨hbefore, heq⟩

/-- What was tried of the session `s` is on its schedule. -/
structure OnSchedule (log : Log) (start : Instant) (s : Ping.Session) : Prop where
  polls_le : ∀ p ∈ log.polls, p.toNat ≤ log.now.toNat
  polled : ∀ tried ∈ log.tries, tried.time ∈ log.polls
  dueAt_le : ∀ k (hk : k < log.tries.length), s.dueAt start k ≤ log.tries[k].time.toNat
  key : ∀ k (hk : k < log.tries.length),
    log.tries[k].key = ⟨s.destination, s.identifier, UInt16.ofNat k⟩
  punctual : ∀ k (hk : k < log.tries.length), log.Punctual start s (k + 1) →
    log.tries[k].time.toNat = s.dueAt start k
  lt_length : ∀ k, log.Punctual start s (k + 1) → k < log.tries.length

/-- The session is to go on as `s'`. -/
structure GoesOnAs (log : Log) (start : Instant) (s s' : Ping.Session) : Prop where
  same : s.Same s'
  continuous : s'.mode = .continuous
  sequence : s'.nextSequence = UInt16.ofNat log.tries.length
  polls_lt : ∀ p ∈ log.polls, p.toNat < s'.nextSendAt.toNat
  next_le : s'.nextSendAt.toNat ≤ log.now.toNat + s.config.interval.toNat
  dueAt_le : s.dueAt start log.tries.length ≤ s'.nextSendAt.toNat
  punctual : log.Punctual start s log.tries.length →
    s'.nextSendAt.toNat = s.dueAt start log.tries.length

variable {s' : Ping.Session}

theorem OnSchedule.empty (start : Instant) (s : Ping.Session) :
    (⟨start, [], []⟩ : Log).OnSchedule start s where
  polls_le := nofun
  polled := nofun
  dueAt_le := nofun
  key := nofun
  punctual := nofun
  lt_length k hk := by
    obtain ⟨p, hp, -⟩ := hk k (Nat.lt_succ_self k)
    cases hp

/-- The first echo is due at once. -/
theorem GoesOnAs.empty (hmode : s.mode = .continuous) (hsequence : s.nextSequence = 0)
    (hnext : s.nextSendAt = start) :
    (⟨start, [], []⟩ : Log).GoesOnAs start (s.advance start) s where
  same := ⟨rfl, rfl, rfl, rfl⟩
  continuous := hmode
  sequence := hsequence
  polls_lt := nofun
  next_le := by
    rw [hnext]
    exact Nat.le_add_right _ _
  dueAt_le := by
    rw [hnext]
    exact Nat.le_of_eq Ping.Session.dueAt_zero
  punctual _ := by
    rw [hnext]
    exact Ping.Session.dueAt_zero.symm

theorem OnSchedule.wait (h : log.OnSchedule start s) (hnow : log.now.toNat ≤ later.toNat) :
    (log.add later false []).OnSchedule start s := by
  rw [add_false_nil]
  exact { h with polls_le := fun p hp => Nat.le_trans (h.polls_le p hp) hnow }

theorem OnSchedule.polls_le_of_le (h : log.OnSchedule start s)
    (hnow : log.now.toNat ≤ later.toNat) : ∀ p ∈ log.polls, p.toNat ≤ later.toNat :=
  fun p hp => Nat.le_trans (h.polls_le p hp) hnow

theorem GoesOnAs.wait (h : log.GoesOnAs start s s') (hnow : log.now.toNat ≤ later.toNat) :
    (log.add later false []).GoesOnAs start s s' := by
  rw [add_false_nil]
  exact { h with next_le := Nat.le_trans h.next_le (Nat.add_le_add_right hnow _) }

theorem polls_le_add (h : ∀ p ∈ log.polls, p.toNat ≤ later.toNat) :
    ∀ p ∈ (log.add later true keys).polls, p.toNat ≤ later.toNat := by
  intro p hp
  rcases List.mem_append.1 hp with hp | hp
  · exact h p hp
  · exact Nat.le_of_eq (congrArg UInt64.toNat (List.mem_singleton.1 hp))

theorem length_tries_add {key : EchoKey} :
    (log.add later true [key]).tries.length = log.tries.length + 1 :=
  List.length_append

theorem forall_tries_add {P : Nat → Try → Prop} {key : EchoKey}
    (h : ∀ k (hk : k < log.tries.length), P k log.tries[k])
    (hlast : P log.tries.length ⟨key, later⟩) (k : Nat)
    (hk : k < (log.add later true [key]).tries.length) :
    P k (log.add later true [key]).tries[k] := by
  have hle := length_tries_add ▸ hk
  rcases Nat.lt_succ_iff_lt_or_eq.1 hle with hlt | rfl
  · exact (List.getElem_append_left hlt).symm ▸ h k hlt
  · exact (List.getElem_concat_length rfl _).symm ▸ hlast

/-- If the session was polled when an echo of the log was due, then before `later` as well. -/
theorem OnSchedule.punctual_of_add (hinterval : 0 < s.config.interval.toNat)
    (h : log.OnSchedule start s) (hnow : log.now.toNat ≤ later.toNat)
    (hn : (log.add later true keys).Punctual start s n) (hle : n ≤ log.tries.length) :
    log.Punctual start s n := by
  cases n with
  | zero => nofun
  | succ k =>
    have hpolls := h.polls_le_of_le hnow
    rcases hn.of_add hinterval hpolls with hn | ⟨hbefore, hlater⟩
    · exact hn
    · -- The echo was tried no earlier than `later`, and by a poll that was there before.
      have hpolled := h.polled _ (List.getElem_mem hle)
      have hdue := h.dueAt_le k hle
      have hlast := hpolls _ hpolled
      exact hbefore.succ ⟨_, hpolled, by omega⟩

section Poll

variable (hinterval : 0 < s.config.interval.toNat) (h : log.OnSchedule start s)
  (hgoes : log.GoesOnAs start s s') (hnow : log.now.toNat ≤ later.toNat)

include hinterval h hgoes hnow

/-- Nothing follows from a poll that comes before the next echo is due. -/
theorem OnSchedule.early (hearly : later.toNat < s'.nextSendAt.toNat) :
    (log.add later true []).OnSchedule start s := by
  have hpolls := h.polls_le_of_le hnow
  have htries : (log.add later true []).tries = log.tries := List.append_nil _
  refine ⟨polls_le_add hpolls, ?_, ?_, ?_, ?_, ?_⟩
  · rw [htries]
    exact fun tried htried => List.mem_append_left _ (h.polled tried htried)
  · simp only [htries]
    exact h.dueAt_le
  · simp only [htries]
    exact h.key
  · simp only [htries]
    exact fun k hlt hk => h.punctual k hlt (h.punctual_of_add hinterval hnow hk hlt)
  · rw [htries]
    intro k hk
    by_contra hge
    rw [Nat.not_lt] at hge
    -- A missed echo would be due at `later`, and the next one no later than that.
    rcases hk.of_add hinterval hpolls with hk | ⟨hbefore, hlater⟩
    · exact Nat.not_lt.2 hge (h.lt_length k hk)
    · have hnext := hgoes.punctual (hbefore.mono hge)
      have hmono := s.dueAt_mono start hge
      omega

theorem GoesOnAs.early (hearly : later.toNat < s'.nextSendAt.toNat) :
    (log.add later true []).GoesOnAs start s s' := by
  have hpolls := h.polls_le_of_le hnow
  have htries : (log.add later true []).tries = log.tries := List.append_nil _
  exact
    { same := hgoes.same
      continuous := hgoes.continuous
      sequence := by rw [htries]; exact hgoes.sequence
      polls_lt := fun p hp => Nat.lt_of_le_of_lt (polls_le_add hpolls p hp) hearly
      next_le := Nat.le_trans hgoes.next_le (Nat.add_le_add_right hnow _)
      dueAt_le := by rw [htries]; exact hgoes.dueAt_le
      punctual := by
        rw [htries]
        exact fun hn => hgoes.punctual (h.punctual_of_add hinterval hnow hn (Nat.le_refl _)) }

/-- If the session was polled whenever an echo was due, then the next one is tried on time. -/
theorem GoesOnAs.eq_of_add
    (hn : (log.add later true keys).Punctual start s (log.tries.length + 1)) :
    s'.nextSendAt.toNat = s.dueAt start log.tries.length ∧
      later.toNat = s.dueAt start log.tries.length := by
  have hpolls := h.polls_le_of_le hnow
  rcases hn.of_add hinterval hpolls with hn | ⟨hbefore, hlater⟩
  · exact absurd (h.lt_length _ hn) (Nat.lt_irrefl _)
  · exact ⟨hgoes.punctual hbefore, hlater⟩

/-- The next echo is tried by a poll that comes when it is due or later. -/
theorem OnSchedule.due (hdue : s'.nextSendAt.toNat ≤ later.toNat) :
    (log.add later true [⟨s'.destination, s'.identifier, s'.nextSequence⟩]).OnSchedule start s := by
  have hpolls := h.polls_le_of_le hnow
  refine ⟨polls_le_add hpolls, ?_, ?_, ?_, ?_, ?_⟩
  · intro tried htried
    rcases List.mem_append.1 htried with hold | hnew
    · exact List.mem_append_left _ (h.polled tried hold)
    · rw [List.mem_singleton.1 hnew]
      exact List.mem_append_right _ List.mem_cons_self
  · exact forall_tries_add (P := fun k tried => s.dueAt start k ≤ tried.time.toNat) h.dueAt_le
      (Nat.le_trans hgoes.dueAt_le hdue)
  · apply forall_tries_add
      (P := fun k tried => tried.key = ⟨s.destination, s.identifier, UInt16.ofNat k⟩) h.key
    rw [hgoes.same.destination, hgoes.same.identifier, hgoes.sequence]
  · apply forall_tries_add (P := fun k tried => Punctual _ start s (k + 1) →
      tried.time.toNat = s.dueAt start k)
    · exact fun k hlt hk => h.punctual k hlt (h.punctual_of_add hinterval hnow hk hlt)
    · exact fun hk => (hgoes.eq_of_add hinterval h hnow hk).2
  · intro k hk
    rw [length_tries_add]
    -- An echo further on would have been due after `later`, when there was no poll yet.
    by_contra hge
    obtain ⟨p, hp, heq⟩ := hk (log.tries.length + 1) (by omega)
    have hle := polls_le_add hpolls p hp
    have hlater := (hgoes.eq_of_add hinterval h hnow (hk.mono (by omega))).2
    have hdue := s.dueAt_lt start hinterval (Nat.lt_add_one log.tries.length)
    omega

theorem GoesOnAs.due (hdue : s'.nextSendAt ≤ later)
    (hroom : later.toNat + s.config.interval.toNat < 2 ^ 64) (key : EchoKey) :
    (log.add later true [key]).GoesOnAs start s (s'.advance later) := by
  have hpolls := h.polls_le_of_le hnow
  have hnext := s'.toNat_advance hdue (by rw [hgoes.same.config]; exact hroom)
  rw [hgoes.same.config] at hnext
  rw [UInt64.le_iff_toNat_le] at hdue
  have hlt : later.toNat < (s'.advance later).nextSendAt.toNat := by
    rw [hnext]
    split_ifs <;> omega
  exact
    { same := ⟨hgoes.same.mode, hgoes.same.identifier, hgoes.same.destination, hgoes.same.config⟩
      continuous := hgoes.continuous
      sequence := by
        rw [length_tries_add, UInt16.ofNat_add, ← hgoes.sequence]
        rfl
      polls_lt := fun p hp => Nat.lt_of_le_of_lt (polls_le_add hpolls p hp) hlt
      next_le := by
        rw [hnext]
        show _ ≤ later.toNat + _
        split_ifs <;> omega
      dueAt_le := by
        have hle := hgoes.dueAt_le
        rw [length_tries_add, s.dueAt_succ, hnext]
        split_ifs <;> omega
      punctual := by
        rw [length_tries_add]
        intro hn
        obtain ⟨hduenow, hlater⟩ := hgoes.eq_of_add hinterval h hnow hn
        rw [s.dueAt_succ, hnext, if_neg (by omega)]
        omega }

end Poll

/-- Of the echoes that are due later than `time`, none was tried by then. -/
theorem OnSchedule.length_tries_le (hinterval : 0 < s.config.interval.toNat)
    (h : log.OnSchedule start s) (time : Nat) :
    (log.tries.filter (·.time.toNat ≤ time)).length ≤
      1 + (time - start.toNat) / s.config.interval.toNat := by
  generalize hm : 1 + (time - start.toNat) / s.config.interval.toNat = m
  have hlate : (log.tries.drop m).filter (·.time.toNat ≤ time) = [] := by
    rw [List.filter_eq_nil_iff]
    intro tried htried
    obtain ⟨k, hk, rfl⟩ := List.mem_drop_iff_getElem.1 htried
    have hdue := h.dueAt_le (m + k) (by omega)
    have hlt : time - start.toNat < (m + k) * s.config.interval.toNat :=
      (Nat.div_lt_iff_lt_mul hinterval).1 (by omega)
    rw [Ping.Session.dueAt] at hdue
    rw [decide_eq_true_eq]
    omega
  calc (log.tries.filter (·.time.toNat ≤ time)).length
      = ((log.tries.take m).filter (·.time.toNat ≤ time)).length := by
        rw [← List.take_append_drop m log.tries, List.filter_append, hlate, List.append_nil,
          List.take_append_drop]
    _ ≤ (log.tries.take m).length := List.length_filter_le _ _
    _ ≤ m := List.length_take_le m _

/-! ## What a turn keeps -/

/-- The log is on schedule, and so is what the engine does next. -/
structure Kept (log : Log) (start : Instant) (s : Ping.Session) (e : Engine) : Prop where
  onSchedule : log.OnSchedule start s
  ready : ∀ s', e.session = some s' → e.ready
  goesOn : ∀ s', e.session = some s' → log.GoesOnAs start s s'

namespace Kept

variable {e : Engine} {turn : Turn}

theorem wait (h : log.Kept start s e) (hnow : log.now ≤ later) (hrests : turn.Rests e) :
    (log.add later false (turn.tried e)).Kept start s turn.engine := by
  rw [UInt64.le_iff_toNat_le] at hnow
  rw [hrests.tried]
  exact
    { onSchedule := h.onSchedule.wait hnow
      ready := fun s' hs' => hrests.stands.ready (h.ready s' (hrests.stands.session_eq_some hs'))
      goesOn := fun s' hs' => (h.goesOn s' (hrests.stands.session_eq_some hs')).wait hnow }

theorem of_tries (hinterval : 0 < s.config.interval.toNat) (h : log.OnSchedule start s)
    (hgoes : log.GoesOnAs start s s') (hnow : log.now ≤ later) (hdue : s'.nextSendAt ≤ later)
    (hroom : later.toNat + s.config.interval.toNat < 2 ^ 64) (htries : turn.Tries s' later e) :
    (log.add later true (turn.tried e)).Kept start s turn.engine := by
  rw [UInt64.le_iff_toNat_le] at hnow
  rw [htries.tried]
  refine ⟨h.due hinterval hgoes hnow (UInt64.le_iff_toNat_le.1 hdue), fun _ _ => htries.ready,
    fun s'' hs'' => ?_⟩
  rw [htries.session] at hs''
  cases hs''
  exact hgoes.due hinterval h hnow hdue hroom _

theorem poll (hinterval : 0 < s.config.interval.toNat) (h : log.Kept start s e)
    (hnow : log.now ≤ later) (hroom : later.toNat + s.config.interval.toNat < 2 ^ 64) :
    (log.add later e.session.isSome ((e.poll (.still later)).tried e)).Kept start s
      (e.poll (.still later)).engine := by
  cases hs : e.session with
  | none =>
    exact h.wait hnow (rests_poll fun s' hs' => by rw [hs] at hs'; cases hs')
  | some s' =>
    have hgoes := h.goesOn s' hs
    have hnow' := UInt64.le_iff_toNat_le.1 hnow
    by_cases hdue : s'.nextSendAt ≤ later
    · have htries : (e.poll (.still later)).Tries s' later e :=
        tries_poll (t := .still later) (h.ready s' hs) hs hgoes.continuous hdue
      exact of_tries hinterval h.onSchedule hgoes hnow hdue hroom htries
    · rw [UInt64.not_le] at hdue
      have hearly := UInt64.lt_iff_toNat_lt.1 hdue
      have hrests : (e.poll (.still later)).Rests e := by
        apply rests_poll
        intro s'' hs'' _
        rw [hs] at hs''
        cases hs''
        exact hdue
      rw [hrests.tried]
      refine ⟨h.onSchedule.early hinterval hgoes hnow' hearly, fun s'' hs'' =>
        hrests.stands.ready (h.ready s'' (hrests.stands.session_eq_some hs'')), fun s'' hs'' => ?_⟩
      have heq := hrests.stands.session_eq_some hs''
      rw [hs] at heq
      cases heq
      exact hgoes.early hinterval h.onSchedule hnow' hearly

end Kept

end Log

namespace World

variable {start : Instant} {s : Ping.Session} {w : World} {log : Log}

theorem Course.kept (hinterval : 0 < s.config.interval.toNat) (h : Course start s w log) :
    log.Kept start s w.engine := by
  induction h with
  | opens w hmode hstarts hs hroom =>
    have hused := identifiersUsed_ne_of_starts hstarts
    rw [engine_call] at hs ⊢
    obtain ⟨s₀, hmode₀, hsequence, hnext, htries⟩ := tries_start hmode hused
    have heq : s₀.advance start = s := Option.some_inj.1 (htries.session.symm.trans hs)
    subst heq
    exact .of_tries hinterval (.empty start _) (.empty hmode₀ hsequence hnext)
      (UInt64.le_refl start) (UInt64.le_of_eq hnext) hroom htries
  | call h c hnow hroom hstarts ih =>
    rename_i w log later
    rw [engine_call]
    by_cases hpoll : c = .poll
    · subst hpoll
      simp only [true_and, Bool.decide_eq_true]
      exact ih.poll hinterval hnow hroom
    · simp only [hpoll, false_and, decide_false]
      refine ih.wait hnow (rests_start hpoll ?_)
      rw [identifiersUsed_of_starts hstarts]
      simp
  | resume h hnow hroom hframes hturn ih => exact ih.wait hnow (rests_resumes hturn)

/-- A poll tries at most one echo, and none if the session was polled at that instant before.  After
a poll the next echo is due within an interval, but not yet.  The echoes are tried with the numbers
0, 1, 2 and so on, which is what the packets say, never before they are due, and at the time they
are due as long as the session is polled then. -/
theorem on_schedule (hinterval : 0 < s.config.interval) (h : Course start s w log) :
    let interval := s.config.interval.toNat
    let tried (now : Instant) := (w.engine.poll (.still now)).tried w.engine
    (∀ now, (tried now).length ≤ 1) ∧
    (∀ f now turn, Resumes w.engine (.still now) f turn → turn.tried w.engine = []) ∧
    (log.now ∈ log.polls → tried log.now = [] ∧ ∀ s', w.engine.session = some s' →
      log.now < s'.nextSendAt ∧ s'.nextSendAt.toNat ≤ log.now.toNat + interval) ∧
    (∀ time, (log.tries.filter (·.time.toNat ≤ time)).length ≤
      1 + (time - start.toNat) / interval) ∧
    (∀ k (hk : k < log.tries.length),
      log.tries[k].key = ⟨s.destination, s.identifier, UInt16.ofNat k⟩) ∧
    (∀ now e destination packet rest,
      w.engine.poll (.still now) = .send e destination packet rest →
      destination = s.destination ∧ ∃ payload, Message.decode packet =
        .ok (.echoRequest ⟨s.identifier, UInt16.ofNat log.tries.length, payload⟩)) ∧
    (∀ k, (∀ j ≤ k, log.PolledAt (s.dueAt start j)) →
      ∃ hk : k < log.tries.length, log.tries[k].time.toNat = s.dueAt start k) := by
  intro interval tried
  have hinterval : 0 < s.config.interval.toNat := UInt32.lt_iff_toNat_lt.1 hinterval
  have hkept := h.kept hinterval
  have hahead (hpolled : log.now ∈ log.polls) (s' : Ping.Session)
      (hs' : w.engine.session = some s') : log.now < s'.nextSendAt :=
    UInt64.lt_iff_toNat_lt.2 ((hkept.goesOn s' hs').polls_lt _ hpolled)
  refine ⟨fun now => length_tried_poll_le _ _, fun f now turn hturn => (rests_resumes hturn).tried,
    fun hpolled => ⟨?_, fun s' hs' => ⟨hahead hpolled s' hs', (hkept.goesOn s' hs').next_le⟩⟩,
    hkept.onSchedule.length_tries_le hinterval, hkept.onSchedule.key,
    fun now e destination packet rest hsend => ?_, fun k hk => ?_⟩
  · exact (rests_poll (t := .still log.now) fun s' hs' _ => hahead hpolled s' hs').tried
  · obtain ⟨s', hs', hasked⟩ := asked?_of_poll hsend
    have hgoes := hkept.goesOn s' hs'
    rw [hgoes.same.destination, hgoes.same.identifier, hgoes.sequence] at hasked
    obtain ⟨hdestination, payload, hdecode⟩ := EchoKey.asked?_eq_some_iff.1 hasked
    exact ⟨hdestination, payload, hdecode⟩
  · have hpunctual : log.Punctual start s (k + 1) := fun j hj => hk j (Nat.lt_succ_iff.1 hj)
    have hlt := hkept.onSchedule.lt_length k hpunctual
    exact ⟨hlt, hkept.onSchedule.punctual k hlt hpunctual⟩

/-- A session that is polled when its second echo is due tries it then. -/
theorem second_echo_on_time :
    let host : Ipv4.Address := ⟨10, 0, 2, 2⟩
    let ready : World := ({ engine := .new {} } : World).call .init (.still 7)
    let w := ready.call (.startPing host) (.still 7)
    ∃ s log, Course 7 s (w.call .poll (.still 1007)) log ∧ log.polls = [7, 1007] ∧
      ∃ hk : 1 < log.tries.length, log.tries[1].time.toNat = 1007 ∧
        log.tries[1].key = ⟨host, 38348, 1⟩ := by
  intro host ready w
  have hstarts : (ready.call (.startPing host) (.still 7)).starts = ready.starts + 1 := by decide
  have hs : (ready.call (.startPing host) (.still 7)).engine.session =
      some ⟨.continuous, host, 38348, 1, {}, 1007⟩ := by decide
  have hpolled : (w.call .poll (.still 1007)).starts = w.starts := by decide
  have hlater : (7 : Instant) ≤ 1007 := by decide
  have hopens := Course.opens ready (c := .startPing host) rfl hstarts hs (by decide)
  have hcourse := hopens.call .poll hlater (by decide) hpolled
  generalize hlog : Log.add _ _ _ _ = log at hcourse
  have hpolls : log.polls = [7, 1007] := by
    rw [← hlog]
    decide
  have hpunctual : ∀ j ≤ 1, log.PolledAt (7 + j * 1000) := by
    intro j hj
    rw [Log.PolledAt, hpolls]
    obtain rfl | rfl : j = 0 ∨ j = 1 := by omega
    · exact ⟨7, by decide, rfl⟩
    · exact ⟨1007, by decide, rfl⟩
  obtain ⟨-, -, -, -, hkeys, -, htimes⟩ := on_schedule (by decide) hcourse
  obtain ⟨hk, htime⟩ := htimes 1 hpunctual
  exact ⟨_, log, hcourse, hpolls, hk, htime, hkeys 1 hk⟩

end World

end NetHost.Icmp
