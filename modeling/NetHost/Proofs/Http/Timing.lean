import Mathlib.Algebra.BigOperators.Group.Finset.Basic
import Mathlib.Order.OrderIsoNat
import NetHost.Proofs.Http.Platform

/-!
# Requests and their deadlines

A request knows its deadline when it starts, and every time that it asks for, be it a timeout or a
pause, ends at the deadline at the latest (`Turn.KeepsTo`).  On a platform that takes no more time
than it is asked for, the request is over by its deadline (`keeps_deadline`), provided that time
goes by (`Passes`).  A platform can keep a request busy for ever at one instant (`busy_for_ever`):
by having nothing to receive, if the client makes no pauses, or by an endless response.
-/

namespace NetHost

namespace Deadline

theorem toNat_after (now : Instant) (timeout : UInt32) :
    (after now timeout).expiresAt.toNat = min (now.toNat + timeout.toNat) (2 ^ 64 - 1) := by
  rw [after, Saturating.toNat_add64, UInt32.toNat_toUInt64]
  rfl

theorem le_after (now : Instant) (timeout : UInt32) : now ≤ (after now timeout).expiresAt := by
  have := now.toNat_lt
  rw [UInt64.le_iff_toNat_le, toNat_after]
  omega

theorem toNat_remaining (d : Deadline) (now : Instant) :
    (d.remaining now).toNat = min (d.expiresAt.toNat - now.toNat) (2 ^ 32 - 1) := by
  rw [remaining, Saturating.toNat_clamp32, Saturating.toNat_sub64]
  rfl

/-- From its start on, the time to a deadline fits the width of a timeout. -/
theorem toNat_remaining_after {start now : Instant} (timeout : UInt32) (h : start ≤ now) :
    ((after start timeout).remaining now).toNat =
      (after start timeout).expiresAt.toNat - now.toNat := by
  have htimeout := timeout.toNat_lt
  rw [UInt64.le_iff_toNat_le] at h
  rw [toNat_remaining, toNat_after]
  omega

end Deadline

namespace Http

variable {config : Config} {d : Deadline} {now : Instant}

/-- How long a turn pauses. -/
def Turn.pause : Turn → Nat
  | .sleep ms _ _ => ms.toNat
  | _ => 0

/-- A turn at `now`, in an exchange with the deadline `d`, asks for the time that is left.  If it is
a pause, it asks for no more of it than the poll interval. -/
def Turn.KeepsTo (config : Config) (d : Deadline) (now : Instant) : Turn → Prop
  | .connect _ _ timeout x _ => x.config = config ∧ x.deadline = d ∧ timeout = d.remaining now
  | .send _ x => x.config = config ∧ x.deadline = d
  | .receive _ timeout x _ =>
    x.config = config ∧ x.deadline = d ∧ timeout = d.remaining now ∧ now < d.expiresAt
  | .sleep ms x _ =>
    x.config = config ∧ x.deadline = d ∧ ms = min config.pollInterval (d.remaining now)
  | .close _ _ => True
  | .finish _ _ => True

theorem Turn.KeepsTo.pause_le {turn : Turn} (h : turn.KeepsTo config d now) :
    turn.pause ≤ d.expiresAt.toNat - now.toNat := by
  cases turn with
  | sleep ms x reader =>
    obtain ⟨-, -, rfl⟩ := h
    rw [pause, Saturating.toNat_min32, Deadline.toNat_remaining]
    omega
  | connect | send | receive | close | finish => exact Nat.zero_le _

theorem Turn.KeepsTo.add_pause_lt {turn : Turn} (h : turn.KeepsTo config d now) :
    now.toNat + turn.pause < 2 ^ 64 := by
  have hpause := h.pause_le
  have hnow := now.toNat_lt
  have hexpires := d.expiresAt.toNat_lt
  omega

theorem Exchange.keepsTo_await (x : Exchange) (reader : Reader) (now : Instant) :
    (x.await reader now).KeepsTo x.config x.deadline now := by
  rcases x.await_cases reader now with ⟨hclose, -⟩ | ⟨hreceive, hnow⟩
  · rw [hclose]
    trivial
  · rw [hreceive]
    exact ⟨rfl, rfl, rfl, hnow⟩

theorem Exchange.keepsTo_sent (x : Exchange) (wire : Bytes) (answer : Except Fault Nat)
    (now : Instant) : (x.sent wire answer now).KeepsTo x.config x.deadline now := by
  rcases x.sent_cases wire answer now with ⟨x', result, hclose⟩ | ⟨-, hawait⟩
  · rw [hclose]
    trivial
  · rw [hawait]
    exact x.keepsTo_await _ now

theorem Exchange.keepsTo_received (x : Exchange) (reader : Reader) (answer : Except Fault Bytes)
    (now : Instant) : (x.received reader answer now).KeepsTo x.config x.deadline now := by
  rcases x.received_cases reader answer now with
    ⟨x', result, hclose⟩ | ⟨piece, -, -, -, hawait⟩ | ⟨-, hsleep⟩
  · rw [hclose]
    trivial
  · rw [hawait]
    exact x.keepsTo_await _ now
  · rw [hsleep]
    exact ⟨rfl, rfl, rfl⟩

theorem Client.keepsTo_start (c : Client) (request : Request) (now : Instant) :
    (c.start request now).KeepsTo c.config (c.deadline request now) now := by
  cases hresolve : request.resolve with
  | error e =>
    obtain ⟨e, hstart⟩ := c.exists_start_eq_finish (.inr ⟨e, hresolve⟩) now
    rw [hstart]
    trivial
  | ok r =>
    cases hready : c.ready with
    | false =>
      obtain ⟨e, hstart⟩ := c.exists_start_eq_finish (.inl hready) now
      rw [hstart]
      trivial
    | true =>
      obtain ⟨journal, hstart⟩ := start_of_resolve hready hresolve now
      obtain ⟨target, rfl⟩ := Request.exists_target_of_resolve hresolve
      rw [hstart]
      exact ⟨rfl, rfl, rfl⟩

def Turn.Receives (turn : Turn) : Prop :=
  ∃ room timeout x reader, turn = .receive room timeout x reader

theorem Exchange.received_of_more {x : Exchange} {reader : Reader} {piece : Bytes} {now : Instant}
    (hpiece : piece ≠ []) (hmore : (reader.feed piece).progress = .ok .more) :
    x.received reader (.ok piece) now = x.await (reader.feed piece) now := by
  cases piece with
  | nil => exact absurd rfl hpiece
  | cons b s => simp only [received, hmore]

/-- How many turns come before the first round of receiving, at most. -/
def Turn.untilRound : Turn → Nat
  | .connect .. => 2
  | .send .. => 1
  | _ => 0

theorem Turn.untilRound_le (turn : Turn) : turn.untilRound ≤ 2 := by
  cases turn <;> simp [untilRound]

theorem Exchange.untilRound_await (x : Exchange) (reader : Reader) (now : Instant) :
    (x.await reader now).untilRound = 0 := by
  rcases x.await_cases reader now with ⟨h, -⟩ | ⟨h, -⟩ <;> rw [h] <;> rfl

theorem Exchange.untilRound_sent (x : Exchange) (wire : Bytes) (answer : Except Fault Nat)
    (now : Instant) : (x.sent wire answer now).untilRound = 0 := by
  rcases x.sent_cases wire answer now with ⟨x', result, h⟩ | ⟨-, h⟩
  · rw [h]
    rfl
  · rw [h, untilRound_await]

theorem Exchange.untilRound_received (x : Exchange) (reader : Reader)
    (answer : Except Fault Bytes) (now : Instant) :
    (x.received reader answer now).untilRound = 0 := by
  rcases x.received_cases reader answer now with
    ⟨x', result, h⟩ | ⟨piece, -, -, -, h⟩ | ⟨-, h⟩
  · rw [h]
    rfl
  · rw [h, untilRound_await]
  · rw [h]
    rfl

namespace Platform

variable {σ : Type} {P : Platform σ} {w : World σ}

/-- No action ends before it began. -/
structure Monotonic (P : Platform σ) : Prop where
  connect : ∀ env host port timeout, P.now env ≤ P.now (P.connect env host port timeout).2
  send : ∀ env wire, P.now env ≤ P.now (P.send env wire).2
  receive : ∀ env room timeout, P.now env ≤ P.now (P.receive env room timeout).2
  sleep : ∀ env ms, P.now env ≤ P.now (P.sleep env ms)
  close : ∀ env, P.now env ≤ P.now (P.close env)

/-- Connecting and receiving take no longer than they may, sending takes no time, and pauses are
as long as was asked for, as far as the clock goes. -/
structure Prompt (P : Platform σ) : Prop where
  connect : ∀ env host port timeout,
    (P.now (P.connect env host port timeout).2).toNat ≤ (P.now env).toNat + timeout.toNat
  send : ∀ env wire, P.now (P.send env wire).2 = P.now env
  receive : ∀ env room timeout,
    (P.now (P.receive env room timeout).2).toNat ≤ (P.now env).toNat + timeout.toNat
  sleep : ∀ env ms, (P.now env).toNat + ms.toNat < 2 ^ 64 →
    (P.now (P.sleep env ms)).toNat = (P.now env).toNat + ms.toNat

/-! ## One turn -/

theorem Monotonic.now_le (h : P.Monotonic) (w : World σ) :
    P.now w.env ≤ P.now (P.step w).env := by
  cases hturn : w.turn with
  | connect host port timeout x wire =>
    rw [step_eq_of_connect hturn]
    exact h.connect w.env host port timeout
  | send wire x =>
    rw [step_eq_of_send hturn]
    exact h.send w.env wire
  | receive room timeout x reader =>
    rw [step_eq_of_receive hturn]
    exact h.receive w.env room timeout
  | sleep ms x reader =>
    rw [step_eq_of_sleep hturn]
    exact h.sleep w.env ms
  | close x result =>
    rw [step_eq_of_close hturn]
    exact h.close w.env
  | finish result journal =>
    rw [step_of_finished ⟨result, journal, hturn⟩]
    exact UInt64.le_refl _

/-- The times of the next turn are measured by the clock as it reads then. -/
theorem keepsTo_step (h : w.turn.KeepsTo config d (P.now w.env)) :
    (P.step w).turn.KeepsTo config d (P.now (P.step w).env) := by
  cases hturn : w.turn with
  | connect host port timeout x wire =>
    rw [hturn] at h
    rw [step_eq_of_connect hturn]
    cases (P.connect w.env host port timeout).1 with
    | error fault => trivial
    | ok => exact ⟨h.1, h.2.1⟩
  | send wire x =>
    rw [hturn] at h
    obtain ⟨rfl, rfl⟩ := h
    rw [step_eq_of_send hturn]
    exact x.keepsTo_sent _ _ _
  | receive room timeout x reader =>
    rw [hturn] at h
    obtain ⟨rfl, rfl, -⟩ := h
    rw [step_eq_of_receive hturn]
    exact x.keepsTo_received _ _ _
  | sleep ms x reader =>
    rw [hturn] at h
    obtain ⟨rfl, rfl, -⟩ := h
    rw [step_eq_of_sleep hturn]
    exact x.keepsTo_await _ _
  | close x result =>
    rw [step_eq_of_close hturn]
    trivial
  | finish result journal => rwa [step_of_finished ⟨result, journal, hturn⟩]

theorem untilRound_step (w : World σ) : (P.step w).turn.untilRound ≤ w.turn.untilRound - 1 := by
  cases hturn : w.turn with
  | connect host port timeout x wire =>
    rw [step_eq_of_connect hturn]
    cases (P.connect w.env host port timeout).1 with
    | error fault => exact Nat.zero_le _
    | ok => exact Nat.le_refl _
  | send wire x =>
    rw [step_eq_of_send hturn]
    exact Nat.le_of_eq (x.untilRound_sent _ _ _)
  | receive room timeout x reader =>
    rw [step_eq_of_receive hturn]
    exact Nat.le_of_eq (x.untilRound_received _ _ _)
  | sleep ms x reader =>
    rw [step_eq_of_sleep hturn]
    exact Nat.le_of_eq (x.untilRound_await _ _)
  | close x result =>
    rw [step_eq_of_close hturn]
    exact Nat.le_refl _
  | finish result journal =>
    rw [step_of_finished ⟨result, journal, hturn⟩, hturn]
    exact Nat.le_refl _

theorem now_step_le (hprompt : P.Prompt) (hkeeps : w.turn.KeepsTo config d (P.now w.env))
    (hnow : (P.now w.env).toNat ≤ d.expiresAt.toNat)
    (hclose : ∀ x result, w.turn = .close x result → P.now (P.close w.env) = P.now w.env) :
    (P.now (P.step w).env).toNat ≤ d.expiresAt.toNat := by
  have hremaining := d.toNat_remaining (P.now w.env)
  cases hturn : w.turn with
  | connect host port timeout x wire =>
    rw [hturn] at hkeeps
    obtain ⟨-, -, rfl⟩ := hkeeps
    have := hprompt.connect w.env host port (d.remaining (P.now w.env))
    rw [step_eq_of_connect hturn]
    dsimp only
    omega
  | send wire x =>
    rw [step_eq_of_send hturn, hprompt.send]
    exact hnow
  | receive room timeout x reader =>
    rw [hturn] at hkeeps
    obtain ⟨-, -, rfl, -⟩ := hkeeps
    have := hprompt.receive w.env room (d.remaining (P.now w.env))
    rw [step_eq_of_receive hturn]
    dsimp only
    omega
  | sleep ms x reader =>
    rw [hturn] at hkeeps
    have hpause : ms.toNat ≤ _ := hkeeps.pause_le
    have := hprompt.sleep w.env ms hkeeps.add_pause_lt
    rw [step_eq_of_sleep hturn]
    dsimp only
    omega
  | close x result =>
    rw [step_eq_of_close hturn, hclose x result hturn]
    exact hnow
  | finish result journal =>
    rw [step_of_finished ⟨result, journal, hturn⟩]
    exact hnow

/-- A pause passes on the clock, and no turn takes the clock back. -/
theorem add_pause_le_now_step (hmono : P.Monotonic) (hprompt : P.Prompt)
    (hkeeps : w.turn.KeepsTo config d (P.now w.env)) :
    (P.now w.env).toNat + w.turn.pause ≤ (P.now (P.step w).env).toNat := by
  cases hturn : w.turn with
  | sleep ms x reader =>
    rw [hturn] at hkeeps
    rw [step_eq_of_sleep hturn]
    exact Nat.le_of_eq (hprompt.sleep w.env ms hkeeps.add_pause_lt).symm
  | connect | send | receive | close | finish =>
    exact UInt64.le_iff_toNat_le.1 (hmono.now_le w)

/-! ## All turns -/

/-- The pauses since `start` add up to `slept` so far.  They have passed on the clock and end before
the deadline, and so does all else until the request returns. -/
structure OnTime (P : Platform σ) (d : Deadline) (start slept : Nat) (w : World σ) : Prop where
  slept_le_now : start + slept ≤ (P.now w.env).toNat
  slept_le : start + slept ≤ d.expiresAt.toNat
  now_le : ¬ w.Finished → (P.now w.env).toNat ≤ d.expiresAt.toNat

theorem OnTime.step {start slept : Nat} (hmono : P.Monotonic) (hprompt : P.Prompt)
    (hkeeps : w.turn.KeepsTo config d (P.now w.env)) (h : P.OnTime d start slept w) :
    P.OnTime d start (slept + w.turn.pause) (P.step w) := by
  by_cases hfinished : w.Finished
  · have hpause : w.turn.pause = 0 := by
      obtain ⟨result, journal, hturn⟩ := hfinished
      rw [hturn]
      rfl
    rw [step_of_finished hfinished, hpause]
    exact h
  · have hnow := h.now_le hfinished
    have hslept := h.slept_le_now
    have hpause := hkeeps.pause_le
    have hpassed := add_pause_le_now_step hmono hprompt hkeeps
    exact ⟨by omega, by omega, fun hopen => now_step_le hprompt hkeeps hnow
      fun x result hclose => absurd (finished_step_of_close hclose) hopen⟩

theorem keepsTo_iterate (h : w.turn.KeepsTo config d (P.now w.env)) (n : Nat) :
    (P.step^[n] w).turn.KeepsTo config d (P.now (P.step^[n] w).env) := by
  induction n with
  | zero => exact h
  | succ n ih =>
    rw [Function.iterate_succ_apply']
    exact keepsTo_step ih

theorem untilRound_iterate (w : World σ) (n : Nat) :
    (P.step^[n] w).turn.untilRound ≤ w.turn.untilRound - n := by
  induction n with
  | zero => exact Nat.le_refl _
  | succ n ih =>
    rw [Function.iterate_succ_apply']
    exact Nat.le_trans (untilRound_step _) (by omega)

/-- A connection is opened at the very start if at all. -/
theorem eq_zero_of_connect {n : Nat} {host : Bytes} {port : UInt16} {timeout : UInt32}
    {x : Exchange} {wire : Bytes}
    (h : (P.step^[n] w).turn = .connect host port timeout x wire) : n = 0 := by
  have hle := untilRound_iterate (P := P) w n
  have hstart := w.turn.untilRound_le
  rw [h, Turn.untilRound] at hle
  omega

theorem monotone_now (hmono : P.Monotonic) (w : World σ) :
    Monotone fun n => (P.now (P.step^[n] w).env).toNat := by
  refine monotone_nat_of_le_succ fun n => ?_
  rw [Function.iterate_succ_apply']
  exact UInt64.le_iff_toNat_le.1 (hmono.now_le _)

theorem onTime_iterate (hmono : P.Monotonic) (hprompt : P.Prompt)
    (hkeeps : w.turn.KeepsTo config d (P.now w.env))
    (hnow : (P.now w.env).toNat ≤ d.expiresAt.toNat) (n : Nat) :
    P.OnTime d (P.now w.env).toNat (∑ k ∈ Finset.range n, (P.step^[k] w).turn.pause)
      (P.step^[n] w) := by
  induction n with
  | zero => exact ⟨Nat.le_refl _, hnow, fun _ => hnow⟩
  | succ n ih =>
    rw [Function.iterate_succ_apply', Finset.sum_range_succ]
    exact ih.step hmono hprompt (keepsTo_iterate hkeeps n)

theorem now_iterate_le (hprompt : P.Prompt) (hkeeps : w.turn.KeepsTo config d (P.now w.env))
    (hnow : (P.now w.env).toNat ≤ d.expiresAt.toNat)
    (hclose : ∀ env, P.now (P.close env) = P.now env) (n : Nat) :
    (P.now (P.step^[n] w).env).toNat ≤ d.expiresAt.toNat := by
  induction n with
  | zero => exact hnow
  | succ n ih =>
    rw [Function.iterate_succ_apply']
    exact now_step_le hprompt (keepsTo_iterate hkeeps n) ih fun _ _ _ => hclose _

/-! ## Coming to an end -/

/-- From the first of these states on, the platform hands over bytes for ever at one instant. -/
def Floods (P : Platform σ) (envs : Nat → σ) : Prop :=
  ∀ n, P.now (envs n) = P.now (envs 0) ∧ ∃ room timeout piece,
    P.receive (envs n) room timeout = (.ok piece, envs (n + 1)) ∧ piece ≠ []

/-- Time goes by while there is nothing to receive, in the pauses of the client or before the
platform says so, and the platform does not hand over bytes for ever at one instant. -/
structure Passes (P : Platform σ) (config : Config) : Prop where
  waiting : config.pollInterval ≠ 0 ∨ ∀ env room timeout,
    (P.receive env room timeout).1 = .error .wouldBlock →
      P.now (P.receive env room timeout).2 ≠ P.now env
  bytes : ∀ envs, ¬ P.Floods envs

/-- The request goes on for ever, and the clock stands still. -/
def Stalls (P : Platform σ) (w : World σ) : Prop :=
  ∀ n, ¬ (P.step^[n] w).Finished ∧ P.now (P.step^[n] w).env = P.now w.env

theorem Stalls.iterate (h : P.Stalls w) (n : Nat) : P.Stalls (P.step^[n] w) := by
  intro m
  rw [← Function.iterate_add_apply, (h n).2]
  exact h (m + n)

/-- The range of the clock is bounded, so a request that never returns has it stand still. -/
theorem finished_or_stalls (hmono : P.Monotonic) (w : World σ) :
    (∃ n, (P.step^[n] w).Finished) ∨ ∃ n, P.Stalls (P.step^[n] w) := by
  by_cases hfinished : ∃ n, (P.step^[n] w).Finished
  · exact .inl hfinished
  · right
    obtain ⟨n, hn⟩ := WellFoundedLT.antitone_chain_condition
      (fun i j hij => Nat.sub_le_sub_left (monotone_now hmono w hij) (2 ^ 64) :
        Antitone fun n => 2 ^ 64 - (P.now (P.step^[n] w).env).toNat)
    refine ⟨n, fun m => ?_⟩
    rw [← Function.iterate_add_apply]
    refine ⟨fun h => hfinished ⟨_, h⟩, UInt64.toNat_inj.1 ?_⟩
    have hsame := hn (m + n) (Nat.le_add_left n m)
    dsimp only at hsame
    have hlt := (P.now (P.step^[n] w).env).toNat_lt
    have hlt' := (P.now (P.step^[m + n] w).env).toNat_lt
    omega

/-- A pause that takes no time is the last one, unless pauses take none at all. -/
theorem Stalls.turn_ne_sleep (h : P.Stalls w) (hprompt : P.Prompt)
    (hkeeps : w.turn.KeepsTo config d (P.now w.env)) (hpoll : config.pollInterval ≠ 0)
    (ms : UInt32) (x : Exchange) (reader : Reader) : w.turn ≠ .sleep ms x reader := by
  intro hturn
  rw [hturn] at hkeeps
  have hslept := hprompt.sleep w.env ms hkeeps.add_pause_lt
  obtain ⟨-, rfl, hms⟩ := hkeeps
  have hnow : P.now (P.sleep w.env ms) = P.now w.env := by
    have hsame : P.now (P.step w).env = P.now w.env := (h 1).2
    rwa [step_eq_of_sleep hturn] at hsame
  have hzero : ms.toNat = 0 := by
    rw [hnow] at hslept
    omega
  have hexpired : x.deadline.expiresAt ≤ P.now w.env := by
    have hpos : 0 < config.pollInterval.toNat :=
      Nat.pos_of_ne_zero fun h0 => hpoll (UInt32.toNat_inj.1 h0)
    rw [hms, Saturating.toNat_min32, Deadline.toNat_remaining] at hzero
    exact UInt64.le_iff_toNat_le.2 (by omega)
  -- With no time left the connection is closed, and then the request has returned.
  have hclose : (P.step w).turn = .close x (.error .timedOut) := by
    rw [step_eq_of_sleep hturn]
    rcases x.await_cases reader (P.now (P.sleep w.env ms)) with ⟨hawait, -⟩ | ⟨-, hleft⟩
    · exact hawait
    · rw [hnow] at hleft
      exact absurd hleft (UInt64.not_lt.2 hexpired)
  exact (h 2).1 (finished_step_of_close hclose)

theorem Stalls.turn_ne_close (h : P.Stalls w) (x : Exchange) (result : Except Error Response) :
    w.turn ≠ .close x result :=
  fun hturn => (h 1).1 (finished_step_of_close hturn)

theorem Stalls.turn_ne_finish (h : P.Stalls w) (result : Except Error Response)
    (journal : List Note) : w.turn ≠ .finish result journal :=
  fun hturn => (h 0).1 ⟨result, journal, hturn⟩

/-- Where time goes by while there is nothing to receive, what keeps a request busy is bytes. -/
theorem Stalls.receives (h : P.Stalls w) (hprompt : P.Prompt) (hpasses : P.Passes config)
    (hkeeps : w.turn.KeepsTo config d (P.now w.env)) (hreceiving : w.turn.Receives) :
    (P.step w).turn.Receives ∧ ∃ room timeout piece,
      P.receive w.env room timeout = (.ok piece, (P.step w).env) ∧ piece ≠ [] := by
  obtain ⟨room, timeout, x, reader, hturn⟩ := hreceiving
  have hstep := step_eq_of_receive (P := P) hturn
  have hnext : (P.step w).turn = _ := congrArg World.turn hstep
  have hlater : (P.step w).env = _ := congrArg World.env hstep
  rcases x.received_cases reader (P.receive w.env room timeout).1
    (P.now (P.receive w.env room timeout).2) with
    ⟨x', result, hclose⟩ | ⟨piece, hanswer, hpiece, -, hawait⟩ | ⟨hanswer, hsleep⟩
  · exact absurd (hnext.trans hclose) ((h.iterate 1).turn_ne_close x' result)
  · refine ⟨?_, room, timeout, piece, Prod.ext hanswer hlater.symm, hpiece⟩
    rcases x.await_cases (reader.feed piece) (P.now (P.receive w.env room timeout).2) with
      ⟨hclose, -⟩ | ⟨hreceive, -⟩
    · exact absurd (hnext.trans (hawait.trans hclose)) ((h.iterate 1).turn_ne_close x _)
    · exact ⟨_, _, _, _, hnext.trans (hawait.trans hreceive)⟩
  · rcases hpasses.waiting with hpoll | htakes
    · exact absurd (hnext.trans hsleep)
        ((h.iterate 1).turn_ne_sleep hprompt (keepsTo_step hkeeps) hpoll _ x reader)
    · have hsame : P.now (P.step w).env = P.now w.env := (h 1).2
      rw [hlater] at hsame
      exact absurd hsame (htakes w.env room timeout hanswer)

/-- A request that has been sent receives, now or after the pause that it is in. -/
theorem Stalls.exists_receives (h : P.Stalls w) (hround : w.turn.untilRound = 0) :
    ∃ n, (P.step^[n] w).turn.Receives := by
  cases hturn : w.turn with
  | receive room timeout x reader => exact ⟨0, room, timeout, x, reader, hturn⟩
  | sleep ms x reader =>
    have hnext : (P.step w).turn = _ := congrArg World.turn (step_eq_of_sleep hturn)
    rcases x.await_cases reader (P.now (P.sleep w.env ms)) with ⟨hclose, -⟩ | ⟨hreceive, -⟩
    · exact absurd (hnext.trans hclose) ((h.iterate 1).turn_ne_close x _)
    · exact ⟨1, _, _, _, _, hnext.trans hreceive⟩
  | close x result => exact absurd hturn (h.turn_ne_close x result)
  | finish result journal => exact absurd hturn (h.turn_ne_finish result journal)
  | connect | send =>
    rw [hturn] at hround
    cases hround

theorem Stalls.floods (h : P.Stalls w) (hprompt : P.Prompt) (hpasses : P.Passes config)
    (hkeeps : w.turn.KeepsTo config d (P.now w.env)) (hreceiving : w.turn.Receives) :
    P.Floods fun n => (P.step^[n] w).env := by
  have hreceives (n) : (P.step^[n] w).turn.Receives := by
    induction n with
    | zero => exact hreceiving
    | succ n ih =>
      rw [Function.iterate_succ_apply']
      exact ((h.iterate n).receives hprompt hpasses (keepsTo_iterate hkeeps n) ih).1
  intro n
  have hbytes := ((h.iterate n).receives hprompt hpasses (keepsTo_iterate hkeeps n)
    (hreceives n)).2
  rw [← Function.iterate_succ_apply' P.step n w] at hbytes
  exact ⟨(h n).2, hbytes⟩

/-- On a prompt platform where time goes by, a request returns. -/
theorem exists_finished (hmono : P.Monotonic) (hprompt : P.Prompt) (hpasses : P.Passes config)
    (hkeeps : w.turn.KeepsTo config d (P.now w.env)) : ∃ n, (P.step^[n] w).Finished := by
  rcases finished_or_stalls hmono w with hfinished | ⟨n, hstalls⟩
  · exact hfinished
  · -- Two turns on, connecting and sending are over.
    have hround : (P.step^[2] (P.step^[n] w)).turn.untilRound = 0 := by
      have hle := untilRound_iterate (P := P) (P.step^[n] w) 2
      have hstart := (P.step^[n] w).turn.untilRound_le
      omega
    obtain ⟨m, hreceives⟩ := (hstalls.iterate 2).exists_receives hround
    have hkeeps' := keepsTo_iterate (keepsTo_iterate (keepsTo_iterate hkeeps n) 2) m
    exact absurd (((hstalls.iterate 2).iterate m).floods hprompt hpasses hkeeps' hreceives)
      (hpasses.bytes _)

/-- Connecting, each round of receiving and each pause of a request have the time until its
deadline at most, receiving begins before the deadline, and having nothing yet is followed by a
pause.  On a prompt platform the pauses add up to the timeout at most, and what the request does is
over by its deadline.  If time goes by on it, then the request returns. -/
theorem keeps_deadline (hmono : P.Monotonic) (c : Client) (request : Request) (env : σ) :
    let world n := P.step^[n] (P.start c request env)
    let now n := (P.now (world n).env).toNat
    let timeout := (if request.timeout = 0 then c.config.timeout else request.timeout).toNat
    let expiry := min (now 0 + timeout) (2 ^ 64 - 1)
    (∀ n host port t x wire, (world n).turn = .connect host port t x wire →
      n = 0 ∧ t.toNat = expiry - now 0) ∧
    (∀ n room t x reader, (world n).turn = .receive room t x reader →
      now n < expiry ∧ t.toNat = expiry - now n ∧
      ((P.receive (world n).env room t).1 = .error .wouldBlock →
        ∃ ms, (world (n + 1)).turn = .sleep ms x reader)) ∧
    (∀ n ms x reader, (world n).turn = .sleep ms x reader →
      ms.toNat ≤ min c.config.pollInterval.toNat (expiry - now n)) ∧
    (P.Prompt →
      (∀ n, ∑ k ∈ Finset.range n, (world k).turn.pause ≤ timeout) ∧
      (∀ n, ¬ (world n).Finished → now n ≤ expiry) ∧
      ((∀ env, P.now (P.close env) = P.now env) → ∀ n, now n ≤ expiry) ∧
      (P.Passes c.config → ∃ n, (world n).Finished)) := by
  intro world now timeout expiry
  have hexpiry : (c.deadline request (P.now env)).expiresAt.toNat = expiry :=
    Deadline.toNat_after _ _
  have hstart : (P.now env).toNat ≤ (c.deadline request (P.now env)).expiresAt.toNat :=
    UInt64.le_iff_toNat_le.1 (Deadline.le_after _ _)
  have hkeeps : (P.start c request env).turn.KeepsTo c.config (c.deadline request (P.now env))
      (P.now (P.start c request env).env) :=
    c.keepsTo_start request (P.now env)
  have hkeeps' (n) : (world n).turn.KeepsTo c.config (c.deadline request (P.now env))
      (P.now (world n).env) :=
    keepsTo_iterate hkeeps n
  have hlater (n) : now 0 ≤ now n :=
    monotone_now hmono (P.start c request env) (Nat.zero_le n)
  have hremaining (n) :
      ((c.deadline request (P.now env)).remaining (P.now (world n).env)).toNat =
        expiry - now n := by
    rw [← hexpiry]
    exact Deadline.toNat_remaining_after _ (UInt64.le_iff_toNat_le.2 (hlater n))
  refine ⟨?_, ?_, ?_, ?_⟩
  · intro n host port t x wire hturn
    obtain rfl := eq_zero_of_connect hturn
    have htime := hkeeps' 0
    rw [hturn] at htime
    exact ⟨rfl, by rw [htime.2.2, hremaining]⟩
  · intro n room t x reader hturn
    have htime := hkeeps' n
    rw [hturn] at htime
    obtain ⟨-, -, rfl, hleft⟩ := htime
    refine ⟨?_, hremaining n, fun hanswer => ?_⟩
    · rw [← hexpiry]
      exact UInt64.lt_iff_toNat_lt.1 hleft
    · have hstep : world (n + 1) = P.step (world n) := Function.iterate_succ_apply' _ _ _
      rw [hstep, step_eq_of_receive hturn, hanswer]
      exact ⟨_, rfl⟩
  · intro n ms x reader hturn
    have htime := hkeeps' n
    rw [hturn] at htime
    rw [htime.2.2, Saturating.toNat_min32, hremaining]
  · intro hprompt
    refine ⟨fun n => ?_, fun n hopen => ?_, fun hclose n => ?_,
      fun hpasses => exists_finished hmono hprompt hpasses hkeeps⟩
    · have hslept := (onTime_iterate hmono hprompt hkeeps hstart n).slept_le
      rw [hexpiry] at hslept
      exact Nat.le_of_add_le_add_left (Nat.le_trans hslept (Nat.min_le_left _ _))
    · rw [← hexpiry]
      exact (onTime_iterate hmono hprompt hkeeps hstart n).now_le hopen
    · rw [← hexpiry]
      exact now_iterate_le hprompt hkeeps hstart hclose n

/-- The platform whose states are instants and that never has anything to receive.  Connecting
takes three milliseconds and asking in vain takes one, if there is time. -/
def silent : Platform Instant where
  now env := env
  connect env _ _ timeout := (.ok (), (Deadline.after env (min 3 timeout)).expiresAt)
  send env wire := (.ok wire.length, env)
  receive env _ timeout := (.error .wouldBlock, (Deadline.after env (min 1 timeout)).expiresAt)
  sleep env ms := (Deadline.after env ms).expiresAt
  close env := env

theorem monotonic_silent : silent.Monotonic where
  connect env _ _ timeout := Deadline.le_after env (min 3 timeout)
  send env _ := UInt64.le_refl env
  receive env _ timeout := Deadline.le_after env (min 1 timeout)
  sleep env ms := Deadline.le_after env ms
  close env := UInt64.le_refl env

theorem prompt_silent : silent.Prompt where
  connect env _ _ timeout := by
    have hmin := Saturating.toNat_min32 3 timeout
    have hnow := Deadline.toNat_after env (min 3 timeout)
    simp only [silent]
    omega
  send _ _ := rfl
  receive env _ timeout := by
    have hmin := Saturating.toNat_min32 1 timeout
    have hnow := Deadline.toNat_after env (min 1 timeout)
    simp only [silent]
    omega
  sleep env ms h := by
    have hnow := Deadline.toNat_after env ms
    simp only [silent] at h ⊢
    omega

/-- Pauses pass on this platform. -/
theorem passes_silent {config : Config} (hpoll : config.pollInterval ≠ 0) :
    silent.Passes config where
  waiting := .inl hpoll
  bytes envs hfloods := by
    obtain ⟨-, room, timeout, piece, hreceive, -⟩ := hfloods 0
    cases congrArg Prod.fst hreceive

/-- Without an answer, a request with 27 milliseconds sleeps twice for ten and then for the one that
is left, and ends on time. -/
theorem silent_times_out :
    let c : Client := { config := { timeout := 27 }, ready := true }
    let request : Request := ⟨.get, utf8 "http://h/", ⟨utf8 "h", 80, utf8 "/"⟩, {}, none, 0⟩
    let world n := silent.step^[n] (silent.start c request 1000)
    silent.Monotonic ∧ silent.Prompt ∧ silent.Passes c.config ∧
      (∀ n, ∑ k ∈ Finset.range n, (world k).turn.pause ≤ 27) ∧
      (∀ n, (silent.now (world n).env).toNat ≤ 1027) ∧ (∃ n, (world n).Finished) ∧
      (List.range 9).map (fun k => (world k).turn.pause) = [0, 0, 0, 10, 0, 10, 0, 1, 0] ∧
      (world 9).Finished ∧ silent.now (world 9).env = 1027 := by
  intro c request world
  have hpasses : silent.Passes c.config := passes_silent (by decide)
  obtain ⟨-, -, -, htime⟩ := keeps_deadline monotonic_silent c request 1000
  obtain ⟨hslept, -, hnow, hfinished⟩ := htime prompt_silent
  refine ⟨monotonic_silent, prompt_silent, hpasses, hslept, hnow fun _ => rfl,
    hfinished hpasses, ?_⟩
  decide +kernel

/-! ## Without an end -/

/-- The platform that has nothing to receive and takes no time to say so. -/
def idle : Platform Instant where
  now env := env
  connect env _ _ _ := (.ok (), env)
  send env wire := (.ok wire.length, env)
  receive env _ _ := (.error .wouldBlock, env)
  sleep env ms := (Deadline.after env ms).expiresAt
  close env := env

theorem monotonic_idle : idle.Monotonic where
  connect env _ _ _ := UInt64.le_refl env
  send env _ := UInt64.le_refl env
  receive env _ _ := UInt64.le_refl env
  sleep env ms := Deadline.le_after env ms
  close env := UInt64.le_refl env

theorem prompt_idle : idle.Prompt where
  connect _ _ _ _ := Nat.le_add_right _ _
  send _ _ := rfl
  receive _ _ _ := Nat.le_add_right _ _
  sleep env ms h := by
    have hnow := Deadline.toNat_after env ms
    simp only [idle] at h ⊢
    omega

/-- The start of a response whose body has no chunks, up to where its trailer lines would be. -/
def startOfTrailer : Bytes :=
  utf8 "HTTP/1.1 200 OK\r\nTransfer-Encoding: chunked\r\n\r\n0\r\n"

def trailerLine : Bytes := utf8 "t: u\r\n"

/-- The platform that sends trailer lines for ever, all of it at once.  A state has the time, and
whether the start of the response has been sent. -/
def endless : Platform (Instant × Bool) where
  now env := env.1
  connect env _ _ _ := (.ok (), env)
  send env wire := (.ok wire.length, env)
  receive env _ _ :=
    if env.2 then (.ok trailerLine, env) else (.ok startOfTrailer, (env.1, true))
  sleep env ms := ((Deadline.after env.1 ms).expiresAt, env.2)
  close env := env

theorem now_receive_endless (env : Instant × Bool) (room : Nat) (timeout : UInt32) :
    endless.now (endless.receive env room timeout).2 = endless.now env := by
  simp only [endless]
  split_ifs <;> rfl

theorem monotonic_endless : endless.Monotonic where
  connect env _ _ _ := UInt64.le_refl env.1
  send env _ := UInt64.le_refl env.1
  receive env room timeout := UInt64.le_of_eq (now_receive_endless env room timeout).symm
  sleep env ms := Deadline.le_after env.1 ms
  close env := UInt64.le_refl env.1

theorem prompt_endless : endless.Prompt where
  connect _ _ _ _ := Nat.le_add_right _ _
  send _ _ := rfl
  receive env room timeout := by
    rw [now_receive_endless]
    exact Nat.le_add_right _ _
  sleep env ms h := by
    have hnow := Deadline.toNat_after env.1 ms
    simp only [endless] at h ⊢
    omega

/-- A trailer line leaves nothing behind. -/
theorem feed_trailerLine :
    let reader := (Reader.new true Reader.defaultMaxBody).feed startOfTrailer
    reader.progress = .ok .more ∧ reader.feed trailerLine = reader := by
  decide +kernel

/-- A request that comes to the same point again never returns. -/
theorem not_finished_of_cycle {k p : Nat} (hp : 0 < p)
    (hcycle : P.step^[p] (P.step^[k] w) = P.step^[k] w) (hopen : ¬ (P.step^[k] w).Finished)
    (n : Nat) : ¬ (P.step^[n] w).Finished := by
  intro hfinished
  -- What has returned stays so, also when the request comes to that point for the `n`th time.
  have hstays (m : Nat) : P.step^[m] (P.step^[n] w) = P.step^[n] w :=
    Function.iterate_fixed (step_of_finished hfinished) m
  have hsame : P.step^[p * n + k - n] (P.step^[n] w) = P.step^[k] w := by
    have hle : n ≤ p * n + k := Nat.le_add_right_of_le (Nat.le_mul_of_pos_left n hp)
    rw [← Function.iterate_add_apply, Nat.sub_add_cancel hle, Function.iterate_add_apply,
      Function.iterate_mul, Function.iterate_fixed hcycle]
  rw [hstays] at hsame
  exact hopen (hsame ▸ hfinished)

section

variable {c : Client} {request r : Request} (hready : c.ready) (hresolve : request.resolve = .ok r)
  (hbuffer : max c.config.bufferSize 1 ≤ allocationLimit)

include hready hresolve hbuffer

/-- Where connecting and sending succeed at once, the request is at its first round of receiving. -/
theorem step_step_start (env : σ)
    (hconnect : ∀ host port timeout, P.connect env host port timeout = (.ok (), env))
    (hsend : ∀ wire, P.send env wire = (.ok wire.length, env)) :
    ∃ x : Exchange, x.config = c.config ∧ x.deadline = c.deadline r (P.now env) ∧
      P.step^[2] (P.start c request env) =
        ⟨x.await (.new r.method.expectsBody c.config.maxBody) (P.now env), env⟩ := by
  obtain ⟨journal, hstart⟩ := Client.start_of_resolve hready hresolve (P.now env)
  refine ⟨⟨c.config, r, c.deadline r (P.now env), journal⟩, rfl, rfl, ?_⟩
  have hconnected : P.step (P.start c request env) =
      ⟨.send r.wire ⟨c.config, r, c.deadline r (P.now env), journal⟩, env⟩ := by
    rw [start, hstart, step_eq_of_connect rfl, hconnect]
    rfl
  show P.step (P.step (P.start c request env)) = _
  rw [hconnected, step_eq_of_send rfl, hsend, Exchange.sent]
  simp only [ne_eq, not_true_eq_false, if_false, if_neg (Nat.not_lt.2 hbuffer)]

/-- Without pauses a request asks again and again as long as there is nothing. -/
theorem not_finished_idle (hpoll : c.config.pollInterval = 0) {now : Instant}
    (htime : now < (c.deadline r now).expiresAt) (n : Nat) :
    ¬ (idle.step^[n] (idle.start c request now)).Finished := by
  obtain ⟨x, hconfig, hdeadline, hround⟩ := step_step_start (P := idle) hready hresolve
    hbuffer now (fun _ _ _ => rfl) (fun _ => rfl)
  generalize Reader.new r.method.expectsBody c.config.maxBody = reader at hround
  have hreceive : x.await reader now = .receive _ _ x reader :=
    Exchange.await_of_lt (hdeadline ▸ htime) reader
  generalize hms : min x.config.pollInterval (x.deadline.remaining now) = ms
  have hzero : ms.toNat = 0 := by
    rw [← hms, Saturating.toNat_min32, hconfig, hpoll]
    exact Nat.zero_min _
  have hslept : idle.sleep now ms = now := by
    rw [← UInt64.toNat_inj]
    exact (prompt_idle.sleep now ms (hzero ▸ now.toNat_lt)).trans (by rw [hzero]; rfl)
  have hpause : idle.step ⟨x.await reader now, now⟩ = ⟨.sleep ms x reader, now⟩ := by
    rw [step_eq_of_receive hreceive, ← hms]
    rfl
  have hagain : idle.step ⟨.sleep ms x reader, now⟩ = ⟨x.await reader now, now⟩ := by
    rw [step_eq_of_sleep rfl, hslept]
    rfl
  refine not_finished_of_cycle (k := 2) (p := 2) (by decide) ?_ ?_ n
  · rw [hround]
    exact (congrArg idle.step hpause).trans hagain
  · rw [hround]
    rintro ⟨result, journal, hturn⟩
    cases hreceive.symm.trans hturn

/-- A request takes in trailer lines as long as they come. -/
theorem not_finished_endless (hbody : r.method.expectsBody)
    (hmaxBody : c.config.maxBody = Reader.defaultMaxBody) {now : Instant}
    (htime : now < (c.deadline r now).expiresAt) (n : Nat) :
    ¬ (endless.step^[n] (endless.start c request (now, false))).Finished := by
  obtain ⟨x, -, hdeadline, hround⟩ := step_step_start (P := endless) hready hresolve
    hbuffer (now, false) (fun _ _ _ => rfl) (fun _ => rfl)
  rw [hbody, hmaxBody] at hround
  have hreceive (reader : Reader) : x.await reader now = .receive _ _ x reader :=
    Exchange.await_of_lt (hdeadline ▸ htime) reader
  obtain ⟨hmore, hsame⟩ := feed_trailerLine
  have hstarted : endless.step ⟨x.await (.new true Reader.defaultMaxBody) now, (now, false)⟩ =
      ⟨x.await ((Reader.new true Reader.defaultMaxBody).feed startOfTrailer) now, (now, true)⟩ := by
    rw [step_eq_of_receive (hreceive _)]
    exact congrArg (World.mk · (now, true)) (Exchange.received_of_more (by decide) hmore)
  generalize (Reader.new true Reader.defaultMaxBody).feed startOfTrailer = reader at *
  have hagain : endless.step ⟨x.await reader now, (now, true)⟩ =
      ⟨x.await reader now, (now, true)⟩ := by
    have hmore' : (reader.feed trailerLine).progress = .ok .more := hsame.symm ▸ hmore
    have hreceived : x.received reader (.ok trailerLine) now = x.await reader now :=
      (Exchange.received_of_more (by decide) hmore').trans (by rw [hsame])
    rw [step_eq_of_receive (hreceive _)]
    exact congrArg (World.mk · (now, true)) hreceived
  have hthird : endless.step^[3] (endless.start c request (now, false)) =
      ⟨x.await reader now, (now, true)⟩ :=
    (Function.iterate_succ_apply' _ 2 _).trans ((congrArg _ hround).trans hstarted)
  refine not_finished_of_cycle (k := 3) (p := 1) (by decide) ?_ ?_ n
  · rw [hthird]
    exact hagain
  · rw [hthird]
    rintro ⟨result, journal, hturn⟩
    cases (hreceive reader).symm.trans hturn

end

/-- A request without pauses asks again and again while there is nothing, and any request takes in
trailer lines as long as they come.  If no time goes by meanwhile, it never returns. -/
theorem busy_for_ever :
    let request : Request := ⟨.get, utf8 "http://h/", ⟨utf8 "h", 80, utf8 "/"⟩, {}, none, 0⟩
    let hasty : Client := { config := { timeout := 27, pollInterval := 0 }, ready := true }
    let patient : Client := { config := { timeout := 27 }, ready := true }
    (idle.Monotonic ∧ idle.Prompt ∧
      ∀ n, ¬ (idle.step^[n] (idle.start hasty request 1000)).Finished) ∧
    endless.Monotonic ∧ endless.Prompt ∧
      ∀ n, ¬ (endless.step^[n] (endless.start patient request (1000, false))).Finished :=
  ⟨⟨monotonic_idle, prompt_idle,
      not_finished_idle rfl rfl (by decide) rfl (by decide)⟩,
    monotonic_endless, prompt_endless,
    not_finished_endless rfl rfl (by decide) rfl rfl (by decide)⟩

end Platform

end Http

end NetHost
