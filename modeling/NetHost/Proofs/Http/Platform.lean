import Mathlib.Logic.Function.Iterate
import Mathlib.Tactic.Common
import NetHost.Http.Client
import NetHost.Proofs.Http.Writing

/-!
# Requests on a platform

The embedding system as a state machine that answers the actions of an exchange, and the run of a
request on it.

* A run that has ended stays as it is, so that a request returns at most one result
  (`returns_unique`).
* A request that can be resolved connects first (`Client.start_of_resolve`).
* What follows on sending and on receiving: the connection is closed, or there is a next round
  (`Exchange.sent_cases`, `Exchange.received_cases`).
-/

namespace NetHost.Http

/-- An embedding system with states in `σ`: its answers to what an exchange asks for, and what its
clock reads.  What it answers may depend on all that went before. -/
structure Platform (σ : Type) where
  now : σ → Instant
  connect : σ → Bytes → UInt16 → UInt32 → Except Fault Unit × σ
  send : σ → Bytes → Except Fault Nat × σ
  receive : σ → Nat → UInt32 → Except Fault Bytes × σ
  sleep : σ → UInt32 → σ
  close : σ → σ

/-- A request under way on a platform. -/
structure World (σ : Type) where
  turn : Turn
  env : σ

/-- The request has returned. -/
def World.Finished {σ : Type} (w : World σ) : Prop :=
  ∃ result journal, w.turn = .finish result journal

instance {σ : Type} (w : World σ) : Decidable w.Finished :=
  match h : w.turn with
  | .finish result journal => isTrue ⟨result, journal, h⟩
  | .connect .. | .send .. | .receive .. | .sleep .. | .close .. =>
    isFalse fun ⟨_, _, h'⟩ => nomatch h.symm.trans h'

namespace Platform

variable {σ : Type} {P : Platform σ} {w : World σ} {result : Except Error Response}

/-- Takes the action that is due and tells the exchange its outcome. -/
def step (P : Platform σ) (w : World σ) : World σ :=
  match w.turn with
  | .connect host port timeout x wire =>
    let (answer, env) := P.connect w.env host port timeout
    ⟨x.connected wire answer, env⟩
  | .send wire x =>
    let (answer, env) := P.send w.env wire
    ⟨x.sent wire answer (P.now env), env⟩
  | .receive room timeout x reader =>
    let (answer, env) := P.receive w.env room timeout
    ⟨x.received reader answer (P.now env), env⟩
  | .sleep ms x reader =>
    let env := P.sleep w.env ms
    ⟨x.awake reader (P.now env), env⟩
  | .close x result => ⟨x.closed result, P.close w.env⟩
  | .finish _ _ => w

section Turns

variable {host : Bytes} {port : UInt16} {timeout : UInt32} {x : Exchange} {wire : Bytes}
  {room : Nat} {reader : Reader} {ms : UInt32}

theorem step_eq_of_connect (h : w.turn = .connect host port timeout x wire) :
    P.step w = ⟨x.connected wire (P.connect w.env host port timeout).1,
      (P.connect w.env host port timeout).2⟩ := by
  rw [step, h]

theorem step_eq_of_send (h : w.turn = .send wire x) :
    P.step w = ⟨x.sent wire (P.send w.env wire).1 (P.now (P.send w.env wire).2),
      (P.send w.env wire).2⟩ := by
  rw [step, h]

theorem step_eq_of_receive (h : w.turn = .receive room timeout x reader) :
    P.step w = ⟨x.received reader (P.receive w.env room timeout).1
        (P.now (P.receive w.env room timeout).2),
      (P.receive w.env room timeout).2⟩ := by
  rw [step, h]

theorem step_eq_of_sleep (h : w.turn = .sleep ms x reader) :
    P.step w = ⟨x.awake reader (P.now (P.sleep w.env ms)), P.sleep w.env ms⟩ := by
  rw [step, h]

theorem step_eq_of_close (h : w.turn = .close x result) :
    P.step w = ⟨x.closed result, P.close w.env⟩ := by
  rw [step, h]

end Turns

/-- A request of a client, as it starts. -/
def start (P : Platform σ) (c : Client) (request : Request) (env : σ) : World σ :=
  ⟨c.start request (P.now env), env⟩

/-- The request returns `result`. -/
def Returns (P : Platform σ) (w : World σ) (result : Except Error Response) : Prop :=
  ∃ n journal, (P.step^[n] w).turn = .finish result journal

theorem returns_of_finish {journal : List Note} (h : w.turn = .finish result journal) :
    P.Returns w result :=
  ⟨0, journal, h⟩

theorem returns_of_step (h : P.Returns (P.step w) result) : P.Returns w result := by
  obtain ⟨n, journal, h⟩ := h
  exact ⟨n + 1, journal, h⟩

theorem returns_of_close {x : Exchange} (h : w.turn = .close x result) : P.Returns w result := by
  have hfinish : (P.step w).turn = .finish result (x.note (x.ending result)).journal := by
    rw [step_eq_of_close h, Exchange.closed]
  exact returns_of_step (returns_of_finish hfinish)

theorem iterate_step_of_finish {journal : List Note} (h : w.turn = .finish result journal)
    (n : Nat) : P.step^[n] w = w :=
  Function.iterate_fixed (by rw [step, h]) n

theorem step_of_finished (h : w.Finished) : P.step w = w := by
  obtain ⟨result, journal, h⟩ := h
  exact iterate_step_of_finish h 1

theorem finished_step_of_close {x : Exchange} (h : w.turn = .close x result) :
    (P.step w).Finished := by
  rw [step_eq_of_close h]
  exact ⟨_, _, rfl⟩

theorem returns_unique {result' : Except Error Response} (h : P.Returns w result)
    (h' : P.Returns w result') : result = result' := by
  obtain ⟨n, journal, h⟩ := h
  obtain ⟨n', journal', h'⟩ := h'
  have hsame : P.step^[n] w = P.step^[n'] w := by
    rw [← iterate_step_of_finish h n', ← Function.iterate_add_apply, Nat.add_comm,
      Function.iterate_add_apply, iterate_step_of_finish h' n]
  rw [hsame, h'] at h
  cases h
  rfl

/-! ## Rounds of receiving -/

/-- Whether the next step enters a round of receiving: the request has been sent in full, some
bytes of an incomplete response have come, or a pause is over. -/
def EntersRound (P : Platform σ) (w : World σ) : Prop :=
  match w.turn with
  | .send wire x =>
    (P.send w.env wire).1 = .ok wire.length ∧ max x.config.bufferSize 1 ≤ allocationLimit
  | .receive room timeout _ reader =>
    ∃ piece, (P.receive w.env room timeout).1 = .ok piece ∧ piece ≠ [] ∧
      (reader.feed piece).progress = .ok .more
  | .sleep _ _ _ => True
  | _ => False

/-- No round of receiving is entered at `d` or later. -/
def InTime (P : Platform σ) (d : Deadline) (w : World σ) : Prop :=
  ∀ n, P.EntersRound (P.step^[n] w) → P.now (P.step^[n + 1] w).env < d.expiresAt

theorem InTime.step {d : Deadline} (h : P.InTime d w) : P.InTime d (P.step w) :=
  fun n => h (n + 1)

theorem InTime.now_lt {d : Deadline} (h : P.InTime d w) (henters : P.EntersRound w) :
    P.now (P.step w).env < d.expiresAt :=
  h 0 henters

end Platform

theorem Exchange.await_of_lt {x : Exchange} {now : Instant} (h : now < x.deadline.expiresAt)
    (reader : Reader) :
    x.await reader now =
      .receive (max x.config.bufferSize 1) (x.deadline.remaining now) x reader := by
  have hleft : ¬ x.deadline.isExpired now := by
    simpa only [Deadline.isExpired, decide_eq_true_eq, UInt64.not_le] using h
  rw [await, if_neg hleft]

theorem Exchange.await_cases (x : Exchange) (reader : Reader) (now : Instant) :
    x.await reader now = .close x (.error .timedOut) ∧ x.deadline.expiresAt ≤ now ∨
      x.await reader now =
        .receive (max x.config.bufferSize 1) (x.deadline.remaining now) x reader ∧
      now < x.deadline.expiresAt := by
  by_cases h : x.deadline.expiresAt ≤ now
  · have hexpired : x.deadline.isExpired now := decide_eq_true h
    exact .inl ⟨by rw [await, if_pos hexpired], h⟩
  · exact .inr ⟨await_of_lt (UInt64.not_le.1 h) reader, UInt64.not_le.1 h⟩

/-- There is a round of receiving only if the request was accepted in full. -/
theorem Exchange.sent_cases (x : Exchange) (wire : Bytes) (answer : Except Fault Nat)
    (now : Instant) :
    (∃ x' result, x.sent wire answer now = .close x' result) ∨
      answer = .ok wire.length ∧ x.sent wire answer now =
        x.await (.new x.request.method.expectsBody x.config.maxBody) now := by
  unfold sent
  split
  · exact .inl ⟨_, _, rfl⟩
  · split_ifs with hlength
    · exact .inl ⟨_, _, rfl⟩
    · exact .inl ⟨_, _, rfl⟩
    · exact .inr ⟨congrArg _ (not_not.1 hlength), rfl⟩

/-- There is a next round after some bytes of an incomplete response, and after a pause if there
was nothing yet. -/
theorem Exchange.received_cases (x : Exchange) (reader : Reader) (answer : Except Fault Bytes)
    (now : Instant) :
    (∃ x' result, x.received reader answer now = .close x' result) ∨
      (∃ piece, answer = .ok piece ∧ piece ≠ [] ∧ (reader.feed piece).progress = .ok .more ∧
        x.received reader answer now = x.await (reader.feed piece) now) ∨
      answer = .error .wouldBlock ∧ x.received reader answer now =
        .sleep (min x.config.pollInterval (x.deadline.remaining now)) x reader := by
  unfold received
  split
  · dsimp only
    split
    · exact .inl ⟨_, _, rfl⟩
    · exact .inl ⟨_, _, rfl⟩
  · rename_i piece hpiece
    dsimp only
    split
    · exact .inl ⟨_, _, rfl⟩
    · exact .inl ⟨_, _, rfl⟩
    · rename_i hmore
      exact .inr (.inl ⟨piece, rfl, hpiece, hmore, rfl⟩)
  · exact .inr (.inr ⟨rfl, rfl⟩)
  · exact .inl ⟨_, _, rfl⟩

/-- Resolving a request changes nothing but where it goes. -/
theorem Request.exists_target_of_resolve {request r : Request} (h : request.resolve = .ok r) :
    ∃ target, r = { request with target } := by
  unfold resolve at h
  split_ifs at h
  · obtain ⟨target, -, h⟩ := bind_eq_ok_iff.1 h
    cases h
    exact ⟨target, rfl⟩
  · cases h
    exact ⟨request.target, rfl⟩

/-- A request that can be resolved fits the buffer made for it, so it opens a connection. -/
theorem Client.start_of_resolve {c : Client} {request r : Request} (hready : c.ready)
    (hresolve : request.resolve = .ok r) (now : Instant) :
    ∃ journal, c.start request now =
      .connect r.target.host r.target.port ((c.deadline r now).remaining now)
        ⟨c.config, r, c.deadline r now, journal⟩ r.wire := by
  have hlength : (List.replicate r.wireSize (0 : UInt8)).length = r.wire.length := by
    rw [List.length_replicate, r.wireSize_eq]
  have hwrite := Request.writeTo_of_le (Nat.le_of_eq hlength.symm)
  rw [List.drop_of_length_le (Nat.le_of_eq hlength), List.append_nil] at hwrite
  simp only [start, hready, hresolve, hwrite]
  exact ⟨_, rfl⟩

/-- A client that is not ready, or has a request that cannot be resolved, does nothing. -/
theorem Client.exists_start_eq_finish {c : Client} {request : Request}
    (h : c.ready = false ∨ ∃ e, request.resolve = .error e) (now : Instant) :
    ∃ e, c.start request now = .finish (.error e) [] := by
  cases hready : c.ready with
  | false => exact ⟨.notReady, by rw [start, hready]; rfl⟩
  | true =>
    obtain ⟨e, hresolve⟩ := h.resolve_left (by rw [hready]; nofun)
    exact ⟨e, by rw [start, hready, hresolve]; rfl⟩

end NetHost.Http
