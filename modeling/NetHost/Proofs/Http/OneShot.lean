import Mathlib.Tactic.Common
import NetHost.Proofs.Http.Pieces
import NetHost.Proofs.Http.Platform

/-!
# A request and its response as one block of bytes

On a platform that plays a script, a request returns what the reader makes of all the bytes of the
script, read as one block (`returns_iff_eq_readAll`).  Neither the size of the buffer nor the
pieces nor the pauses between them matter.
-/

namespace NetHost.Http

/-! ## Reading all of a response -/

namespace Reader

variable {r : Reader} {s : Bytes}

theorem progress_eq_complete_iff (r : Reader) : r.progress = .ok .complete ↔ r.phase = .done := by
  unfold progress
  cases r.phase <;> simp

theorem feed_of_complete (h : r.progress = .ok .complete) (t : Bytes) : r.feed t = r := by
  have hphase := (progress_eq_complete_iff r).1 h
  have hfailure : r.failure? = none := by rw [failure?, hphase]
  have hlines : ¬ r.inLines := by simp [inLines, hphase]
  rw [feed_of_not_failed hfailure, step_of_not_inLines hlines, readBody, hphase]

theorem readAll_of_error {e : Error} (h : (r.feed s).progress = .error e) (t : Bytes) :
    r.readAll (s ++ t) = .error e := by
  rw [readAll, feed_append, feed_of_progress_error h, h]
  rfl

theorem readAll_of_complete (h : (r.feed s).progress = .ok .complete) (t : Bytes) :
    r.readAll (s ++ t) = .ok (r.feed s).response := by
  rw [readAll, feed_append, feed_of_complete h, h]
  rfl

theorem readAll_of_more (h : (r.feed s).progress = .ok .more) :
    r.readAll s = match (r.feed s).close.progress with
      | .error e => .error e
      | .ok _ => .ok (r.feed s).close.response := by
  rw [readAll, h]
  rcases hclose : (r.feed s).close.progress with e | p
  · simp only [bind, Except.bind, hclose]
  · simp only [bind, Except.bind, hclose]
    rfl

end Reader

/-! ## Scripts -/

/-- What a transport does when it is asked for bytes. -/
inductive Delivery where
  /-- It hands over a piece, as much at a time as there is room for. -/
  | data (piece : Bytes)
  | nothing
  deriving DecidableEq, Repr

namespace Delivery

def bytes : List Delivery → Bytes
  | [] => []
  | data piece :: script => piece ++ bytes script
  | nothing :: script => bytes script

/-- The answer of a script that is asked for at most `room` bytes.  At its end the peer closes. -/
def answer (room : Nat) : List Delivery → Except Fault Bytes
  | [] => .ok []
  | data piece :: _ => .ok (piece.take room)
  | nothing :: _ => .error .wouldBlock

/-- What is left of a script after that answer. -/
def rest (room : Nat) : List Delivery → List Delivery
  | [] => []
  | data piece :: script =>
    if piece.length ≤ room then script else data (piece.drop room) :: script
  | nothing :: script => script

/-- A bound on the number of answers before the end of a script. -/
def turns : List Delivery → Nat
  | [] => 0
  | data piece :: script => piece.length + turns script
  | nothing :: script => 1 + turns script

/-- The pieces of a script have bytes in them. -/
def Solid (script : List Delivery) : Prop := ∀ piece, data piece ∈ script → piece ≠ []

variable {room : Nat} {piece : Bytes} {script : List Delivery}

theorem Solid.rest (h : Solid script) (room : Nat) : Solid (rest room script) := by
  intro p hp
  match script with
  | [] => cases hp
  | nothing :: script => exact h p (List.mem_cons_of_mem _ hp)
  | data piece :: script =>
    simp only [Delivery.rest] at hp
    split_ifs at hp with hroom
    · exact h p (List.mem_cons_of_mem _ hp)
    · rcases List.mem_cons.1 hp with heq | hp
      · cases heq
        rw [ne_eq, List.drop_eq_nil_iff]
        exact hroom
      · exact h p (List.mem_cons_of_mem _ hp)

theorem bytes_rest_data (room : Nat) (piece : Bytes) (script : List Delivery) :
    piece.take room ++ bytes (rest room (data piece :: script)) = piece ++ bytes script := by
  simp only [rest]
  split_ifs with hroom
  · rw [List.take_of_length_le hroom]
  · rw [bytes, ← List.append_assoc, List.take_append_drop]

theorem turns_rest_data (hroom : 0 < room) (hpiece : piece ≠ []) :
    turns (rest room (data piece :: script)) < turns (data piece :: script) := by
  have := List.length_pos_iff.2 hpiece
  simp only [rest]
  split_ifs with hfits
  · simp only [turns]
    omega
  · simp only [turns, List.length_drop]
    omega

end Delivery

namespace Platform

open Delivery

variable {σ : Type} {P : Platform σ} {script : σ → List Delivery} {w : World σ} {d : Deadline}

/-- The platform connects, accepts all it is given to send, and delivers what a script says.
Its clock is free. -/
structure Plays (P : Platform σ) (script : σ → List Delivery) : Prop where
  connect : ∀ env host port timeout, (P.connect env host port timeout).1 = .ok () ∧
    script (P.connect env host port timeout).2 = script env
  send : ∀ env wire, (P.send env wire).1 = .ok wire.length ∧
    script (P.send env wire).2 = script env
  receive : ∀ env room timeout, (P.receive env room timeout).1 = answer room (script env) ∧
    script (P.receive env room timeout).2 = rest room (script env)
  sleep : ∀ env ms, script (P.sleep env ms) = script env

/-- The world is about to ask for bytes, those of `a` having come so far. -/
def Receives (w : World σ) (d : Deadline) (base : Reader) (a : Bytes) : Prop :=
  ∃ timeout x, w.turn = .receive (max x.config.bufferSize 1) timeout x (base.feed a) ∧
    x.deadline = d ∧ (base.feed a).progress = .ok .more

variable {base : Reader} {a : Bytes}

theorem receives_of_await {x : Exchange} (hturn : w.turn = x.await (base.feed a) (P.now w.env))
    (hnow : P.now w.env < x.deadline.expiresAt) (hmore : (base.feed a).progress = .ok .more) :
    Receives w x.deadline base a := by
  rw [Exchange.await_of_lt hnow] at hturn
  exact ⟨_, x, hturn, rfl, hmore⟩

theorem step_of_connect (hplays : P.Plays script) {host : Bytes} {port : UInt16}
    {timeout : UInt32} {x : Exchange} {wire : Bytes}
    (hturn : w.turn = .connect host port timeout x wire) :
    (P.step w).turn = .send wire x ∧ script (P.step w).env = script w.env := by
  obtain ⟨hanswer, hscript⟩ := hplays.connect w.env host port timeout
  simp only [step, hturn, hanswer]
  exact ⟨rfl, hscript⟩

theorem step_of_send (hplays : P.Plays script) {x : Exchange} {wire : Bytes}
    (hturn : w.turn = .send wire x) :
    (P.step w).turn = x.sent wire (.ok wire.length) (P.now (P.step w).env) ∧
      script (P.step w).env = script w.env := by
  obtain ⟨hanswer, hscript⟩ := hplays.send w.env wire
  rw [step, hturn, ← hanswer]
  exact ⟨rfl, hscript⟩

theorem sent_of_room {x : Exchange} (hroom : max x.config.bufferSize 1 ≤ allocationLimit)
    (wire : Bytes) (now : Instant) :
    x.sent wire (.ok wire.length) now =
      x.await (.new x.request.method.expectsBody x.config.maxBody) now := by
  simp only [Exchange.sent, ne_eq, not_true_eq_false, if_false, if_neg (Nat.not_lt.2 hroom)]

/-- The request is sent, and the first round begins. -/
theorem receives_of_send (hplays : P.Plays script) (htime : P.InTime d w) {x : Exchange}
    {wire : Bytes} (hturn : w.turn = .send wire x)
    (hroom : max x.config.bufferSize 1 ≤ allocationLimit) (hd : x.deadline = d) :
    Receives (P.step w) d (.new x.request.method.expectsBody x.config.maxBody) [] ∧
      script (P.step w).env = script w.env := by
  subst hd
  have henters : P.EntersRound w := by
    rw [EntersRound, hturn]
    exact ⟨(hplays.send w.env wire).1, hroom⟩
  obtain ⟨hstep, hscript⟩ := step_of_send hplays hturn
  rw [sent_of_room hroom, ← Reader.feed_new_nil] at hstep
  refine ⟨receives_of_await hstep (htime.now_lt henters) ?_, hscript⟩
  rw [Reader.feed_new_nil]
  rfl

theorem received_of_ne_nil (x : Exchange) (reader : Reader) {piece : Bytes} (hpiece : piece ≠ [])
    (now : Instant) :
    x.received reader (.ok piece) now = match (reader.feed piece).progress with
      | .error e => x.reject e
      | .ok .complete => .close x (.ok (reader.feed piece).response)
      | .ok .more => x.await (reader.feed piece) now := by
  cases piece with
  | nil => exact absurd rfl hpiece
  | cons b piece => rfl

theorem step_of_receive (hplays : P.Plays script) {room : Nat} {timeout : UInt32} {x : Exchange}
    {reader : Reader} (hturn : w.turn = .receive room timeout x reader) :
    (P.step w).turn = x.received reader (answer room (script w.env)) (P.now (P.step w).env) ∧
      script (P.step w).env = rest room (script w.env) := by
  obtain ⟨hanswer, hrest⟩ := hplays.receive w.env room timeout
  rw [step, hturn, ← hanswer]
  exact ⟨rfl, hrest⟩

theorem returns_of_nil (hplays : P.Plays script) (h : Receives w d base a)
    (hscript : script w.env = []) : P.Returns w (base.readAll a) := by
  obtain ⟨timeout, x, hturn, -, hmore⟩ := h
  obtain ⟨hstep, -⟩ := step_of_receive hplays hturn
  rw [hscript] at hstep
  simp only [answer, Exchange.received] at hstep
  rw [Reader.readAll_of_more hmore]
  apply returns_of_step
  cases hclose : (base.feed a).close.progress with
  | error e => exact returns_of_close (by rw [hstep, hclose]; rfl)
  | ok p => exact returns_of_close (by rw [hstep, hclose])

/-- There is nothing yet.  The next round comes after a pause. -/
theorem receives_of_nothing (hplays : P.Plays script) (htime : P.InTime d w)
    (h : Receives w d base a) {later : List Delivery} (hscript : script w.env = nothing :: later) :
    Receives (P.step (P.step w)) d base a ∧ script (P.step (P.step w)).env = later := by
  obtain ⟨timeout, x, hturn, rfl, hmore⟩ := h
  obtain ⟨hstep, hrest⟩ := step_of_receive hplays hturn
  rw [hscript] at hstep hrest
  simp only [answer, Exchange.received] at hstep
  have henters : P.EntersRound (P.step w) := by
    rw [EntersRound, hstep]
    trivial
  refine ⟨receives_of_await ?_ (htime.step.now_lt henters) hmore, ?_⟩
  · rw [step, hstep]
    rfl
  · rw [step, hstep]
    exact (hplays.sleep _ _).trans hrest

/-- Some bytes come.  They decide the result, or there is a next round. -/
theorem returns_or_receives_of_data (hplays : P.Plays script) (htime : P.InTime d w)
    (h : Receives w d base a) {piece : Bytes} {later : List Delivery} (hpiece : piece ≠ [])
    (hscript : script w.env = data piece :: later) :
    ∃ room, 0 < room ∧ script (P.step w).env = rest room (data piece :: later) ∧
      ((∀ t, P.Returns (P.step w) (base.readAll (a ++ piece.take room ++ t))) ∨
        Receives (P.step w) d base (a ++ piece.take room)) := by
  obtain ⟨timeout, x, hturn, rfl, hmore⟩ := h
  have hroom : 0 < max x.config.bufferSize 1 := by omega
  generalize max x.config.bufferSize 1 = room at hturn hroom
  have htake : piece.take room ≠ [] := by
    simp only [ne_eq, List.take_eq_nil_iff, hpiece, or_false]
    omega
  obtain ⟨hstep, hrest⟩ := step_of_receive hplays hturn
  rw [hscript] at hstep hrest
  refine ⟨room, hroom, hrest, ?_⟩
  rw [answer, received_of_ne_nil x _ htake, ← Reader.feed_append] at hstep
  cases hp : (base.feed (a ++ piece.take room)).progress with
  | error e =>
    left
    intro t
    rw [Reader.readAll_of_error hp]
    exact returns_of_close (by rw [hstep, hp]; rfl)
  | ok p =>
    rw [hp] at hstep
    cases p with
    | complete =>
      left
      intro t
      rw [Reader.readAll_of_complete hp]
      exact returns_of_close hstep
    | more =>
      right
      have henters : P.EntersRound w := by
        rw [EntersRound, hturn]
        refine ⟨piece.take room, ?_, htake, ?_⟩
        · rw [(hplays.receive w.env room timeout).1, hscript, answer]
        · rw [← Reader.feed_append]
          exact hp
      exact receives_of_await hstep (htime.now_lt henters) hp

/-- From any point in the response on, the rest of the script decides. -/
theorem returns_of_receives (hplays : P.Plays script) (hsolid : Solid (script w.env))
    (htime : P.InTime d w) (h : Receives w d base a) :
    P.Returns w (base.readAll (a ++ bytes (script w.env))) := by
  -- Every answer takes something from the script: a pause, or bytes of the first piece.
  induction hn : turns (script w.env) using Nat.strongRecOn generalizing w a with
  | _ n ih =>
  subst hn
  match hscript : script w.env with
  | [] =>
    rw [bytes, List.append_nil]
    exact returns_of_nil hplays h hscript
  | nothing :: later =>
    obtain ⟨hnext, hlater⟩ := receives_of_nothing hplays htime h hscript
    rw [hscript] at ih hsolid
    have hreturns := ih _ (by rw [hlater, turns]; omega)
      (by rw [hlater]; exact fun p hp => hsolid p (List.mem_cons_of_mem _ hp))
      htime.step.step hnext rfl
    rw [hlater] at hreturns
    exact returns_of_step (returns_of_step hreturns)
  | data piece :: later =>
    rw [hscript] at ih hsolid
    have hpiece : piece ≠ [] := hsolid piece List.mem_cons_self
    obtain ⟨room, hroom, hrest, hnext⟩ :=
      returns_or_receives_of_data hplays htime h hpiece hscript
    rw [bytes, ← bytes_rest_data room, ← List.append_assoc]
    rcases hnext with hreturns | hnext
    · exact returns_of_step (hreturns _)
    · have hreturns := ih _ (by rw [hrest]; exact turns_rest_data hroom hpiece)
        (by rw [hrest]; exact hsolid.rest room) htime.step hnext rfl
      rw [hrest] at hreturns
      exact returns_of_step hreturns

theorem method_of_resolve {request r : Request} (h : request.resolve = .ok r) :
    r.method = request.method := by
  obtain ⟨target, rfl⟩ := Request.exists_target_of_resolve h
  rfl

/-- On a platform that plays a script, and with time left whenever a round of receiving begins, a
request returns what the bytes of the script are read as in one piece. -/
theorem returns_iff_eq_readAll {c : Client} {request r : Request} {env : σ}
    (hplays : P.Plays script) (hready : c.ready) (hresolve : request.resolve = .ok r)
    (hbuffer : c.config.bufferSize ≤ allocationLimit) (hsolid : Solid (script env))
    (htime : P.InTime (c.deadline r (P.now env)) (P.start c request env))
    (result : Except Error Response) :
    P.Returns (P.start c request env) result ↔
      result = (Reader.new request.method.expectsBody c.config.maxBody).readAll
        (bytes (script env)) := by
  suffices h : P.Returns (P.start c request env)
      ((Reader.new request.method.expectsBody c.config.maxBody).readAll (bytes (script env))) from
    ⟨fun h' => returns_unique h' h, fun h' => h' ▸ h⟩
  obtain ⟨journal, hstart⟩ := c.start_of_resolve hready hresolve (P.now env)
  have hturn : (P.start c request env).turn = _ := hstart
  obtain ⟨hsend, hscript⟩ := step_of_connect hplays hturn
  have hroom : max c.config.bufferSize 1 ≤ allocationLimit := by
    simp only [allocationLimit] at hbuffer ⊢
    omega
  obtain ⟨hreceives, hscript'⟩ := receives_of_send hplays htime.step hsend hroom rfl
  have hbytes : script (P.step (P.step (P.start c request env))).env = script env :=
    hscript'.trans hscript
  have hreturns := returns_of_receives hplays (hbytes ▸ hsolid) htime.step.step hreceives
  rw [hbytes, List.nil_append, method_of_resolve hresolve] at hreturns
  exact returns_of_step (returns_of_step hreturns)

/-- The platform whose states are scripts and whose clock stands at `now`. -/
def playing (now : Instant) : Platform (List Delivery) where
  now _ := now
  connect env _ _ _ := (.ok (), env)
  send env wire := (.ok wire.length, env)
  receive env room _ := (answer room env, rest room env)
  sleep env _ := env
  close env := env

theorem plays_playing (now : Instant) : (playing now).Plays id :=
  ⟨fun _ _ _ _ => ⟨rfl, rfl⟩, fun _ _ => ⟨rfl, rfl⟩, fun _ _ _ => ⟨rfl, rfl⟩, fun _ _ => rfl⟩

/-- A response in two pieces with a pause between them, read three bytes at a time. -/
theorem returns_in_two_pieces :
    let c : Client := { config := { bufferSize := 3 }, ready := true }
    let request : Request := ⟨.get, utf8 "http://h/", ⟨utf8 "h", 80, utf8 "/"⟩, {}, none, 0⟩
    (playing 5).Returns
      ((playing 5).start c request
        [data (utf8 "HTTP/1.1 200 \r\nContent-Len"), nothing, data (utf8 "gth: 2\r\n\r\nhi!")])
      (.ok { status := 200, headers := ⟨[⟨utf8 "Content-Length", utf8 "2"⟩]⟩, body := #[104, 105],
             contentLength := some 2 }) := by
  intro c request
  refine (returns_iff_eq_readAll (plays_playing 5) rfl
    (show request.resolve = .ok request from rfl) (by decide) ?_ ?_ _).2 ?_
  · intro piece hmem
    rcases List.mem_cons.1 hmem with h | hmem
    · cases h
      decide
    · rcases List.mem_cons.1 hmem with h | hmem
      · cases h
      · cases List.mem_singleton.1 hmem
        decide
  · intro _ _
    show (5 : Instant) < (Deadline.after 5 30000).expiresAt
    decide
  · decide +kernel

end Platform

end NetHost.Http
