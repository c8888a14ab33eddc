import NetHost.Proofs.Http.OneShot

/-!
# One connection for each request

A request that can be written opens one connection, sends its written form in one piece, receives
as long as the response is incomplete, and closes the connection at the end (`Orderly`).  One that
cannot opens none.  This holds whatever the platform answers (`orderly_calls`).

* `Stage` relates what has been called so far to the turn that is due.
-/

namespace NetHost.Http

/-! ## What is asked of a client -/

/-- The calls that have a client make a request. -/
inductive Ask where
  | get (url : Bytes)
  | head (url : Bytes)
  | post (url body : Bytes)
  | request (request : Request)
  deriving DecidableEq, Repr

/-- A request that was just built, with the client's own header fields. -/
def Client.complete (c : Client) (request : Except Error Request) : Except Error Request := do
  let request ← request
  let request ← supply request (utf8 "User-Agent") c.config.userAgent
  supply request (utf8 "Connection") (utf8 "close")

namespace Ask

/-- The request as the client makes it. -/
def built (c : Client) : Ask → Except Error Request
  | get url => c.complete (Request.get url)
  | head url => c.complete (Request.head url)
  | post url body => c.complete (Request.post url body)
  | request r => .ok r

/-- The request that is sent. -/
def prepared (c : Client) (a : Ask) : Except Error Request := a.built c >>= Request.resolve

/-- How the client starts on what it is asked. -/
def start (c : Client) (now : Instant) : Ask → Turn
  | get url => c.get url now
  | head url => c.head url now
  | post url body => c.post url body now
  | request r => c.start r now

variable {c : Client} {a : Ask} {r : Request}

theorem start_eq (c : Client) (a : Ask) (now : Instant) :
    a.start c now = match a.built c with
      | .error e => .finish (.error e) []
      | .ok r => c.start r now := by
  cases a <;> rfl

theorem start_of_prepared (hready : c.ready) (h : a.prepared c = .ok r) (now : Instant) :
    ∃ timeout x, a.start c now =
        .connect r.target.host r.target.port timeout x r.wire ∧
      x.request = r ∧ x.config = c.config := by
  obtain ⟨request, hbuilt, hresolve⟩ := bind_eq_ok_iff.1 h
  obtain ⟨journal, hstart⟩ := c.start_of_resolve hready hresolve now
  rw [start_eq, hbuilt]
  exact ⟨_, _, hstart, rfl, rfl⟩

/-- A client that is not ready, or is asked for what it cannot make a request of, does nothing. -/
theorem start_of_not_prepared (h : c.ready = false ∨ ∃ e, a.prepared c = .error e)
    (now : Instant) : ∃ e, a.start c now = .finish (.error e) [] := by
  rw [start_eq]
  cases hbuilt : a.built c with
  | error e => exact ⟨e, rfl⟩
  | ok request =>
    rw [prepared, hbuilt] at h
    exact c.exists_start_eq_finish h now

end Ask

/-! ## The calls of a request -/

/-- Answers after each of which a reader asks for more, and what it is then: the answer has bytes
and the response is not complete, or there was nothing yet. -/
inductive Reader.Hears (base : Reader) : List (Except Fault Bytes) → Reader → Prop
  | none : Hears base [] base
  | data {answers : List (Except Fault Bytes)} {r : Reader} {piece : Bytes}
    (h : Hears base answers r) (hpiece : piece ≠ [])
    (hmore : (r.feed piece).progress = .ok .more) :
    Hears base (answers ++ [.ok piece]) (r.feed piece)
  | nothing {answers : List (Except Fault Bytes)} {r : Reader} (h : Hears base answers r) :
    Hears base (answers ++ [.error .wouldBlock]) r

namespace Platform

/-- A call of the transport, with what it answers. -/
inductive Call where
  | connect (host : Bytes) (port : UInt16) (answer : Except Fault Unit)
  | send (wire : Bytes) (answer : Except Fault Nat)
  | receive (answer : Except Fault Bytes)
  | close
  deriving DecidableEq

variable {σ : Type} {P : Platform σ} {w : World σ}

/-- The call that the next step makes. -/
def call? (P : Platform σ) (w : World σ) : Option Call :=
  match w.turn with
  | .connect host port timeout _ _ =>
    some (.connect host port (P.connect w.env host port timeout).1)
  | .send wire _ => some (.send wire (P.send w.env wire).1)
  | .receive room timeout _ _ => some (.receive (P.receive w.env room timeout).1)
  | .sleep _ _ _ => none
  | .close _ _ => some .close
  | .finish _ _ => none

/-- The calls that the first `n` steps make, in order. -/
def calls (P : Platform σ) (w : World σ) (n : Nat) : List Call :=
  (List.range n).flatMap fun k => (P.call? (P.step^[k] w)).toList

theorem calls_succ (w : World σ) (n : Nat) :
    P.calls w (n + 1) = P.calls w n ++ (P.call? (P.step^[n] w)).toList := by
  rw [calls, List.range_succ, List.flatMap_append, List.flatMap_singleton]
  rfl

/-- The calls up to the first of receiving, if connecting and sending go well. -/
def opening (r : Request) : List Call :=
  [.connect r.target.host r.target.port (.ok ()), .send r.wire (.ok r.wire.length)]

/-- The calls that a request makes in all. -/
inductive Orderly (r : Request) (maxBody : Nat) : List Call → Prop
  /-- There is no connection. -/
  | refused (fault : Fault) :
    Orderly r maxBody [.connect r.target.host r.target.port (.error fault)]
  /-- The request is not accepted in full. -/
  | unsent (answer : Except Fault Nat) (h : answer ≠ .ok r.wire.length) :
    Orderly r maxBody [.connect r.target.host r.target.port (.ok ()), .send r.wire answer, .close]
  /-- The request is accepted.  Only the last answer may be one that ends the response. -/
  | sent {answers : List (Except Fault Bytes)} {reader : Reader}
    (h : (Reader.new r.method.expectsBody maxBody).Hears answers reader)
    (last : Option (Except Fault Bytes)) :
    Orderly r maxBody (opening r ++ (answers ++ last.toList).map .receive ++ [.close])

/-- The turn that is due after the calls so far. -/
inductive Stage (r : Request) (maxBody : Nat) : List Call → Turn → Prop
  | connect {timeout : UInt32} {x : Exchange} (hrequest : x.request = r)
    (hmax : x.config.maxBody = maxBody) :
    Stage r maxBody [] (.connect r.target.host r.target.port timeout x r.wire)
  | send {x : Exchange} (hrequest : x.request = r) (hmax : x.config.maxBody = maxBody) :
    Stage r maxBody [.connect r.target.host r.target.port (.ok ())] (.send r.wire x)
  | receive {room : Nat} {timeout : UInt32} {x : Exchange} {answers : List (Except Fault Bytes)}
    {reader : Reader} (h : (Reader.new r.method.expectsBody maxBody).Hears answers reader) :
    Stage r maxBody (opening r ++ answers.map .receive) (.receive room timeout x reader)
  | sleep {ms : UInt32} {x : Exchange} {answers : List (Except Fault Bytes)} {reader : Reader}
    (h : (Reader.new r.method.expectsBody maxBody).Hears answers reader) :
    Stage r maxBody (opening r ++ answers.map .receive) (.sleep ms x reader)
  | close {past : List Call} {x : Exchange} {result : Except Error Response}
    (h : Orderly r maxBody (past ++ [.close])) : Stage r maxBody past (.close x result)
  | finish {past : List Call} {result : Except Error Response} {journal : List Note}
    (h : Orderly r maxBody past) : Stage r maxBody past (.finish result journal)

variable {r : Request} {maxBody : Nat} {past : List Call} {answers : List (Except Fault Bytes)}
  {reader : Reader}

theorem orderly_of_hears (h : (Reader.new r.method.expectsBody maxBody).Hears answers reader) :
    Orderly r maxBody (opening r ++ answers.map .receive ++ [.close]) := by
  have horderly := Orderly.sent h none
  rwa [Option.toList_none, List.append_nil] at horderly

/-- In a round of receiving the connection is closed if there is no time left, and otherwise there
is one more answer to come. -/
theorem stage_await (h : (Reader.new r.method.expectsBody maxBody).Hears answers reader)
    (x : Exchange) (now : Instant) :
    Stage r maxBody (opening r ++ answers.map .receive) (x.await reader now) := by
  rcases x.await_cases reader now with ⟨hclose, -⟩ | ⟨hreceive, -⟩
  · rw [hclose]
    exact .close (orderly_of_hears h)
  · rw [hreceive]
    exact .receive h

theorem stage_received (h : (Reader.new r.method.expectsBody maxBody).Hears answers reader)
    (x : Exchange) (answer : Except Fault Bytes) (now : Instant) :
    Stage r maxBody (opening r ++ answers.map .receive ++ [.receive answer])
      (x.received reader answer now) := by
  have hpast : opening r ++ answers.map .receive ++ [.receive answer] =
      opening r ++ (answers ++ [answer]).map .receive := by
    rw [List.map_append, List.append_assoc]
    rfl
  rw [hpast]
  rcases x.received_cases reader answer now with
    ⟨x', result, hclose⟩ | ⟨piece, rfl, hpiece, hmore, hawait⟩ | ⟨rfl, hsleep⟩
  · rw [hclose]
    exact .close (.sent h (some answer))
  · rw [hawait]
    exact stage_await (h.data hpiece hmore) x now
  · rw [hsleep]
    exact .sleep h.nothing

theorem Stage.step (h : Stage r maxBody past w.turn) :
    Stage r maxBody (past ++ (P.call? w).toList) (P.step w).turn := by
  cases hturn : w.turn with
  | connect host port timeout x wire =>
    rw [step_eq_of_connect hturn]
    simp only [call?, hturn, Option.toList_some] at h ⊢
    cases h with
    | connect hrequest hmax =>
    cases (P.connect w.env r.target.host r.target.port timeout).1 with
    | error fault => exact .finish (.refused fault)
    | ok => exact .send hrequest hmax
  | send wire x =>
    rw [step_eq_of_send hturn]
    simp only [call?, hturn, Option.toList_some] at h ⊢
    cases h with
    | send hrequest hmax =>
    rcases x.sent_cases r.wire (P.send w.env r.wire).1 (P.now (P.send w.env r.wire).2) with
      ⟨x', result, hclose⟩ | ⟨hanswer, hawait⟩
    · rw [hclose]
      by_cases hfull : (P.send w.env r.wire).1 = .ok r.wire.length
      · rw [hfull]
        exact .close (orderly_of_hears .none)
      · exact .close (.unsent _ hfull)
    · rw [hawait, hanswer, hrequest, hmax]
      exact stage_await .none x _
  | receive room timeout x reader =>
    rw [step_eq_of_receive hturn]
    simp only [call?, hturn, Option.toList_some] at h ⊢
    cases h with
    | receive hhears => exact stage_received hhears x _ _
  | sleep ms x reader =>
    rw [step_eq_of_sleep hturn]
    simp only [call?, hturn, Option.toList_none, List.append_nil] at h ⊢
    cases h with
    | sleep hhears => exact stage_await hhears x _
  | close x result =>
    rw [step_eq_of_close hturn]
    simp only [call?, hturn, Option.toList_some] at h ⊢
    cases h with
    | close horderly => exact .finish horderly
  | finish result journal =>
    rw [step_of_finished ⟨result, journal, hturn⟩]
    simpa only [call?, hturn, Option.toList_none, List.append_nil] using h

theorem stage_calls (h : Stage r maxBody [] w.turn) (n : Nat) :
    Stage r maxBody (P.calls w n) (P.step^[n] w).turn := by
  induction n with
  | zero => exact h
  | succ n ih =>
    rw [calls_succ, Function.iterate_succ_apply']
    exact ih.step

theorem Stage.orderly_of_finish {result : Except Error Response} {journal : List Note}
    (h : Stage r maxBody past (.finish result journal)) : Orderly r maxBody past := by
  cases h with
  | finish horderly => exact horderly

theorem Stage.exists_orderly {turn : Turn} (h : Stage r maxBody past turn) :
    ∃ calls, Orderly r maxBody calls ∧ past <+: calls := by
  cases h with
  | connect => exact ⟨_, .refused .connectFailed, List.nil_prefix⟩
  | send => exact ⟨_, .unsent (.error .sendFailed) nofun, _, rfl⟩
  | receive hhears | sleep hhears => exact ⟨_, orderly_of_hears hhears, List.prefix_append _ _⟩
  | close horderly => exact ⟨_, horderly, List.prefix_append _ _⟩
  | finish horderly => exact ⟨_, horderly, List.prefix_refl _⟩

/-- Whatever a client that is ready is asked for, if there is a request to send then its calls
are in order: they begin with connecting, and when the request has returned they are complete.
Otherwise there are none. -/
theorem orderly_calls (P : Platform σ) (c : Client) (a : Ask) (env : σ) (n : Nat) :
    let w : World σ := ⟨a.start c (P.now env), env⟩
    (∀ r, c.ready → a.prepared c = .ok r →
      (∃ timeout x, w.turn = .connect r.target.host r.target.port timeout x r.wire) ∧
      (∃ calls, Orderly r c.config.maxBody calls ∧ P.calls w n <+: calls) ∧
      ((P.step^[n] w).Finished → Orderly r c.config.maxBody (P.calls w n))) ∧
    (c.ready = false ∨ (∃ e, a.prepared c = .error e) →
      (∃ e, w.turn = .finish (.error e) []) ∧ P.calls w n = []) := by
  intro w
  refine ⟨fun r hready hprepared => ?_, fun hnot => ?_⟩
  · obtain ⟨timeout, x, hstart, hrequest, hconfig⟩ :=
      Ask.start_of_prepared hready hprepared (P.now env)
    have hturn : w.turn = .connect r.target.host r.target.port timeout x r.wire := hstart
    have hstage : Stage r c.config.maxBody [] w.turn := by
      rw [hturn]
      exact .connect hrequest (by rw [hconfig])
    have hcalls := stage_calls (P := P) hstage n
    refine ⟨⟨timeout, x, hturn⟩, hcalls.exists_orderly, ?_⟩
    rintro ⟨result, journal, hfinish⟩
    rw [hfinish] at hcalls
    exact hcalls.orderly_of_finish
  · obtain ⟨e, hstart⟩ := Ask.start_of_not_prepared hnot (P.now env)
    have hturn : w.turn = .finish (.error e) [] := hstart
    refine ⟨⟨e, hturn⟩, ?_⟩
    induction n with
    | zero => rfl
    | succ n ih =>
      rw [calls_succ, ih, iterate_step_of_finish hturn, call?, hturn]
      rfl

/-- A response that comes after a pause, in two pieces. -/
theorem orderly_get_in_two_pieces :
    let c : Client := { ready := true }
    let a : Ask := .get (utf8 "http://h/")
    let r : Request := ⟨.get, utf8 "http://h/", ⟨utf8 "h", 80, utf8 "/"⟩,
      ⟨[⟨utf8 "User-Agent", utf8 "Kestrel/1.0"⟩, ⟨utf8 "Connection", utf8 "close"⟩]⟩, none, 30000⟩
    let script : List Delivery :=
      [.nothing, .data (utf8 "HTTP/1.1 204 "), .data (utf8 "\r\n\r\nmore"), .data (utf8 "more")]
    let calls := (playing 5).calls ⟨a.start c 5, script⟩ 9
    Orderly r c.config.maxBody calls ∧
      calls = opening r ++ [.receive (.error .wouldBlock), .receive (.ok (utf8 "HTTP/1.1 204 ")),
        .receive (.ok (utf8 "\r\n\r\nmore")), .close] := by
  intro c a r script calls
  have hprepared : a.prepared c = .ok r := by decide +kernel
  have hfinished : ((playing 5).step^[9] ⟨a.start c 5, script⟩).Finished := by decide +kernel
  obtain ⟨horderly, -⟩ := orderly_calls (playing 5) c a script 9
  exact ⟨(horderly r rfl hprepared).2.2 hfinished, by decide +kernel⟩

end Platform

end NetHost.Http
