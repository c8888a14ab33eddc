import Mathlib.Data.List.Basic
import Mathlib.Tactic.Common
import NetHost.Proofs.Http.OneShot

/-!
# A reader that has given its answer

A reader is fed pieces and told of the end of the connection, in any order and as often as one
likes.  After a failure nothing is left of the response and every call fails alike; a response that
is complete stays as it is (`Reader.answer_stays`).
-/

namespace NetHost.Http.Reader

/-- What can be done with a reader. -/
inductive Call where
  | feed (piece : Bytes)
  /-- The connection has ended. -/
  | close
  deriving DecidableEq, Repr

/-- The reader after a call.  What the call answers is the progress that has been made then. -/
def after (r : Reader) : Call → Reader
  | .feed piece => r.feed piece
  | .close => r.close

def run (r : Reader) (calls : List Call) : Reader := calls.foldl after r

/-- The decoder that a chunked body goes through. -/
def decoder? (r : Reader) : Option Chunked.Decoder :=
  match r.phase with
  | .chunked d => some d
  | _ => none

/-- How much of a body of announced length is to come. -/
def left? (r : Reader) : Option Nat :=
  match r.phase with
  | .sized left => some left
  | _ => none

/-- Nothing is left of what was read. -/
structure Blank (r : Reader) : Prop where
  response : r.response = {}
  line : r.line = #[]
  decoder : r.decoder? = none
  left : r.left? = none
  notDone : r.isDone = false

variable {r : Reader} {e : Error}

theorem blank_fail (r : Reader) (e : Error) : (r.fail e).Blank := ⟨rfl, rfl, rfl, rfl, rfl⟩

theorem run_of_fixed (h : ∀ c, r.after c = r) (calls : List Call) : r.run calls = r :=
  List.foldl_fixed' h calls

theorem after_of_failure (h : r.failure? = some e) (c : Call) : r.after c = r := by
  cases c with
  | feed piece => exact feed_of_failure h piece
  | close =>
    unfold failure? at h
    split at h
    · simp only [after, close, *]
    · cases h

theorem after_of_complete (h : r.progress = .ok .complete) (c : Call) : r.after c = r := by
  cases c with
  | feed piece => exact feed_of_complete h piece
  | close => rw [after, close, (progress_eq_complete_iff r).1 h]

/-- A call that fails goes through the one reset, whatever was read before it. -/
theorem after_cases (h : r.failure? = none) (c : Call) :
    (r.after c).failure? = none ∨ ∃ e, r.after c = r.fail e := by
  cases c with
  | feed piece =>
    rw [after, feed_of_not_failed h]
    rcases hstep : r.step piece with e | r'
    · exact .inr ⟨e, rfl⟩
    · exact .inl ((continues_of_step hstep).failure h)
  | close =>
    cases hphase : r.phase with
    | done => exact .inl (by simp only [after, close, hphase, failure?])
    | failed e => simp only [failure?, hphase, reduceCtorEq] at h
    | untilClose => exact .inl (by simp only [after, close, hphase, failure?])
    | statusLine | headers | sized _ | chunked _ =>
      exact .inr ⟨.incomplete, by simp only [after, close, hphase]⟩

/-- After the end of the connection there is no more to come. -/
theorem progress_close_ne_more (r : Reader) : r.close.progress ≠ .ok .more := by
  cases hphase : r.phase <;> simp [close, progress, fail, hphase]

/-- A reader that has failed, if it has, is blank. -/
def Clears (r : Reader) : Prop := ∀ e, r.failure? = some e → r.Blank

theorem Clears.after (h : r.Clears) (c : Call) : (r.after c).Clears := by
  intro e he
  cases hr : r.failure? with
  | some e' =>
    rw [after_of_failure hr] at he ⊢
    exact h e he
  | none =>
    rcases after_cases hr c with hnone | ⟨e', hfail⟩
    · rw [hnone] at he
      cases he
    · rw [hfail]
      exact blank_fail r e'

theorem clears_run (expectBody : Bool) (maxBody : Nat) (calls : List Call) :
    ((new expectBody maxBody).run calls).Clears :=
  List.foldlRecOn calls Reader.after nofun fun _ h c _ => h.after c

/-- After a call that fails nothing is left of what was read, and all that is done later fails with
the same cause.  After one that completes the response nothing changes it any more.  The end of the
connection is always the one or the other. -/
theorem answer_stays (expectBody : Bool) (maxBody : Nat) (earlier : List Call) (c : Call)
    (later : List Call) :
    let r := ((new expectBody maxBody).run earlier).after c
    let r' := r.run later
    (∀ e, r.progress = .error e →
      r'.Blank ∧ r'.progress = .error e ∧ ∀ c', (r'.after c').progress = .error e) ∧
    (r.progress = .ok .complete →
      r'.response = r.response ∧ r'.progress = .ok .complete ∧
        ∀ c', (r'.after c').progress = .ok .complete) ∧
    (c = .close → r.progress ≠ .ok .more) := by
  intro r r'
  refine ⟨fun e he => ?_, fun hdone => ?_, ?_⟩
  · have hfailure := (progress_eq_error_iff r e).1 he
    have hr' : r' = r := run_of_fixed (after_of_failure hfailure) later
    have hclears : r.Clears := (clears_run expectBody maxBody earlier).after c
    rw [hr']
    exact ⟨hclears e hfailure, he, fun c' => by rw [after_of_failure hfailure, he]⟩
  · have hr' : r' = r := run_of_fixed (after_of_complete hdone) later
    rw [hr']
    exact ⟨rfl, hdone, fun c' => by rw [after_of_complete hdone, hdone]⟩
  · rintro rfl
    exact progress_close_ne_more _

end NetHost.Http.Reader
