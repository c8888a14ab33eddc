import Mathlib.Logic.Function.Iterate
import Mathlib.Tactic.Common
import NetHost.Proofs.Icmp.OneInFlight
import NetHost.Proofs.Icmp.Timed

/-!
# Sweeps do not decide what becomes of an echo

When the table is swept depends on who polls, and when.  Two runs that differ in nothing but the
sweeps come to the same end (`World.fate_by_age`): an echo that is past its timeout is lost,
whichever of the two finds it first.

* `Engine.Agrees` relates the engines of the two runs: the one with more sweeps has already lost
  some of the echoes that are past their timeouts in the other.
* Every turn keeps the relation (`agrees_start`, `agrees_goOn`), as long as no error comes in for an
  echo past its timeout.  An error message for such an echo counts as an error if no sweep was
  before it, and nothing else sees to that (`World.late_report_is_error`).
-/

namespace NetHost.Icmp

open Ipv4 (Address)

variable {e e' : Engine} {now later : Instant} {t : Clock} {chosen : PendingEcho → Bool}
  {key : EchoKey}

namespace Engine

/-! ## Echoes that are lost early -/

/-- The engine after the chosen echoes are lost. -/
def lose (e : Engine) (chosen : PendingEcho → Bool) : Engine :=
  { e with
    pending := (e.pending.remove chosen).1
    statistics := Ping.Statistics.recordLost^[e.owned (e.pending.remove chosen).2] e.statistics }

theorem lose_of_forall (h : ∀ p ∈ e.pending.entries, chosen p = false) : e.lose chosen = e := by
  have hnone : (e.pending.remove chosen).2 = [] := by
    rw [PendingTable.removed_eq]
    exact List.filter_eq_nil_iff.2 fun p hp => by simp [h p hp]
  rw [lose, PendingTable.remove_of_forall h, hnone]
  rfl

theorem owned_remove_remove (e : Engine) (pending : PendingTable)
    (chosen chosen' : PendingEcho → Bool) :
    e.owned ((pending.remove chosen).1.remove chosen').2 + e.owned (pending.remove chosen).2 =
      e.owned (pending.remove fun p => chosen p || chosen' p).2 := by
  unfold owned
  rw [PendingTable.removed_eq, PendingTable.removed_eq, PendingTable.removed_eq,
    PendingTable.entries_remove, List.countP_eq_countP_filter_add
    (pending.entries.filter fun p => chosen p || chosen' p) _ chosen, Nat.add_comm]
  simp only [List.filter_filter]
  congr 2
  · refine List.filter_congr fun p _ => ?_
    cases chosen p <;> simp
  · refine List.filter_congr fun p _ => ?_
    cases chosen p <;> simp

theorem lose_lose (e : Engine) (chosen chosen' : PendingEcho → Bool) :
    (e.lose chosen).lose chosen' = e.lose fun p => chosen p || chosen' p := by
  have howned := e.owned_remove_remove e.pending chosen chosen'
  simp only [lose]
  rw [PendingTable.remove_remove, ← howned, Function.iterate_add_apply]
  rfl

theorem lose_comm (e : Engine) (chosen chosen' : PendingEcho → Bool) :
    (e.lose chosen).lose chosen' = (e.lose chosen').lose chosen := by
  rw [lose_lose, lose_lose]
  exact congrArg e.lose (funext fun p => Bool.or_comm _ _)

theorem sweep_eq_lose (e : Engine) (now : Instant) :
    ∃ counters journal, e.sweep now = { e.lose (·.isExpired now) with counters, journal } := by
  obtain ⟨timeouts, journal, h⟩ := e.sweep_eq now
  exact ⟨_, journal, h⟩

theorem lose_of_owned (h : e.owned (e.pending.remove chosen).2 = 0) :
    e.lose chosen = { e with pending := (e.pending.remove chosen).1 } := by
  rw [lose, h]
  rfl

theorem finishSession_idle (e : Engine) (counters : Counters) (journal : Array Note)
    (now : Instant) :
    finishSession { e with counters, journal } now =
      { e.finishSession now with counters, journal } := by
  unfold finishSession
  dsimp only
  split
  · rfl
  · rfl

/-- The echoes in flight are the last to be lost. -/
theorem finishSession_eq_lose {s : Ping.Session} (hs : e.session = some s) (now : Instant) :
    e.finishSession now =
      { e.lose (·.key.identifier = s.identifier) with
        session := none
        active := false
        statistics := (e.lose (·.key.identifier = s.identifier)).statistics.finish now } := by
  have howned : e.owned (e.pending.removeIdentifier s.identifier).2 =
      (e.pending.removeIdentifier s.identifier).2.length := by
    refine List.countP_eq_length.2 fun p hp => (owns_iff_of_session hs _).2 ?_
    have hidentifier := (PendingTable.mem_removed.1 hp).2
    rw [decide_eq_true_eq] at hidentifier
    exact hidentifier.symm
  rw [finishSession_of_some hs, ← howned]
  rfl

/-- An echo that is lost before the session ends is not lost once more with it. -/
theorem finishSession_lose (e : Engine) (chosen : PendingEcho → Bool) (now : Instant) :
    (e.lose chosen).finishSession now = (e.finishSession now).lose chosen := by
  cases hs : e.session with
  | none =>
    have hs' : (e.lose chosen).session = none := hs
    rw [finishSession_of_none hs, finishSession_of_none hs']
  | some s =>
    have hs' : (e.lose chosen).session = some s := hs
    rw [finishSession_eq_lose hs, finishSession_eq_lose hs', lose_comm]
    have hnone : ∀ p ∈ (e.lose (·.key.identifier = s.identifier)).pending.entries,
        ¬ (e.lose (·.key.identifier = s.identifier)).owns p.key.identifier := by
      intro p hp howns
      have hother := (PendingTable.mem_entries_remove.1 hp).2
      rw [decide_eq_false_iff_not] at hother
      exact hother ((owns_iff_of_session hs _).1 howns).symm
    generalize e.lose (·.key.identifier = s.identifier) = e₁ at hnone
    have howned : e₁.owned (e₁.pending.remove chosen).2 = 0 :=
      List.countP_eq_zero.2 fun p hp => hnone p (PendingTable.mem_removed.1 hp).1
    rw [lose_of_owned howned, lose_of_owned (owned_of_idle rfl _)]

theorem recordError_idle (e : Engine) (counters : Counters) (journal : Array Note)
    (identifier : UInt16) :
    recordError { e with counters, journal } identifier =
      { e.recordError identifier with counters, journal } := by
  rw [recordError_eq, recordError_eq]
  rfl

theorem recordError_lose (e : Engine) (chosen : PendingEcho → Bool) (identifier : UInt16) :
    (e.lose chosen).recordError identifier = (e.recordError identifier).lose chosen := by
  have hlost := e.statistics.recordError_iterate_recordLost (e.owned (e.pending.remove chosen).2)
  have howned (statistics : Ping.Statistics) :
      ({ e with statistics } : Engine).owned (e.pending.remove chosen).2 =
        e.owned (e.pending.remove chosen).2 := rfl
  by_cases howns : e.owns identifier
  · have howns' : (e.lose chosen).owns identifier := howns
    simp only [recordError, if_pos howns, if_pos howns']
    simp only [lose, howned, hlost]
  · have howns' : ¬ (e.lose chosen).owns identifier := howns
    simp only [recordError, if_neg howns, if_neg howns']

theorem register_idle (e : Engine) (counters : Counters) (journal : Array Note) (now : Instant)
    (key : EchoKey) (timeout : UInt32) :
    register { e with counters, journal } now key timeout =
      (e.register now key timeout).map fun e' => { e' with counters, journal } := by
  unfold register
  dsimp only
  split
  · rfl
  · rfl

/-- No echo in flight with the key is past its timeout. -/
def Fresh (e : Engine) (now : Instant) (key : EchoKey) : Prop :=
  ∀ p ∈ e.pending.entries, p.key = key → p.isExpired now = false

/-! ## Engines that agree -/

/-- Apart from what was counted in passing and reported, `e'` is `e` after some of the echoes that
are past their timeouts are lost. -/
def Agrees (now : Instant) (e e' : Engine) : Prop :=
  ∃ chosen counters journal, (∀ p : PendingEcho, chosen p = true → p.isExpired now = true) ∧
    e' = { e.lose chosen with counters, journal }

namespace Agrees

theorem refl (now : Instant) (e : Engine) : Agrees now e e := by
  refine ⟨fun _ => false, e.counters, e.journal, nofun, ?_⟩
  rw [lose_of_forall fun _ _ => rfl]

theorem idle (h : Agrees now e e') (counters counters' : Counters) (journal journal' : Array Note) :
    Agrees now { e with counters, journal }
      { e' with counters := counters', journal := journal' } := by
  obtain ⟨chosen, _, _, hchosen, rfl⟩ := h
  exact ⟨chosen, counters', journal', hchosen, rfl⟩

theorem count (h : Agrees now e e') (counters counters' : Counters) :
    Agrees now { e with counters } { e' with counters := counters' } :=
  h.idle counters counters' e.journal e'.journal

theorem note (h : Agrees now e e') (note note' : Note) : Agrees now (e.note note) (e'.note note') :=
  h.idle e.counters e'.counters (e.journal.push note) (e'.journal.push note')

theorem mono (h : Agrees now e e') (hle : now ≤ later) : Agrees later e e' := by
  obtain ⟨chosen, counters, journal, hchosen, rfl⟩ := h
  exact ⟨chosen, counters, journal, fun p hp => PendingEcho.isExpired_mono (hchosen p hp) hle, rfl⟩

theorem ready (h : Agrees now e e') : e'.ready = e.ready := by
  obtain ⟨_, _, _, _, rfl⟩ := h
  rfl

theorem config (h : Agrees now e e') : e'.config = e.config := by
  obtain ⟨_, _, _, _, rfl⟩ := h
  rfl

theorem session (h : Agrees now e e') : e'.session = e.session := by
  obtain ⟨_, _, _, _, rfl⟩ := h
  rfl

theorem identifiersUsed (h : Agrees now e e') : e'.identifiersUsed = e.identifiersUsed := by
  obtain ⟨_, _, _, _, rfl⟩ := h
  rfl

theorem owns (h : Agrees now e e') (identifier : UInt16) :
    e'.owns identifier = e.owns identifier := by
  rw [Engine.owns, h.session]
  rfl

theorem pending_eq_of_empty (h : Agrees now e e') (hempty : e.pending.entries = []) :
    e'.pending = e.pending := by
  obtain ⟨_, _, _, _, rfl⟩ := h
  refine PendingTable.remove_of_forall fun p hp => ?_
  rw [hempty] at hp
  cases hp

/-- With the same echoes in flight the engines differ in nothing that counts. -/
theorem alike (h : Agrees now e e') (hpending : e'.pending = e.pending) :
    ∃ counters journal, e' = { e with counters, journal } := by
  obtain ⟨chosen, counters, journal, -, rfl⟩ := h
  refine ⟨counters, journal, ?_⟩
  rw [lose_of_forall fun p hp => ?_]
  have hkept : p ∈ (e.pending.remove chosen).1.entries := by
    have hpending : (e.pending.remove chosen).1 = e.pending := hpending
    rwa [hpending]
  exact (PendingTable.mem_entries_remove.1 hkept).2

/-- A sweep loses in both what one of them has lost already. -/
theorem sweep (h : Agrees now e e') (hle : now ≤ later) :
    ∃ counters journal, e'.sweep later = { e.sweep later with counters, journal } := by
  obtain ⟨chosen, counters, journal, hchosen, rfl⟩ := h
  obtain ⟨counters₁, journal₁, h₁⟩ := e.sweep_eq_lose later
  obtain ⟨counters₂, journal₂, h₂⟩ :=
    sweep_eq_lose { e.lose chosen with counters, journal } later
  refine ⟨counters₂, journal₂, ?_⟩
  have hboth : (e.lose chosen).lose (·.isExpired later) = e.lose (·.isExpired later) := by
    rw [lose_lose]
    refine congrArg e.lose (funext fun p => ?_)
    cases hp : chosen p with
    | false => rfl
    | true => exact (PendingEcho.isExpired_mono (hchosen p hp) hle).symm
  rw [h₁, h₂, ← hboth]
  rfl

/-- One of the engines may be swept once more. -/
theorem sweep_right (h : Agrees now e e') (hle : now ≤ later) :
    Agrees later e (e'.sweep later) := by
  obtain ⟨counters, journal, hsweep⟩ := h.sweep hle
  obtain ⟨counters', journal', hlose⟩ := e.sweep_eq_lose later
  rw [hsweep, hlose]
  exact ⟨(·.isExpired later), counters, journal, fun _ hp => hp, rfl⟩

theorem refuses (h : Agrees now e e') (hnow : now ≤ t.now) : e'.refuses t = e.refuses t := by
  obtain ⟨counters, journal, hsweep⟩ := h.sweep hnow
  rw [Engine.refuses, h.ready, h.session, hsweep]
  rfl

theorem recordError (h : Agrees now e e') (identifier : UInt16) :
    Agrees now (e.recordError identifier) (e'.recordError identifier) := by
  obtain ⟨chosen, counters, journal, hchosen, rfl⟩ := h
  exact ⟨chosen, counters, journal, hchosen, by rw [recordError_idle, recordError_lose]⟩

/-- Neither engine has lost an echo that is not past its timeout. -/
theorem take? (h : Agrees now e e') (hfresh : e.Fresh now key) :
    (e.pending.take? key = none ∧ e'.pending.take? key = none) ∨
      ∃ p pending pending', e.pending.take? key = some (p, pending) ∧
        e'.pending.take? key = some (p, pending') ∧
        Agrees now { e with pending } { e' with pending := pending' } := by
  obtain ⟨chosen, counters, journal, hchosen, rfl⟩ := h
  have hkept (p : PendingEcho) (hp : p ∈ e.pending.entries) (hkey : p.key = key) :
      chosen p = false := by
    by_contra hlost
    have hexpired := hchosen p (Bool.eq_true_of_not_eq_false hlost)
    rw [hfresh p hp hkey] at hexpired
    cases hexpired
  have hremove : (e.pending.remove chosen).1.take? key = _ := PendingTable.take?_remove hkept
  cases htake : e.pending.take? key with
  | none =>
    rw [htake] at hremove
    exact .inl ⟨rfl, hremove⟩
  | some r =>
    obtain ⟨p, pending⟩ := r
    rw [htake] at hremove
    refine .inr ⟨p, pending, (pending.remove chosen).1, rfl, hremove, chosen, counters, journal,
      hchosen, ?_⟩
    obtain ⟨hkey, hperm⟩ := PendingTable.perm_entries_of_take? htake
    have howned : e.owned (e.pending.remove chosen).2 = e.owned (pending.remove chosen).2 := by
      have hp : chosen p = false := hkept p (hperm.mem_iff.2 List.mem_cons_self) hkey
      have hfilter := hperm.filter chosen
      rw [List.filter_cons_of_neg (by simp [hp])] at hfilter
      rw [PendingTable.removed_eq, PendingTable.removed_eq]
      exact hfilter.countP_eq _
    simp only [lose, howned]
    rfl

theorem finishSession (h : Agrees now e e') (later : Instant) :
    Agrees now (e.finishSession later) (e'.finishSession later) := by
  obtain ⟨chosen, counters, journal, hchosen, rfl⟩ := h
  exact ⟨chosen, counters, journal, hchosen, by rw [finishSession_idle, finishSession_lose]⟩

theorem endSession (h : Agrees now e e') (later : Instant) (identifier : UInt16) :
    Agrees now (e.endSession later identifier) (e'.endSession later identifier) := by
  unfold Engine.endSession
  rw [h.owns]
  split_ifs
  · exact h.finishSession later
  · exact h

theorem summarize (h : Agrees now e e') : Agrees now e.summarize e'.summarize := by
  obtain ⟨journal, hsummarize⟩ := e.summarize_eq
  obtain ⟨journal', hsummarize'⟩ := e'.summarize_eq
  rw [hsummarize, hsummarize']
  exact h.idle _ _ _ _

/-- Without a session nothing is in flight, so a session starts from engines that are alike. -/
theorem beginSession (h : Agrees now e e') (hpending : e.session = none → e'.pending = e.pending)
    (start : Instant) (destination : Address) (mode : Ping.Mode) (config : Ping.Config) :
    (∃ cause cause' journal journal',
      e.beginSession start destination mode config.normalized = ({ e with journal }, .error cause) ∧
      e'.beginSession start destination mode config.normalized =
        ({ e' with journal := journal' }, .error cause')) ∨
    ∃ s counters journal,
      e.beginSession start destination mode config.normalized = (e.begun s, .ok s.identifier) ∧
      e'.beginSession start destination mode config.normalized =
        ({ e.begun s with counters, journal }, .ok s.identifier) := by
  by_cases hstarts : e.ready ∧ e.session = none
  · obtain ⟨counters, journal, rfl⟩ := h.alike (hpending hstarts.2)
    exact .inr ⟨_, counters, journal,
      beginSession_of_idle hstarts.1 hstarts.2 start destination mode _,
      beginSession_of_idle (e := { e with counters, journal }) hstarts.1 hstarts.2 start destination
        mode _⟩
  · have hstarts' : ¬ (e'.ready ∧ e'.session = none) := by rwa [h.ready, h.session]
    obtain ⟨cause, journal, hbegin⟩ := beginSession_of_not hstarts start destination mode config
    obtain ⟨cause', journal', hbegin'⟩ :=
      beginSession_of_not hstarts' start destination mode config
    exact .inl ⟨cause, cause', journal, journal', hbegin, hbegin'⟩

theorem report (h : Agrees now e e') : Agrees now e.report e'.report := by
  obtain ⟨journal, hreport⟩ := e.report_eq
  obtain ⟨journal', hreport'⟩ := e'.report_eq
  rw [hreport, hreport']
  exact h.idle _ _ _ _

theorem init (h : Agrees now e e') : Agrees now e.init e'.init := by
  obtain ⟨_, counters, journal, -, rfl⟩ := h
  exact (refl now e.init).idle {} {} _ _

theorem drop (h : Agrees now e e') (source : Address) (damage : Damage) :
    Agrees now (e.drop source damage) (e'.drop source damage) := by
  cases damage
  · exact h.idle _ _ _ _
  · exact h.idle _ _ _ _

theorem dropEcho (h : Agrees now e e') (hfresh : e.Fresh now key) (cause : Error) :
    Agrees now (e.dropEcho key cause) (e'.dropEcho key cause) := by
  simp only [Engine.dropEcho, countFailure]
  rcases h.take? hfresh with ⟨htake, htake'⟩ | ⟨p, pending, pending', htake, htake', hagrees⟩
  · rw [htake, htake']
    exact h.idle _ _ _ _
  · rw [htake, htake']
    exact ((hagrees.count _ _).recordError key.identifier).note _ _

theorem handleReply (h : Agrees now e e') (source : Address) (echo : Echo) (hle : now ≤ later) :
    Agrees now (e.handleReply source echo later) (e'.handleReply source echo later) := by
  obtain ⟨counters, journal, hsweep⟩ := h.sweep hle
  simp only [Engine.handleReply, hsweep]
  generalize e.sweep later = e₁
  split
  · exact (refl now e₁).idle _ _ _ _
  · simp only [recordReply_eq]
    exact (refl now _).idle _ _ _ _

theorem handleReport {report : Report} (h : Agrees now e e')
    (hfresh : ∀ key, report.quotedEcho? = some key → e.Fresh now key) (source : Address)
    (kind : Kind) :
    Agrees now (e.handleReport source kind report) (e'.handleReport source kind report) := by
  simp only [Engine.handleReport]
  cases hquoted : report.quotedEcho? with
  | none => exact h.idle _ _ _ _
  | some key =>
    simp only [Option.bind_some]
    rcases h.take? (hfresh key hquoted) with
      ⟨htake, htake'⟩ | ⟨p, pending, pending', htake, htake', hagrees⟩
    · rw [htake, htake']
      exact h.idle _ _ _ _
    · rw [htake, htake']
      exact (hagrees.recordError p.key.identifier).note _ _

end Agrees

end Engine

/-! ## Turns -/

/-- The echo that an error message is about. -/
def Packet.reported? (packet : Bytes) : Option EchoKey :=
  match Message.decode packet with
  | .ok (.unreachable report) => report.quotedEcho?
  | .ok (.timeExceeded report) => report.quotedEcho?
  | _ => none

/-- Both turns suspend the call at the same point, or both end it. -/
structure Turn.Agrees (now : Instant) (turn turn' : Turn) : Prop where
  engine : turn.engine.Agrees now turn'.engine
  suspended : turn'.suspended? = turn.suspended?

namespace Turn.Agrees

theorem done (h : e.Agrees now e') (reply reply' : Reply) :
    Agrees now (.done e reply) (.done e' reply') := ⟨h, rfl⟩

theorem send (h : e.Agrees now e') (destination : Address) (packet : Bytes) (rest : Sending) :
    Agrees now (.send e destination packet rest) (.send e' destination packet rest) := ⟨h, rfl⟩

theorem sleep (h : e.Agrees now e') (ms : UInt32) (rest : Sleeping) :
    Agrees now (.sleep e ms rest) (.sleep e' ms rest) := ⟨h, rfl⟩

theorem sendEcho (h : e.Agrees now e') (destination : Address) (kind : Kind) (limit : Nat)
    (echo : Echo) :
    Agrees now (e.sendEcho destination kind limit echo)
      (e'.sendEcho destination kind limit echo) := by
  unfold Engine.sendEcho
  rw [h.ready]
  split_ifs
  · exact done h _ _
  · exact done h _ _
  · exact send h _ _ _

theorem sendReport (h : e.Agrees now e') (destination : Address) (kind : Kind) (isCode : Bool)
    (report : Report) :
    Agrees now (e.sendReport destination kind isCode report)
      (e'.sendReport destination kind isCode report) := by
  unfold Engine.sendReport
  rw [h.ready]
  split_ifs
  · exact done h _ _
  · exact done h _ _
  · exact send h _ _ _

theorem input (h : e.Agrees now e') (hnow : now ≤ t.now) (source : Address) {packet : Bytes}
    (hfresh : ∀ key, Packet.reported? packet = some key → e.Fresh now key) :
    Agrees now (e.input t source packet) (e'.input t source packet) := by
  unfold Engine.input
  by_cases hready : e.ready
  case neg =>
    have hready' : ¬ e'.ready := by rwa [h.ready]
    rw [if_pos (by simp [hready]), if_pos (by simp [hready'])]
    exact done h _ _
  have hready' : e'.ready := by rwa [h.ready]
  rw [if_neg (by simp [hready]), if_neg (by simp [hready'])]
  unfold Packet.reported? at hfresh
  cases hdecode : Message.decode packet with
  | error damage => exact done ((h.count _ _).drop source damage) _ _
  | ok message =>
    rw [hdecode] at hfresh
    dsimp only
    cases message with
    | echoRequest echo => exact sendEcho (h.count _ _) _ _ _ _
    | echoReply echo => exact done ((h.count _ _).handleReply source echo hnow) _ _
    | unreachable report =>
      refine done (Engine.Agrees.handleReport (h.count _ _) ?_ source .unreachable) _ _
      exact hfresh
    | timeExceeded report =>
      refine done (Engine.Agrees.handleReport (h.count _ _) ?_ source .timeExceeded) _ _
      exact hfresh
    | other kind code => exact done (h.idle _ _ _ _) _ _

theorem conclude (h : e.Agrees now e') (t : Clock) (run : Run) :
    Agrees now (e.conclude t run) (e'.conclude t run) :=
  done (h.endSession t.now run.identifier).summarize _ _

/-- A run has to find the same echoes in flight if the session is its own. -/
theorem attempt {run : Run} (h : e.Agrees now e')
    (hpending : e.owns run.identifier → e'.pending = e.pending) (t : Clock) :
    Agrees now (e.attempt t run) (e'.attempt t run) := by
  unfold Engine.attempt
  rw [h.owns]
  split_ifs with howns hend
  · obtain ⟨counters, journal, rfl⟩ := h.alike (hpending howns)
    rw [e.register_idle counters journal]
    cases e.register t.now run.key run.config.timeout with
    | error cause => exact done (h.endSession t.later.now run.identifier) _ _
    | ok e₁ => exact send ((Engine.Agrees.refl now e₁).idle _ _ _ _) _ _ _
  · exact conclude h t.later run
  · exact sleep h _ _

theorem proceed {run : Run} (h : e.Agrees now e')
    (hpending : e.owns run.identifier → e'.pending = e.pending) (t : Clock) :
    Agrees now (e.proceed t run) (e'.proceed t run) := by
  unfold Engine.proceed
  split_ifs
  · exact conclude h t run
  · have hnext : e.owns run.next.identifier → e'.pending = e.pending := hpending
    exact attempt h hnext t
  · exact sleep h _ _

theorem await (h : e.Agrees now e') (hnow : now ≤ t.now) (run : Run) :
    Agrees now (e.await t run) (e'.await t run) := by
  obtain ⟨counters, journal, hsweep⟩ := h.sweep hnow
  have hagrees : (e.sweep t.now).Agrees now { e.sweep t.now with counters, journal } :=
    (Engine.Agrees.refl now _).idle _ _ _ _
  simp only [Engine.await, hsweep]
  split_ifs
  · exact sleep hagrees _ _
  · exact proceed hagrees (fun _ => rfl) t.later

theorem poll (h : e.Agrees now e') (hnow : now ≤ t.now) :
    Agrees now (e.poll t) (e'.poll t) := by
  cases hready : e.ready with
  | false =>
    rw [Engine.poll_of_not_ready hready, Engine.poll_of_not_ready (h.ready.trans hready)]
    exact done h _ _
  | true =>
  have hready' : e'.ready := h.ready.trans hready
  obtain ⟨counters, journal, hsweep⟩ := h.sweep hnow
  have hidle (e₁ : Engine) : e₁.Agrees now { e₁ with counters, journal } :=
    (Engine.Agrees.refl now e₁).idle _ _ _ _
  by_cases hdue : ∃ s, e.session = some s ∧ s.mode = .continuous ∧ s.nextSendAt ≤ t.now
  · obtain ⟨s, hs, hdue⟩ := hdue
    have hmoved : e'.movedOn s t.now = { e.movedOn s t.now with counters, journal } := by
      rw [Engine.movedOn, hsweep]
      rfl
    rw [Engine.poll_of_due hready hs hdue, Engine.poll_of_due hready' (h.session.trans hs) hdue,
      hmoved, (e.movedOn s t.now).register_idle counters journal]
    generalize (e.movedOn s t.now).register _ _ _ = registered
    cases registered with
    | error cause => exact done (((hidle _).note _ _).recordError s.identifier) _ _
    | ok e₁ => exact send (hidle e₁) _ _ _
  · have hnot (s : Ping.Session) (hs : e.session = some s) :
        ¬ (s.mode = .continuous ∧ s.nextSendAt ≤ t.now) := fun h => hdue ⟨s, hs, h⟩
    rw [Engine.poll_of_not_due hready hnot,
      Engine.poll_of_not_due hready' (by rwa [h.session]), hsweep]
    exact done (hidle _) _ _

theorem pingWith (h : e.Agrees now e') (hpending : e.session = none → e'.pending = e.pending)
    (t : Clock) (destination : Address) (config : Ping.Config) :
    Agrees now (e.pingWith t destination config) (e'.pingWith t destination config) := by
  simp only [Engine.pingWith]
  split_ifs
  · exact done h _ _
  · rcases h.beginSession hpending t.now destination .blocking config with
      ⟨cause, cause', journal, journal', hbegin, hbegin'⟩ | ⟨s, counters, journal, hbegin, hbegin'⟩
    · rw [hbegin, hbegin']
      exact done (h.idle _ _ _ _) _ _
    · have hbegun : (e.begun s).Agrees now { e.begun s with counters, journal } :=
        (Engine.Agrees.refl now _).idle _ _ _ _
      rw [hbegin, hbegin']
      exact attempt (hbegun.note _ _) (fun _ => rfl) t.later

theorem startPingWith (h : e.Agrees now e') (hpending : e.session = none → e'.pending = e.pending)
    (hnow : now ≤ t.later.now) (destination : Address) (config : Ping.Config) :
    Agrees now (e.startPingWith t destination config) (e'.startPingWith t destination config) := by
  simp only [Engine.startPingWith]
  split_ifs
  · exact done h _ _
  · rcases h.beginSession hpending t.now destination .continuous config with
      ⟨cause, cause', journal, journal', hbegin, hbegin'⟩ | ⟨s, counters, journal, hbegin, hbegin'⟩
    · rw [hbegin, hbegin']
      exact done (h.idle _ _ _ _) _ _
    · have hbegun : (e.begun s).Agrees now { e.begun s with counters, journal } :=
        (Engine.Agrees.refl now _).idle _ _ _ _
      rw [hbegin, hbegin']
      exact poll (hbegun.note _ _) hnow

theorem stopPing (h : e.Agrees now e') (t : Clock) :
    Agrees now (e.stopPing t) (e'.stopPing t) := by
  unfold Engine.stopPing
  rw [h.session]
  split_ifs
  · exact done (h.finishSession t.now).summarize _ _
  · exact done h _ _

end Turn.Agrees

/-- The echo that an error message coming in with the call is about. -/
def Call.reported? : Call → Option EchoKey
  | .input _ packet => Packet.reported? packet
  | _ => none

theorem agrees_start {c : Call} (h : e.Agrees now e')
    (hpending : e.session = none → e'.pending = e.pending) (hnow : ∀ n, now ≤ t.reading n)
    (hfresh : ∀ key, c.reported? = some key → e.Fresh now key) :
    Turn.Agrees now (e.start t c) (e'.start t c) := by
  cases c with
  | init => exact .done h.init _ _
  | poll => exact .poll h (hnow 0)
  | report => exact .done h.report _ _
  | input source packet => exact .input h (hnow 0) source hfresh
  | sendRequest destination echo => exact .sendEcho h _ _ _ _
  | sendReply destination echo => exact .sendEcho h _ _ _ _
  | sendUnreachable destination report => exact .sendReport h _ _ _ _
  | sendTimeExceeded destination report => exact .sendReport h _ _ _ _
  | ping destination count timeout =>
    simp only [Engine.start, h.config]
    exact .pingWith h hpending t destination _
  | pingWith destination config => exact .pingWith h hpending t destination config
  | startPing destination =>
    simp only [Engine.start, h.config]
    exact .startPingWith h hpending (hnow 1) destination _
  | startPingWith destination config =>
    exact .startPingWith h hpending (hnow 1) destination config
  | stopPing => exact .stopPing h t

/-- Goes on with a suspended call, with the IP layer's answer if it waits for one. -/
def Engine.goOn (e : Engine) (t : Clock) (answer : Except Error Unit) : Suspended → Turn
  | .sending rest => e.sent t answer rest
  | .sleeping rest => e.woken t rest

theorem resumes_goOn (e : Engine) (t : Clock) (answer : Except Error Unit) (f : Suspended) :
    Resumes e t f (e.goOn t answer f) := by
  cases f with
  | sending rest => exact .sent answer rest
  | sleeping rest => exact .woken rest

/-- The echo that the IP layer has been given. -/
def Suspended.echo? : Suspended → Option EchoKey
  | .sending (.polled key) => some key
  | .sending (.pinged run) => some run.key
  | _ => none

theorem agrees_goOn {f : Suspended} {answer : Except Error Unit} (h : e.Agrees now e')
    (hsolo : ∀ run, f.run? = some run → e.owns run.identifier → e.Solo f.awaited?)
    (hnow : now ≤ t.now)
    (hfresh : ∀ cause key, answer = .error cause → f.echo? = some key → e.Fresh now key) :
    Turn.Agrees now (e.goOn t answer f) (e'.goOn t answer f) := by
  cases f with
  | sending rest =>
    cases rest with
    | message kind destination =>
      cases answer with
      | ok _ => exact .done (h.count _ _) _ _
      | error cause => exact .done (h.idle _ _ _ _) _ _
    | polled key =>
      cases answer with
      | ok _ => exact .done (h.count _ _) _ _
      | error cause => exact .done (h.dropEcho (hfresh cause key rfl rfl) cause) _ _
    | pinged run =>
      cases answer with
      | ok _ => exact .await (h.count _ _) hnow run
      | error cause =>
        have hdrop := h.dropEcho (hfresh cause run.key rfl rfl) cause
        refine .proceed hdrop (fun howns => hdrop.pending_eq_of_empty ?_) t
        rw [Engine.owns, Engine.session_dropEcho] at howns
        have hrun : e.Solo (some run.key) := hsolo run rfl howns
        exact hrun.dropEcho cause
  | sleeping rest =>
    cases rest with
    | awaiting run => exact .await h hnow run
    | pausing run =>
      refine .attempt h (fun howns => h.pending_eq_of_empty ?_) t
      have hrun : e.Solo none := hsolo run rfl howns
      exact hrun.entries

/-! ## Runs -/

namespace World

variable {w v : World} {c : Call} {config : Ping.Config} {f : Frame} {answer : Except Error Unit}

/-- The world after the suspended call at a place of the list has gone on. -/
def resume (w : World) (i : Nat) (t : Clock) (answer : Except Error Unit) : World :=
  match w.frames[i]? with
  | none => w
  | some f =>
    let turn := w.engine.goOn t answer f.call
    { w with engine := turn.engine, frames := suspend (w.frames.eraseIdx i) turn f.born }

/-- From some point on the world `v` comes about as `w` does, with more sweeps.  The clock reads
`now` in both.  From that point on no error message comes in for an echo past its timeout, and no
echo is past its timeout when the IP layer refuses it. -/
inductive Swept (config : Ping.Config) : World → World → Instant → Prop where
  | start {w : World} (h : Reach config FewStarts w) (now : Instant) : Swept config w w now
  | call {w v : World} {now later : Instant} {t : Clock} (h : Swept config w v now) (c : Call)
      (hruns : t.Runs now later)
      (hfresh : ∀ key, c.reported? = some key → w.engine.Fresh t.now key)
      (hfew : (w.call c t).FewStarts) : Swept config (w.call c t) (v.call c t) later
  | resume {w v : World} {now later : Instant} {t : Clock} {i : Nat} {f : Frame}
      (h : Swept config w v now) (answer : Except Error Unit) (hruns : t.Runs now later)
      (hframe : w.frames[i]? = some f)
      (hfresh : ∀ cause key, answer = .error cause → f.call.echo? = some key →
        w.engine.Fresh t.now key) :
    Swept config (w.resume i t answer) (v.resume i t answer) later
  | sweep {w v : World} {now later : Instant} (h : Swept config w v now) (hle : now ≤ later) :
    Swept config w { v with engine := v.engine.sweep later } later

/-- The worlds differ in nothing but the engine, and the engines agree. -/
structure Agrees (now : Instant) (w v : World) : Prop where
  engine : w.engine.Agrees now v.engine
  rest : v = { w with engine := v.engine }

theorem Agrees.mono (h : Agrees now w v) (hle : now ≤ later) : Agrees later w v :=
  ⟨h.engine.mono hle, h.rest⟩

theorem suspend_of_agrees {turn turn' : Turn} (h : turn.Agrees now turn') (frames : List Frame)
    (born : Nat) : suspend frames turn' born = suspend frames turn born := by
  unfold suspend
  rw [h.suspended]

theorem Agrees.call (h : Agrees now w v) (hconserves : Conserves w.mode w.refused w.engine)
    (hnow : ∀ n, now ≤ t.reading n)
    (hfresh : ∀ key, c.reported? = some key → w.engine.Fresh now key) :
    Agrees now (w.call c t) (v.call c t) := by
  obtain ⟨hengine, hrest⟩ := h
  have hturn := agrees_start hengine
    (fun hidle => hengine.pending_eq_of_empty (hconserves.entries_of_idle hidle)) hnow hfresh
  have hrefuses := hengine.refuses (hnow 0)
  rw [hrest]
  generalize v.engine = e' at hengine hturn hrefuses
  refine ⟨?_, ?_⟩
  · rw [engine_call, engine_call]
    exact hturn.engine
  · unfold World.call
    simp only [hturn.engine.identifiersUsed, hengine.identifiersUsed, suspend_of_agrees hturn,
      hrefuses]
    by_cases hkeeps : (w.engine.start t c).engine.identifiersUsed = w.engine.identifiersUsed
    · simp only [hkeeps, ne_eq, not_true_eq_false, if_false]
    · simp only [hkeeps, ne_eq, not_false_eq_true, if_true]

/-- A frame whose run may go on with the session has its echo in flight and no other. -/
theorem Reach.solo_of_owns (h : Reach config FewStarts w) {f : Frame} (hf : f ∈ w.frames)
    {run : Run} (hrun : f.call.run? = some run) (howns : w.engine.owns run.identifier) :
    w.engine.Solo f.call.awaited? := by
  obtain ⟨s, hs, hidentifier⟩ := (w.engine.owns_iff _).1 howns
  have hlast := h.isolated.born_of_identifier h.few hf hrun hs hidentifier
  have hmem : f ∈ w.runs := mem_runs.2 ⟨hf, hlast, by rw [hrun]; rfl⟩
  exact h.solo.awaited s hs (h.solo.blocking f hmem s hs) f hmem

theorem resume_of_frame {i : Nat} (hframe : w.frames[i]? = some f) :
    w.resume i t answer =
      { w with
        engine := (w.engine.goOn t answer f.call).engine
        frames := suspend (w.frames.eraseIdx i) (w.engine.goOn t answer f.call) f.born } := by
  rw [resume, hframe]

theorem Agrees.resume {i : Nat} (h : Agrees now w v) (hreach : Reach config FewStarts w)
    (hnow : now ≤ t.now) (hframe : w.frames[i]? = some f)
    (hfresh : ∀ cause key, answer = .error cause → f.call.echo? = some key →
      w.engine.Fresh now key) :
    Agrees now (w.resume i t answer) (v.resume i t answer) := by
  obtain ⟨hengine, hrest⟩ := h
  have hturn := agrees_goOn hengine
    (fun run hrun => hreach.solo_of_owns (List.mem_of_getElem? hframe) hrun) hnow hfresh
  rw [hrest]
  generalize v.engine = e' at hengine hturn
  rw [resume_of_frame hframe, resume_of_frame (w := { w with engine := e' }) hframe,
    suspend_of_agrees hturn]
  exact ⟨hturn.engine, rfl⟩

theorem Reach.resume {i : Nat} (h : Reach config FewStarts w) (hframe : w.frames[i]? = some f) :
    Reach config FewStarts (w.resume i t answer) := by
  have hframes : w.frames = w.frames.take i ++ f :: w.frames.drop (i + 1) := by
    obtain ⟨hlt, rfl⟩ := List.getElem?_eq_some_iff.1 hframe
    rw [← List.drop_eq_getElem_cons hlt, List.take_append_drop]
  rw [resume_of_frame hframe, List.eraseIdx_eq_take_drop_succ]
  refine .step h (.resume hframes (resumes_goOn w.engine t answer f.call)) fun g hg => ?_
  rcases mem_suspend hg with hg | ⟨hborn, -⟩
  · rw [← List.eraseIdx_eq_take_drop_succ] at hg
    exact h.few g (List.mem_of_mem_eraseIdx hg)
  · rw [hborn]
    exact h.few f (List.mem_of_getElem? hframe)

theorem Swept.reach (h : Swept config w v now) : Reach config FewStarts w := by
  induction h with
  | start h now => exact h
  | call h c hruns hfresh hfew ih => exact .step ih (.call _ c _) hfew
  | resume h answer hruns hframe hfresh ih => exact ih.resume hframe
  | sweep h hle ih => exact ih

theorem Swept.agrees (h : Swept config w v now) : Agrees now w v := by
  induction h with
  | start h now => exact ⟨.refl now _, rfl⟩
  | call h c hruns hfresh hfew ih =>
    exact ((ih.mono hruns.first_le).call h.reach.conserves hruns.now_le_reading hfresh).mono
      (hruns.le_last 0)
  | resume h answer hruns hframe hfresh ih =>
    exact ((ih.mono hruns.first_le).resume h.reach (UInt64.le_refl _) hframe hfresh).mono
      (hruns.le_last 0)
  | sweep h hle ih => exact ⟨ih.engine.sweep_right hle, by rw [ih.rest]⟩

/-- Two runs of the engine that differ in their sweeps only keep to the same calls and the same
session.  The one has counted as lost what the other has still in flight, and nothing else is
different in their statistics.  Once the session has ended they are the same. -/
theorem fate_by_age (h : Swept config w v now) :
    v.frames = w.frames ∧ v.engine.session = w.engine.session ∧
      v.engine.statistics = Ping.Statistics.recordLost^[
        w.engine.pending.count - v.engine.pending.count] w.engine.statistics ∧
      (w.engine.session = none → v.engine.statistics = w.engine.statistics) := by
  obtain ⟨hengine, hrest⟩ := h.agrees
  have hsession := hengine.session
  obtain ⟨chosen, counters, journal, -, hlost⟩ := hengine
  have hconserves := h.reach.conserves
  have hcount := w.engine.pending.count_remove chosen
  have hstatistics : v.engine.statistics = Ping.Statistics.recordLost^[
      w.engine.pending.count - v.engine.pending.count] w.engine.statistics := by
    have hpending : v.engine.pending = (w.engine.pending.remove chosen).1 := by
      rw [hlost]
      rfl
    rw [hpending, hcount, Nat.add_sub_cancel_left, ← Engine.owned_eq_length hconserves.owned, hlost]
    rfl
  refine ⟨by rw [hrest], hsession, hstatistics, fun hidle => ?_⟩
  have hempty : w.engine.pending.count = 0 :=
    PendingTable.count_eq_zero_iff.2 (hconserves.entries_of_idle hidle)
  rw [hstatistics, hempty, Nat.zero_sub]
  rfl

/-- An answer comes in too late.  Whether the table was swept before or not, the echo is lost. -/
theorem late_reply_is_lost :
    let host : Address := ⟨10, 0, 2, 2⟩
    let reply := Packet.echo .echoReply ⟨38348, 0, []⟩
    let ready : World := ({ engine := .new {} } : World).call .init (.still 7)
    let first := ready.call (.startPingWith host { timeout := 100 }) (.still 7)
    let sent := first.resume 0 (.still 7) (.ok ())
    let swept : World := { sent with engine := sent.engine.sweep 108 }
    let w := (sent.call (.input host reply) (.still 120)).call .stopPing (.still 300)
    let v := (swept.call (.input host reply) (.still 120)).call .stopPing (.still 300)
    v.engine.statistics = w.engine.statistics ∧ w.engine.statistics.lost = 1 := by
  intro host reply ready first sent swept w v
  have hfirst : Reach {} FewStarts first :=
    .step (.step .new (.call _ .init _) (by decide)) (.call ready _ _) (by decide)
  have hsuspended : first.frames[0]?.isSome := by decide
  obtain ⟨f, hframe⟩ := Option.isSome_iff_exists.1 hsuspended
  have hsent : Swept {} sent sent 7 :=
    (Swept.start hfirst 7).resume (.ok ()) (.still (UInt64.le_refl 7)) hframe nofun
  have hswept : Swept {} sent swept 108 := hsent.sweep (by decide)
  have hinput : Swept {} (sent.call (.input host reply) (.still 120))
      (swept.call (.input host reply) (.still 120)) 120 := by
    have hnone : (Call.input host reply).reported? = none := by decide
    refine hswept.call (.input host reply) (.still (by decide)) (fun key hkey => ?_) (by decide)
    rw [hnone] at hkey
    cases hkey
  have hstopped : Swept {} w v 300 :=
    hinput.call .stopPing (.still (by decide)) nofun (by decide)
  exact ⟨(fate_by_age hstopped).2.2.2 (by decide), by decide⟩

/-- An error message that comes in too late, for one. -/
theorem late_report_is_error :
    let host : Address := ⟨10, 0, 2, 2⟩
    let header : Bytes := [0x45, 0, 0, 28, 0, 0, 0, 0, 64, 1, 0, 0, 10, 0, 2, 15, 10, 0, 2, 2]
    let report := Packet.report .unreachable
      ⟨1, header ++ Packet.echo .echoRequest ⟨38348, 0, []⟩⟩
    let ready : World := ({ engine := .new {} } : World).call .init (.still 7)
    let first := ready.call (.startPingWith host { timeout := 100 }) (.still 7)
    let sent := first.resume 0 (.still 7) (.ok ())
    let swept : World := { sent with engine := sent.engine.sweep 120 }
    let w := (sent.call (.input host report) (.still 120)).call .stopPing (.still 300)
    let v := (swept.call (.input host report) (.still 120)).call .stopPing (.still 300)
    (w.engine.statistics.lost = 0 ∧ w.engine.statistics.errors = 1) ∧
      v.engine.statistics.lost = 1 ∧ v.engine.statistics.errors = 0 := by
  decide +kernel

end World

end NetHost.Icmp
