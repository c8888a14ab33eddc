import Mathlib.Data.List.Perm.Subperm
import Mathlib.Tactic.Common
import NetHost.Proofs.Icmp.Blocking
import NetHost.Proofs.Icmp.Conservation
import NetHost.Proofs.Icmp.Ownership
import NetHost.Proofs.Icmp.Tries

/-!
# A blocking session has one echo in flight at the most

A blocking session is run by one suspended call, and all that it has in flight is the echo which
that call waits for (`World.Solo`, `Reach.solo`).

* The run of a session makes turns that leave the engine so (`Turn.Solo`).
* No other step puts an echo into the table, apart from polls of continuous sessions
  (`World.Calm`, `calm_call`, `calm_resume`).
-/

namespace NetHost.Icmp

open Ipv4 (Address)

variable {e e' : Engine} {t : Clock} {turn : Turn} {n : Nat}

/-! ## Moves that add no echo -/

/-- No echo may get into the table. -/
def NoEcho (_ : Ping.Session) (_ : EchoKey) (_ : UInt32) : Prop := False

theorem Move.subperm (h : Move NoEcho e e') :
    e'.pending.entries.Subperm e.pending.entries := by
  cases h with
  | idle counters journal => exact .refl _
  | sweep now =>
    rw [Engine.pending_sweep]
    exact e.pending.subperm_remove _
  | advance now hs => exact .refl _
  | register hs hkey h => exact hkey.elim
  | reply rtt h =>
    rw [Engine.recordReply_eq]
    exact PendingTable.subperm_of_take? h
  | fail h =>
    rw [Engine.recordError_eq]
    exact PendingTable.subperm_of_take? h
  | finish now =>
    cases hs : e.session with
    | none =>
      rw [Engine.finishSession_of_none hs]
    | some s =>
      rw [Engine.finishSession_of_some hs]
      exact e.pending.subperm_remove _

theorem Moves.subperm (h : Moves NoEcho n e e') :
    e'.pending.entries.Subperm e.pending.entries := by
  induction h with
  | refl e => exact .refl _
  | move hs h ih => exact h.subperm.trans ih
  | refuse hs h hmode ih =>
    rw [Engine.recordError_eq]
    exact ih

/-! ## Turns of the run of a session -/

/-- The echo that a suspended call waits for. -/
def Suspended.awaited? : Suspended → Option EchoKey
  | .sending (.pinged run) => some run.key
  | .sleeping (.awaiting run) => some run.key
  | _ => none

/-- All that is in flight is the echo that the call waits for. -/
structure Engine.Solo (awaited? : Option EchoKey) (e : Engine) : Prop where
  count_le : e.pending.entries.length ≤ 1
  awaited : ∀ p ∈ e.pending.entries, awaited? = some p.key

/-- The turn ends the call with nothing in flight, or suspends it with its echo only. -/
def Turn.Solo (turn : Turn) : Prop := turn.engine.Solo (turn.suspended?.bind Suspended.awaited?)

namespace Engine.Solo

variable {awaited? : Option EchoKey} {run : Run}

theorem of_empty (h : e.pending.entries = []) : Solo awaited? e := by
  refine ⟨?_, ?_⟩
  · rw [h]
    exact Nat.zero_le 1
  · rw [h]
    nofun

theorem entries (h : Solo none e) : e.pending.entries = [] :=
  List.eq_nil_iff_forall_not_mem.2 fun p hp => nomatch h.awaited p hp

theorem of_subperm (h : Solo awaited? e)
    (hsub : e'.pending.entries.Subperm e.pending.entries) : Solo awaited? e' :=
  ⟨Nat.le_trans hsub.length_le h.count_le, fun p hp => h.awaited p (hsub.subset hp)⟩

theorem conclude (h : e.pending.entries = []) (t : Clock) (run : Run) :
    (e.conclude t run).Solo := by
  have hleads : Leads NoEcho 0 e none (e.conclude t run) := .conclude (.refl e) t run
  refine of_empty (List.subperm_nil.1 ?_)
  rw [← h]
  exact hleads.moves.subperm

/-- With nothing in flight the next echo is sent, or the call sleeps or ends. -/
theorem attempt (h : e.pending.entries = []) (t : Clock) (run : Run) :
    (e.attempt t run).Solo := by
  unfold Engine.attempt
  split_ifs
  · split
    · have hmoves : Moves NoEcho 0 e (e.endSession t.later.now run.identifier) :=
        (Moves.refl e).endSession _ _
      refine of_empty (List.subperm_nil.1 ?_)
      rw [← h]
      exact hmoves.subperm
    · rename_i e' hregister
      obtain ⟨pending, hallocate, rfl⟩ := register_eq_ok hregister
      have hperm := PendingTable.perm_entries_of_allocate hallocate
      rw [h] at hperm
      have hentries := List.perm_singleton.1 hperm
      refine ⟨?_, fun p hp => ?_⟩
      · show pending.entries.length ≤ 1
        rw [hentries]
        exact Nat.le_refl 1
      · rw [Turn.engine, hentries] at hp
        rw [List.mem_singleton.1 hp]
        rfl
  · exact conclude h t.later run
  · exact of_empty h

theorem proceed (h : e.pending.entries = []) (t : Clock) (run : Run) :
    (e.proceed t run).Solo := by
  unfold Engine.proceed
  split_ifs
  · exact conclude h t run
  · exact attempt h t run.next
  · exact of_empty h

theorem await (h : Solo (some run.key) e) (t : Clock) : (e.await t run).Solo := by
  have hsweep : Solo (some run.key) (e.sweep t.now) := by
    refine h.of_subperm ?_
    rw [pending_sweep]
    exact e.pending.subperm_remove _
  simp only [Engine.await]
  split_ifs with hcontains
  · exact hsweep
  · refine proceed (List.eq_nil_iff_forall_not_mem.2 fun p hp => hcontains ?_) t.later run
    exact PendingTable.contains_iff.2 ⟨p, hp, (Option.some_inj.1 (hsweep.awaited p hp)).symm⟩

theorem dropEcho (h : Solo (some run.key) e) (cause : Error) :
    (e.dropEcho run.key cause).pending.entries = [] := by
  simp only [Engine.dropEcho, Engine.note]
  split
  · rename_i p pending htake
    have hlength : e.pending.entries.length = pending.entries.length + 1 :=
      (PendingTable.perm_entries_of_take? htake).2.length_eq
    have hle : e.pending.entries.length ≤ 1 := h.count_le
    have hempty : pending.entries = [] := by
      apply List.eq_nil_of_length_eq_zero
      omega
    rw [recordError_eq]
    exact hempty
  · rename_i htake
    refine List.eq_nil_iff_forall_not_mem.2 fun p hp => ?_
    exact PendingTable.take?_eq_none_iff.1 htake p hp (Option.some_inj.1 (h.awaited p hp)).symm

theorem resumes {f : Suspended} (h : Solo f.awaited? e) (hrun : f.run?.isSome)
    (hturn : Resumes e t f turn) : turn.Solo := by
  cases hturn with
  | sent answer rest =>
    cases rest with
    | message kind destination => cases hrun
    | polled key => cases hrun
    | pinged run =>
      cases answer with
      | ok _ =>
        have hcount : Solo (some run.key) (e.countSent .echoRequest) := ⟨h.count_le, h.awaited⟩
        exact hcount.await t
      | error cause =>
        have h : Solo (some run.key) e := h
        exact proceed (h.dropEcho cause) t run
  | woken rest =>
    cases rest with
    | awaiting run =>
      have h : Solo (some run.key) e := h
      exact h.await t
    | pausing run =>
      have h : Solo none e := h
      exact attempt h.entries t run

/-- A call that starts a blocking session goes on as its run. -/
theorem pingWith (h : e.pending.entries = []) (t : Clock) (destination : Address)
    (config : Ping.Config) : (e.pingWith t destination config).Solo := by
  simp only [Engine.pingWith]
  split_ifs
  · exact of_empty h
  · rcases beginSession_cases e t.now destination .blocking config.normalized_normalized with
      ⟨cause, journal, hbegin⟩ | ⟨s, -, -, -, -, hbegin⟩
    · rw [hbegin]
      exact of_empty h
    · have hbegun (note : Note) : ((e.begun s).note note).pending.entries = [] := h
      rw [hbegin]
      exact attempt (hbegun _) t.later _

end Engine.Solo

/-- A call that starts a continuous session is not its run. -/
theorem run?_startPingWith (e : Engine) (t : Clock) (destination : Address) (config : Ping.Config)
    {call : Suspended}
    (hcall : (e.startPingWith t destination config).suspended? = some call) :
    call.run? = none := by
  have hnone {e₁ : Engine} {turn : Turn} {n : Nat} (h : Leads HasIdentifier n e₁ none turn)
      (hcall : turn.suspended? = some call) : call.run? = none := by
    refine Option.eq_none_iff_forall_ne_some.2 fun run hrun => ?_
    obtain ⟨_, h, -⟩ := h.run call run hcall hrun
    cases h
  simp only [Engine.startPingWith] at hcall
  split_ifs at hcall
  · cases hcall
  · rcases beginSession_cases e t.now destination .continuous config.normalized_normalized with
      ⟨cause, journal, hbegin⟩ | ⟨s, -, -, -, -, hbegin⟩
    · rw [hbegin] at hcall
      cases hcall
    · rw [hbegin] at hcall
      exact hnone (leads_poll (fun _ _ => rfl) (.refl _) t.later) hcall

/-! ## Steps -/

namespace World

variable {w w' : World} {c : Option Call} {config : Ping.Config}

/-- The suspended calls that run the session which was started last. -/
def runs (w : World) : List Frame :=
  w.frames.filter fun f => f.born + 1 = w.starts ∧ f.call.run?.isSome

theorem mem_runs {f : Frame} :
    f ∈ w.runs ↔ f ∈ w.frames ∧ f.born + 1 = w.starts ∧ f.call.run?.isSome := by
  rw [runs, List.mem_filter, decide_eq_true_eq]

/-- One call runs the session if it is a blocking one, and has no more in flight than the echo it
waits for. -/
structure Solo (w : World) : Prop where
  one : w.runs.length ≤ 1
  blocking : ∀ f ∈ w.runs, ∀ s, w.engine.session = some s → s.mode = .blocking
  count_le : ∀ s, w.engine.session = some s → s.mode = .blocking →
    w.engine.pending.entries.length ≤ 1
  awaited : ∀ s, w.engine.session = some s → s.mode = .blocking →
    ∀ f ∈ w.runs, w.engine.Solo f.call.awaited?

/-- No echo gets into the table, and the session stays as it is or ends. -/
structure Calm (w w' : World) : Prop where
  entries : w'.engine.pending.entries.Subperm w.engine.pending.entries
  session : w'.engine.session = w.engine.session ∨ w'.engine.session = none
  runs : w'.runs = w.runs

theorem Calm.session_eq_some (h : Calm w w') {s : Ping.Session}
    (hs : w'.engine.session = some s) : w.engine.session = some s := by
  rcases h.session with heq | hnone
  · rw [← heq, hs]
  · rw [hnone] at hs
    cases hs

theorem Solo.calm (h : Solo w) (hcalm : Calm w w') : Solo w' := by
  refine ⟨?_, ?_, fun s hs hmode => ?_, fun s hs hmode => ?_⟩
  · rw [hcalm.runs]
    exact h.one
  · rw [hcalm.runs]
    exact fun f hf s hs => h.blocking f hf s (hcalm.session_eq_some hs)
  · exact Nat.le_trans hcalm.entries.length_le (h.count_le s (hcalm.session_eq_some hs) hmode)
  · rw [hcalm.runs]
    exact fun f hf =>
      (h.awaited s (hcalm.session_eq_some hs) hmode f hf).of_subperm hcalm.entries

/-- A turn that suspends no run of the last session. -/
theorem filter_suspend {frames : List Frame} {born : Nat} {chosen : Frame → Bool}
    (h : ∀ call, turn.suspended? = some call → chosen ⟨call, born⟩ = false) :
    (suspend frames turn born).filter chosen = frames.filter chosen := by
  unfold suspend
  split
  · rfl
  · exact List.filter_cons_of_neg (by simp [h _ ‹_›])

/-- A call that starts no session makes moves only, and suspends no run. -/
theorem leads_of_starts {R : Ping.Session → EchoKey → UInt32 → Prop} (hR : AdmitsOwn R) {c : Call}
    (hinit : c ≠ .init) (hstarts : (w.call c t).starts = w.starts) :
    ∃ n, Leads R n w.engine none (w.engine.start t c) := by
  rcases leads_start hR w.engine t hinit with hleads | ⟨mode, -, s, n, run?, -, -, hleads, -, -⟩
  · exact ⟨_, hleads⟩
  · have hused : _ = w.engine.identifiersUsed + 1 := hleads.moves.keeps.2
    rw [identifiersUsed_of_starts hstarts] at hused
    simp at hused

theorem runs_call {c : Call} (hinit : c ≠ .init) (hstarts : (w.call c t).starts = w.starts) :
    (w.call c t).runs = w.runs := by
  obtain ⟨n, hleads⟩ := leads_of_starts (R := HasIdentifier) (fun _ _ => rfl) hinit hstarts
  rw [runs, frames_call, hstarts]
  refine filter_suspend fun call hcall => ?_
  cases hrun : call.run? with
  | none => simp
  | some run =>
    obtain ⟨_, h, -⟩ := hleads.run call run hcall hrun
    cases h

theorem calm_call (hconserves : Conserves w.mode w.refused w.engine) {c : Call}
    (hinit : c ≠ .init) (hstarts : (w.call c t).starts = w.starts)
    (hpoll : c = .poll → ∀ s, w.engine.session = some s → s.mode = .blocking) :
    Calm w (w.call c t) := by
  obtain ⟨n, hleads⟩ := leads_of_starts (R := HasIdentifier) (fun _ _ => rfl) hinit hstarts
  have hruns := runs_call (t := t) hinit hstarts
  have haside (h : Aside w.engine (w.engine.start t c)) : Calm w (w.call c t) := by
    have hmoves : Moves NoEcho 0 w.engine (w.call c t).engine := by
      rw [engine_call]
      exact (Moves.refl _).settles h.settles
    refine ⟨hmoves.subperm, .inl ?_, hruns⟩
    rw [engine_call]
    exact h.settles.session
  cases hs : w.engine.session with
  | none =>
    obtain ⟨hidle, -⟩ := hleads.moves.statistics_of_idle hs
    have hempty := (hconserves.moves hleads.moves).entries_of_idle hidle
    refine ⟨?_, .inr ?_, hruns⟩
    · rw [engine_call, hempty]
      exact List.nil_subperm
    · rw [engine_call]
      exact hidle
  | some s =>
    by_cases hblocking : s.mode = .blocking
    · exact haside (.start hs hblocking t hinit)
    · have hne : c ≠ .poll := fun h => hblocking (hpoll h s hs)
      by_cases hstop : c = .stopPing
      · subst hstop
        have hstop : Leads NoEcho 0 w.engine none (w.engine.stopPing t) :=
          leads_stopPing (.refl w.engine) t
        refine ⟨?_, ?_, hruns⟩
        · rw [engine_call]
          exact hstop.moves.subperm
        · rw [engine_call]
          exact (rests_stopPing w.engine t).stands.session
      · exact haside (.start_of_running hs t hinit hne hstop)

/-- A call that does not run the last session has no echo of it to send. -/
theorem calm_resume (hisolated : Isolated w) (hfew : w.FewStarts) {before after : List Frame}
    {f : Frame} (hframes : w.frames = before ++ f :: after)
    (hf : ¬ (f.born + 1 = w.starts ∧ f.call.run?.isSome)) (hturn : Resumes w.engine t f.call turn) :
    Calm w
      { w with engine := turn.engine, frames := suspend (before ++ after) turn f.born } := by
  have hleads : Leads NoEcho 0 w.engine f.call.run? turn := by
    refine leads_resumes hturn fun run hrun s hs hidentifier sequence => ?_
    refine hf ⟨hisolated.born_of_identifier hfew (mem_frames hframes) hrun hs hidentifier, ?_⟩
    rw [hrun]
    rfl
  refine ⟨hleads.moves.subperm, (rests_resumes hturn).stands.session, ?_⟩
  rw [runs, runs, hframes]
  dsimp only
  rw [filter_suspend fun call hcall => ?_, List.filter_append, List.filter_append,
    List.filter_cons_of_neg (by simpa using hf)]
  rw [decide_eq_false_iff_not]
  intro ⟨hborn, hsome⟩
  obtain ⟨run', hrun'⟩ := Option.isSome_iff_exists.1 hsome
  obtain ⟨run, hrun, -⟩ := hleads.run call run' hcall hrun'
  exact hf ⟨hborn, by rw [hrun]; rfl⟩

/-- The frame that a turn adds is the only one left of its kind. -/
theorem mem_filter_suspend {frames : List Frame} {chosen : Frame → Bool}
    (h : frames.filter chosen = []) (turn : Turn) (born : Nat) :
    ((suspend frames turn born).filter chosen).length ≤ 1 ∧
      ∀ f ∈ (suspend frames turn born).filter chosen, turn.suspended? = some f.call := by
  unfold suspend
  split
  · rw [h]
    exact ⟨Nat.zero_le 1, nofun⟩
  · rename_i call hcall
    rw [List.filter_cons, h]
    split_ifs
    · refine ⟨Nat.le_refl 1, fun f hf => ?_⟩
      rw [List.mem_singleton.1 hf]
      exact hcall
    · exact ⟨Nat.zero_le 1, nofun⟩

theorem Solo.resume (h : Solo w) (hconserves : Conserves w.mode w.refused w.engine)
    {before after : List Frame} {f : Frame} (hframes : w.frames = before ++ f :: after)
    (hf : f.born + 1 = w.starts ∧ f.call.run?.isSome) (hturn : Resumes w.engine t f.call turn) :
    Solo { w with engine := turn.engine, frames := suspend (before ++ after) turn f.born } := by
  have hone := h.one
  have hmem : f ∈ w.runs := mem_runs.2 ⟨mem_frames hframes, hf⟩
  have hrest : (before ++ after).filter
      (fun g => g.born + 1 = w.starts ∧ g.call.run?.isSome) = [] := by
    rw [runs, hframes, List.filter_append, List.filter_cons_of_pos (by simpa using hf),
      List.length_append, List.length_cons] at hone
    rw [List.filter_append]
    exact List.append_eq_nil_iff.2 ⟨List.eq_nil_of_length_eq_zero (by omega),
      List.eq_nil_of_length_eq_zero (by omega)⟩
  obtain ⟨hone', hnew⟩ := mem_filter_suspend hrest turn f.born
  have hblocking (s : Ping.Session) (hs : turn.engine.session = some s) : s.mode = .blocking :=
    h.blocking f hmem s ((rests_resumes hturn).stands.session_eq_some hs)
  have hengine : w.engine.Solo f.call.awaited? := by
    cases hs : w.engine.session with
    | none => exact .of_empty (hconserves.entries_of_idle hs)
    | some s => exact h.awaited s hs (h.blocking f hmem s hs) f hmem
  have hsolo : turn.Solo := hengine.resumes hf.2 hturn
  refine ⟨hone', fun g _ => hblocking, fun _ _ _ => hsolo.count_le, fun _ _ _ g hg => ?_⟩
  rw [Turn.Solo, hnew g hg] at hsolo
  exact hsolo

theorem solo_opens (hisolated : Isolated w) (hconserves : Conserves w.mode w.refused w.engine)
    {c : Call} (hinit : c ≠ .init) (hstarts : (w.call c t).starts ≠ w.starts) :
    Solo (w.call c t) := by
  rcases leads_start (R := HasIdentifier) (fun _ _ => rfl) w.engine t hinit with
    hleads | ⟨mode, hmode, s, n, run?, hopens, hsmode, hleads, -, -⟩
  · rw [call_of_keeps hleads.moves.keeps.2] at hstarts
    exact absurd rfl hstarts
  rw [call_of_opens hleads.moves.keeps.2]
  have hempty := hconserves.entries_of_idle hopens.idle
  -- The runs of earlier sessions stay behind.
  have hrest : w.frames.filter
      (fun g => g.born + 1 = w.starts + 1 ∧ g.call.run?.isSome) = [] := by
    refine List.filter_eq_nil_iff.2 fun g hg hchosen => ?_
    simp only [decide_eq_true_eq] at hchosen
    obtain ⟨run, hrun⟩ := Option.isSome_iff_exists.1 hchosen.2
    have hborn := (hisolated.frames g hg run hrun).1
    omega
  obtain ⟨hone, hnew⟩ := mem_filter_suspend hrest (w.engine.start t c) w.starts
  have hsession (s' : Ping.Session) (hs' : (w.engine.start t c).engine.session = some s') :
      s'.mode = mode := by
    obtain ⟨_, ⟨⟩, hsame⟩ := hleads.moves.session hs'
    exact hsame.mode.trans hsmode
  cases mode with
  | blocking =>
    have hsolo : (w.engine.start t c).Solo := by
      cases c with
      | ping destination count timeout => exact .pingWith hempty t destination _
      | pingWith destination config => exact .pingWith hempty t destination config
      | _ => cases hmode
    refine ⟨hone, fun _ _ => hsession, fun _ _ _ => hsolo.count_le, fun _ _ _ g hg => ?_⟩
    rw [Turn.Solo, hnew g hg] at hsolo
    exact hsolo
  | continuous =>
    have hrun {call : Suspended} (hcall : (w.engine.start t c).suspended? = some call) :
        call.run? = none := by
      cases c with
      | startPing destination => exact run?_startPingWith w.engine t destination _ hcall
      | startPingWith destination config =>
        exact run?_startPingWith w.engine t destination config hcall
      | _ => cases hmode
    have hmode' (s' : Ping.Session) (hs' : (w.engine.start t c).engine.session = some s')
        (hblocking : s'.mode = .blocking) : False := by
      rw [hsession s' hs'] at hblocking
      cases hblocking
    refine ⟨hone, fun g hg => ?_, fun s' hs' hb => (hmode' s' hs' hb).elim,
      fun s' hs' hb => (hmode' s' hs' hb).elim⟩
    have hsome := (mem_runs.1 hg).2.2
    rw [hrun (hnew g hg)] at hsome
    cases hsome

/-- A continuous session has no run, and may have any number of echoes in flight. -/
theorem Solo.continuous (h : Solo w) {c : Call} (hinit : c ≠ .init)
    (hstarts : (w.call c t).starts = w.starts)
    (hblocking : ¬ ∀ s, w.engine.session = some s → s.mode = .blocking) : Solo (w.call c t) := by
  obtain ⟨n, hleads⟩ := leads_of_starts (R := HasIdentifier) (fun _ _ => rfl) hinit hstarts
  have hmode (s' : Ping.Session) (hs' : (w.call c t).engine.session = some s')
      (hblocking' : s'.mode = .blocking) : False := by
    rw [engine_call] at hs'
    obtain ⟨s, hs, hsame⟩ := hleads.moves.session hs'
    refine hblocking fun s₁ hs₁ => ?_
    cases hs.symm.trans hs₁
    rw [← hsame.mode, hblocking']
  have hnone : w.runs = [] := by
    refine List.eq_nil_iff_forall_not_mem.2 fun f hf => hblocking (h.blocking f hf)
  have hruns := (runs_call (t := t) hinit hstarts).trans hnone
  refine ⟨?_, ?_, fun s' hs' hb => (hmode s' hs' hb).elim, fun s' hs' hb => (hmode s' hs' hb).elim⟩
  · rw [hruns]
    exact Nat.zero_le 1
  · rw [hruns]
    nofun

/-- Only a session has echoes in flight. -/
theorem Solo.of_idle (hone : w.runs.length ≤ 1) (hidle : w.engine.session = none) : Solo w := by
  have hnot (s : Ping.Session) (hs : w.engine.session = some s) : False := by
    rw [hidle] at hs
    cases hs
  exact ⟨hone, fun _ _ s hs => (hnot s hs).elim, fun s hs => (hnot s hs).elim,
    fun s hs => (hnot s hs).elim⟩

theorem solo_of_step (h : Solo w) (hisolated : Isolated w) (hfew : w.FewStarts)
    (hconserves : Conserves w.mode w.refused w.engine) (hstep : Step w c w') : Solo w' := by
  cases hstep with
  | call c t =>
    by_cases hinit : c = .init
    · subst hinit
      have hruns : (w.call .init t).runs = w.runs := by
        rw [call_of_keeps rfl]
        rfl
      refine .of_idle (hruns ▸ h.one) ?_
      rw [engine_call]
      rfl
    · by_cases hstarts : (w.call c t).starts = w.starts
      · by_cases hblocking : ∀ s, w.engine.session = some s → s.mode = .blocking
        · exact h.calm (calm_call hconserves hinit hstarts fun _ => hblocking)
        · exact h.continuous hinit hstarts hblocking
      · exact solo_opens hisolated hconserves hinit hstarts
  | @resume before after f t turn hframes hturn =>
    by_cases hf : f.born + 1 = w.starts ∧ f.call.run?.isSome
    · exact h.resume hconserves hframes hf hturn
    · exact h.calm (calm_resume hisolated hfew hframes hf hturn)

theorem Reach.solo (h : Reach config FewStarts w) : Solo w := by
  induction h with
  | new => exact .of_idle (Nat.zero_le 1) rfl
  | step hreach hstep _ ih =>
    exact solo_of_step ih hreach.isolated hreach.few hreach.conserves hstep

end World

end NetHost.Icmp
