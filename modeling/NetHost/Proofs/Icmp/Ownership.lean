import Mathlib.Data.Nat.ModEq
import NetHost.Proofs.Icmp.Statistics
import NetHost.Proofs.Icmp.World

/-!
# All that is in flight belongs to the session that runs

* `sessions_isolated`: as long as no call lasts through more than 2 ^ 16 session starts, the echoes
  in flight are those of the session that runs, nothing counts without a session, and what answers
  an earlier session is ignored.
* `Isolated` is the invariant behind it (`isolated_of_step`).  It needs that the identifiers of
  2 ^ 16 sessions in a row are distinct (`identifierOf_inj`).
-/

namespace NetHost.Icmp

/-! ## Identifiers -/

/-- The identifier of the `n`th session. -/
def identifierOf (n : Nat) : UInt16 := UInt16.ofNat n * 31421 + 6927

theorem toNat_identifierOf (n : Nat) :
    (identifierOf n).toNat = (31421 * n + 6927) % 65536 := by
  simp only [identifierOf, UInt16.toNat_add, UInt16.toNat_mul, UInt16.toNat_ofNat',
    UInt16.reduceToNat]
  omega

/-- The multiplier is odd, so that one period has every identifier once. -/
theorem identifierOf_inj {n m : Nat} (h : identifierOf n = identifierOf m) :
    n % 65536 = m % 65536 := by
  have hmod : 31421 * n + 6927 ≡ 31421 * m + 6927 [MOD 65536] := by
    rw [Nat.ModEq, ← toNat_identifierOf, h, toNat_identifierOf]
  exact (Nat.ModEq.add_right_cancel' 6927 hmod).cancel_left_of_coprime (by decide)

/-- The identifier that the engine has ready is that of its next session. -/
theorem identifier_of_starts {e : Engine} {s : Ping.Session} {n : Nat} (h : e.Starts s)
    (hused : e.identifiersUsed = UInt16.ofNat n) :
    s.identifier = identifierOf (n + 1) ∧ (e.begun s).identifiersUsed = UInt16.ofNat (n + 1) := by
  have hnext : UInt16.ofNat (n + 1) = e.identifiersUsed + 1 := by
    rw [hused, UInt16.ofNat_add]
    rfl
  rw [identifierOf, hnext]
  exact ⟨h.identifier, rfl⟩

/-! ## The table and the session -/

/-- An echo of the session, with the session's timeout. -/
structure Own (s : Ping.Session) (key : EchoKey) (timeout : UInt32) : Prop where
  identifier : key.identifier = s.identifier
  destination : key.destination = s.destination
  timeout : timeout = s.config.timeout

theorem Own.of_same {s s' : Ping.Session} {key : EchoKey} {timeout : UInt32}
    (h : Own s key timeout) (hsame : s.Same s') : Own s' key timeout :=
  ⟨h.identifier.trans hsame.identifier.symm, h.destination.trans hsame.destination.symm,
    h.timeout.trans (by rw [hsame.config])⟩

/-- Those who look at the engine from outside see whether a session runs, and all that is in
flight is the session's own. -/
structure Coherent (e : Engine) : Prop where
  active : e.active = e.session.isSome
  statistics : e.statistics.active = e.session.isSome
  config : ∀ s, e.session = some s → s.config.normalized = s.config
  entries : ∀ p ∈ e.pending.entries, ∃ s, e.session = some s ∧ Own s p.key p.timeout

namespace Coherent

variable {e e' : Engine} {s : Ping.Session} {n : Nat}

theorem own (h : Coherent e) (hs : e.session = some s) {p : PendingEcho}
    (hp : p ∈ e.pending.entries) : Own s p.key p.timeout := by
  obtain ⟨s', hs', hown⟩ := h.entries p hp
  rw [hs] at hs'
  cases hs'
  exact hown

theorem entries_of_idle (h : Coherent e) (hidle : e.session = none) : e.pending.entries = [] := by
  refine List.eq_nil_iff_forall_not_mem.2 fun p hp => ?_
  obtain ⟨s, hs, -⟩ := h.entries p hp
  rw [hidle] at hs
  cases hs

theorem sweep (h : Coherent e) (now : Instant) : Coherent (e.sweep now) := by
  obtain ⟨timeouts, journal, heq⟩ := e.sweep_eq now
  obtain ⟨lost, hlost, -⟩ := e.statistics.iterate_recordLost (e.owned (e.pending.sweep now).2)
  rw [heq, hlost]
  exact ⟨h.active, h.statistics, h.config,
    fun p hp => h.entries p (PendingTable.mem_entries_remove.1 hp).1⟩

theorem settle (h : Coherent e) {key : EchoKey} {p : PendingEcho} {pending : PendingTable}
    (htake : e.pending.take? key = some (p, pending)) {statistics : Ping.Statistics}
    (hactive : statistics.active = e.statistics.active) :
    Coherent { e with pending, statistics } :=
  ⟨h.active, hactive.trans h.statistics, h.config,
    fun q hq => h.entries q ((PendingTable.mem_entries_of_take? htake).2 (.inr hq))⟩

theorem recount (h : Coherent e) {statistics : Ping.Statistics}
    (hactive : statistics.active = e.statistics.active) : Coherent { e with statistics } :=
  ⟨h.active, hactive.trans h.statistics, h.config, h.entries⟩

theorem register (h : Coherent e) {now : Instant} {key : EchoKey} {timeout : UInt32}
    (hs : e.session = some s) (hown : Own s key timeout)
    (hregister : e.register now key timeout = .ok e') : Coherent e' := by
  obtain ⟨pending, hallocate, rfl⟩ := Engine.register_eq_ok hregister
  obtain ⟨sent, hsent, -⟩ := e.statistics.recordSent_eq
  rw [hsent]
  refine ⟨h.active, h.statistics, h.config, fun p hp => ?_⟩
  rcases (PendingTable.mem_entries_of_allocate hallocate).1 hp with rfl | hp
  · exact ⟨s, hs, hown⟩
  · exact h.entries p hp

theorem finish (h : Coherent e) (now : Instant) : Coherent (e.finishSession now) := by
  cases hs : e.session with
  | none =>
    rw [Engine.finishSession_of_none hs]
    exact h
  | some s =>
    rw [Engine.finishSession_of_some hs]
    refine ⟨rfl, rfl, nofun, fun p hp => ?_⟩
    obtain ⟨hp, hother⟩ := PendingTable.mem_entries_remove.1 hp
    rw [decide_eq_false_iff_not] at hother
    exact absurd (h.own hs hp).identifier hother

theorem move (h : Coherent e) (hmove : Move Own e e') : Coherent e' := by
  cases hmove with
  | idle counters journal => exact ⟨h.active, h.statistics, h.config, h.entries⟩
  | sweep now => exact h.sweep now
  | @advance s now hs =>
    refine ⟨?_, ?_, ?_, fun p hp => ?_⟩
    · rw [h.active, hs]
      rfl
    · rw [h.statistics, hs]
      rfl
    · rintro _ ⟨⟩
      have hconfig := h.config _ hs
      exact hconfig
    · exact ⟨_, rfl, (h.own hs hp).of_same ⟨rfl, rfl, rfl, rfl⟩⟩
  | register hs hown hregister => exact h.register hs hown hregister
  | reply rtt htake =>
    rw [Engine.recordReply_eq]
    apply h.settle htake
    split_ifs
    · exact e.statistics.active_recordReply rtt
    · rfl
  | fail htake =>
    rw [Engine.recordError_eq]
    apply h.settle htake
    split_ifs
    · exact e.statistics.active_recordError
    · rfl
  | finish now => exact h.finish now

theorem moves (h : Coherent e) (hmoves : Moves Own n e e') : Coherent e' := by
  induction hmoves with
  | refl e => exact h
  | move hs hmove ih => exact (ih h).move hmove
  | refuse hs hsession hmode ih =>
    rw [Engine.recordError_eq]
    apply (ih h).recount
    split_ifs
    · exact Ping.Statistics.active_recordError _
    · rfl

theorem init (e : Engine) : Coherent e.init := ⟨rfl, rfl, nofun, nofun⟩

theorem begun (h : Coherent e) (hstarts : e.Starts s) : Coherent (e.begun s) := by
  refine ⟨rfl, rfl, ?_, fun p hp => ?_⟩
  · rintro _ ⟨⟩
    exact hstarts.config
  · rw [Engine.begun, h.entries_of_idle hstarts.idle] at hp
    cases hp

end Coherent

/-! ## Answers to an earlier session -/

/-- The packet is a reply to an echo with that identifier, or an error message that quotes one. -/
inductive Answers (packet : Bytes) (identifier : UInt16) : Prop where
  | reply {echo : Echo} (h : Message.decode packet = .ok (.echoReply echo))
      (hidentifier : echo.identifier = identifier)
  | report {report : Report} {key : EchoKey}
      (h : Message.decode packet = .ok (.unreachable report) ∨
        Message.decode packet = .ok (.timeExceeded report))
      (hquoted : report.quotedEcho? = some key) (hidentifier : key.identifier = identifier)

/-- The packet has settled no echo: if anything has left the table then because it had expired.  It
is counted as unmatched. -/
def Unmatched (e : Engine) (now : Instant) (turn : Turn) : Prop :=
  ∃ e' e₁, turn = .done e' (.ok none) ∧ (e₁ = e ∨ e₁ = e.sweep now) ∧ e'.pending = e₁.pending ∧
    e'.session = e₁.session ∧ e'.statistics = e₁.statistics ∧
    e'.counters.received.unmatched = e.counters.received.unmatched + 1

theorem take?_of_forall_ne {t : PendingTable} {key : EchoKey}
    (h : ∀ p ∈ t.entries, p.key.identifier ≠ key.identifier) : t.take? key = none :=
  PendingTable.take?_eq_none_iff.2 fun p hp hkey => h p hp (congrArg EchoKey.identifier hkey)

section

variable {e : Engine} {counters : Counters}

theorem unmatched_of_handleReply {echo : Echo}
    (h : ∀ p ∈ e.pending.entries, p.key.identifier ≠ echo.identifier)
    (hcounters : counters.received.unmatched = e.counters.received.unmatched)
    (source : Ipv4.Address) (now : Instant) :
    Unmatched e now (.done (({ e with counters } : Engine).handleReply source echo now)
      (.ok none)) := by
  have htake : (({ e with counters } : Engine).sweep now).pending.take?
      ⟨source, echo.identifier, echo.sequence⟩ = none := by
    refine take?_of_forall_ne fun p hp => h p ?_
    rw [Engine.pending_sweep] at hp
    exact (PendingTable.mem_entries_remove.1 hp).1
  obtain ⟨timeouts, journal, heq⟩ := Engine.sweep_eq { e with counters } now
  obtain ⟨timeouts', journal', heq'⟩ := e.sweep_eq now
  simp only [Engine.handleReply, htake]
  refine ⟨_, e.sweep now, rfl, .inr rfl, ?_, ?_, ?_, ?_⟩
  · rw [heq, heq']
    rfl
  · rw [heq, heq']
    rfl
  · rw [heq, heq']
    rfl
  · rw [heq, ← hcounters]
    rfl

theorem unmatched_of_handleReport {report : Report} {key : EchoKey}
    (hquoted : report.quotedEcho? = some key)
    (h : ∀ p ∈ e.pending.entries, p.key.identifier ≠ key.identifier)
    (hcounters : counters.received.unmatched = e.counters.received.unmatched)
    (source : Ipv4.Address) (kind : Kind) (now : Instant) :
    Unmatched e now (.done (({ e with counters } : Engine).handleReport source kind report)
      (.ok none)) := by
  have htake : report.quotedEcho?.bind e.pending.take? = none := by
    rw [hquoted]
    exact take?_of_forall_ne h
  simp only [Engine.handleReport, htake]
  refine ⟨_, e, rfl, .inl rfl, rfl, rfl, rfl, ?_⟩
  rw [← hcounters]
  rfl

theorem unmatched_of_answers {packet : Bytes} {identifier : UInt16} (hready : e.ready)
    (h : Answers packet identifier)
    (hforeign : ∀ p ∈ e.pending.entries, p.key.identifier ≠ identifier) (t : Clock)
    (source : Ipv4.Address) : Unmatched e t.now (e.input t source packet) := by
  unfold Engine.input
  rw [if_neg (by rw [hready]; exact Bool.false_ne_true)]
  cases h with
  | reply h hidentifier =>
    subst hidentifier
    simp only [h]
    refine unmatched_of_handleReply hforeign ?_ source t.now
    rfl
  | report h hquoted hidentifier =>
    subst hidentifier
    rcases h with h | h
    · simp only [h]
      refine unmatched_of_handleReport hquoted hforeign ?_ source .unreachable t.now
      rfl
    · simp only [h]
      refine unmatched_of_handleReport hquoted hforeign ?_ source .timeExceeded t.now
      rfl

end

/-! ## Runs -/

namespace World

variable {w w' : World} {c : Option Call} {config : Ping.Config}

/-- No call lasts through more than 2 ^ 16 session starts, its own included. -/
def FewStarts (w : World) : Prop := ∀ f ∈ w.frames, w.starts ≤ f.born + 65536

instance (w : World) : Decidable w.FewStarts :=
  inferInstanceAs (Decidable (∀ f ∈ w.frames, w.starts ≤ f.born + 65536))

/-- The sessions have their identifiers in order, and a suspended blocking call that was made
before session `n` started runs session `n`. -/
structure Isolated (w : World) : Prop where
  coherent : Coherent w.engine
  used : w.engine.identifiersUsed = UInt16.ofNat w.starts
  ready : 0 < w.starts → w.engine.ready
  session : ∀ s, w.engine.session = some s → 0 < w.starts ∧ s.identifier = identifierOf w.starts
  frames : ∀ f ∈ w.frames, ∀ run, f.call.run? = some run →
    f.born < w.starts ∧ run.identifier = identifierOf (f.born + 1) ∧
      (f.born + 1 = w.starts → ∀ s, w.engine.session = some s → run.Of s)

/-- Only a run of the session that was started last has the identifier of the session that runs. -/
theorem Isolated.born_of_identifier (h : Isolated w) (hfew : w.FewStarts) {f : Frame}
    (hf : f ∈ w.frames) {run : Run} (hrun : f.call.run? = some run) {s : Ping.Session}
    (hs : w.engine.session = some s) (hidentifier : s.identifier = run.identifier) :
    f.born + 1 = w.starts := by
  obtain ⟨hborn, hrunid, -⟩ := h.frames f hf run hrun
  have hmod := identifierOf_inj (((h.session s hs).2.symm.trans hidentifier).trans hrunid)
  have hbound := hfew f hf
  omega

theorem Isolated.fits (h : Isolated w) (hfew : w.FewStarts) : w.Fits Own := by
  intro f hf run hrun s hs hidentifier sequence
  have hlast := h.born_of_identifier hfew hf hrun hs hidentifier
  obtain ⟨hdestination, hrunid, hconfig⟩ := (h.frames f hf run hrun).2.2 hlast s hs
  exact ⟨hrunid, hdestination, by rw [hconfig]⟩

theorem isolated_new (config : Ping.Config) : Isolated { engine := .new config } :=
  ⟨⟨rfl, rfl, nofun, nofun⟩, rfl, nofun, nofun, nofun⟩

theorem Isolated.inits (h : Isolated w) (hinit : w.Inits w') : Isolated w' := by
  refine ⟨?_, ?_, ?_, ?_, ?_⟩
  · rw [hinit.engine]
    exact .init w.engine
  · rw [hinit.engine, hinit.starts]
    exact h.used
  · rw [hinit.engine]
    exact fun _ => rfl
  · rw [hinit.engine]
    nofun
  · rw [hinit.engine, hinit.frames, hinit.starts]
    intro f hf run hrun
    obtain ⟨hborn, hrunid, -⟩ := h.frames f hf run hrun
    exact ⟨hborn, hrunid, nofun⟩

theorem Isolated.goes (h : Isolated w) (hgoes : Goes Own w w') : Isolated w' := by
  obtain ⟨n, hmoves, -⟩ := hgoes.moves
  refine ⟨h.coherent.moves hmoves, ?_, ?_, ?_, ?_⟩
  · rw [hmoves.keeps.2, hgoes.starts]
    exact h.used
  · rw [hmoves.keeps.1, hgoes.starts]
    exact h.ready
  · intro s' hs'
    obtain ⟨s, hs, hsame⟩ := hmoves.session hs'
    rw [hgoes.starts, hsame.identifier]
    exact h.session s hs
  · intro f hf run' hrun'
    obtain ⟨g, hg, hborn, run, hrun, hsame⟩ := hgoes.frames f hf run' hrun'
    obtain ⟨hstarts, hrunid, hof⟩ := h.frames g hg run hrun
    rw [hgoes.starts, ← hborn, hsame.identifier]
    refine ⟨hstarts, hrunid, fun hlast s' hs' => ?_⟩
    obtain ⟨s, hs, hsame'⟩ := hmoves.session hs'
    exact (hof hlast s hs).of_same hsame hsame'

theorem Isolated.opens (h : Isolated w) {s : Ping.Session} (hopens : Opens Own s w w') :
    Isolated w' := by
  obtain ⟨n, hmoves, -⟩ := hopens.moves
  obtain ⟨hidentifier, hused⟩ := identifier_of_starts hopens.session h.used
  refine ⟨(h.coherent.begun hopens.session).moves hmoves, ?_, ?_, ?_, ?_⟩
  · rw [hmoves.keeps.2, hopens.starts]
    exact hused
  · rw [hmoves.keeps.1]
    exact fun _ => hopens.session.ready
  · intro s' hs'
    obtain ⟨_, ⟨⟩, hsame⟩ := hmoves.session hs'
    rw [hopens.starts, hsame.identifier]
    exact ⟨Nat.succ_pos _, hidentifier⟩
  · intro f hf run' hrun'
    rw [hopens.starts]
    rcases hopens.frames f hf with hcarried | ⟨hborn, hrun⟩
    · obtain ⟨g, hg, hborn, run, hrun, hsame⟩ := hcarried run' hrun'
      obtain ⟨hstarts, hrunid, -⟩ := h.frames g hg run hrun
      rw [← hborn, hsame.identifier]
      exact ⟨by omega, hrunid, by omega⟩
    · have hof := hrun run' hrun'
      rw [hborn]
      refine ⟨Nat.lt_succ_self _, hof.identifier.trans hidentifier, fun _ s' hs' => ?_⟩
      obtain ⟨_, ⟨⟩, hsame⟩ := hmoves.session hs'
      exact hof.of_same (.refl run') hsame

theorem isolated_of_step (h : Isolated w) (hfew : w.FewStarts) (hstep : Step w c w') :
    Isolated w' := by
  rcases step_cases (fun _ _ => ⟨rfl, rfl, rfl⟩) (h.fits hfew) hstep with
    ⟨-, hinit⟩ | ⟨s, hopens⟩ | hgoes
  · exact h.inits hinit
  · exact h.opens hopens
  · exact h.goes hgoes

theorem Reach.few (h : Reach config FewStarts w) : w.FewStarts := by
  cases h with
  | new => nofun
  | step _ _ hok => exact hok

theorem Reach.isolated (h : Reach config FewStarts w) : Isolated w := by
  induction h with
  | new => exact isolated_new config
  | step hreach hstep _ ih => exact isolated_of_step ih hreach.few hstep

theorem Isolated.identifier_ne (h : Isolated w) {j : Nat} (hpast : j ≤ w.starts)
    (hrecent : w.starts < j + 65536) (hother : w.engine.session.isSome → j ≠ w.starts) :
    ∀ p ∈ w.engine.pending.entries, p.key.identifier ≠ identifierOf j := by
  intro p hp heq
  obtain ⟨s, hs, hown⟩ := h.coherent.entries p hp
  have hmod := identifierOf_inj
    (((h.session s hs).2.symm.trans hown.identifier.symm).trans heq)
  have := hother (by rw [hs]; rfl)
  omega

theorem statistics_of_step (hidle : w.engine.session = none) (hstep : Step w c w')
    (hinit : c ≠ some .init) (hstarts : w'.starts = w.starts) :
    w'.engine.statistics = w.engine.statistics := by
  have hfits : w.Fits Own := by
    intro f hf run hrun s hs
    rw [hidle] at hs
    cases hs
  rcases step_cases (fun _ _ => ⟨rfl, rfl, rfl⟩) hfits hstep with
    ⟨rfl, -⟩ | ⟨s, hopens⟩ | hgoes
  · exact absurd rfl hinit
  · rw [hopens.starts] at hstarts
    omega
  · obtain ⟨n, hmoves, -⟩ := hgoes.moves
    exact (hmoves.statistics_of_idle hidle).2

/-- Who looks at the engine sees whether a session runs.  All that is in flight is an echo of the
session that runs, and has its timeout.  While none runs the statistics stay, unless a session
starts or the engine is made ready.  Nothing that answers an earlier session settles an echo. -/
theorem sessions_isolated (h : Reach config FewStarts w) :
    (w.engine.active = w.engine.session.isSome ∧
      w.engine.statistics.active = w.engine.session.isSome) ∧
    (∀ s, w.engine.session = some s →
      s.identifier = identifierOf w.starts ∧ s.config.normalized = s.config) ∧
    (∀ p ∈ w.engine.pending.entries, ∃ s, w.engine.session = some s ∧ Own s p.key p.timeout) ∧
    (w.engine.session = none → ∀ c w', Step w c w' → c ≠ some .init → w'.starts = w.starts →
      w'.engine.statistics = w.engine.statistics) ∧
    ∀ j packet, 0 < j → j ≤ w.starts → w.starts < j + 65536 →
      (w.engine.session.isSome → j ≠ w.starts) → Answers packet (identifierOf j) →
      ∀ t source, Unmatched w.engine t.now (w.engine.start t (.input source packet)) := by
  have hisolated := h.isolated
  refine ⟨⟨hisolated.coherent.active, hisolated.coherent.statistics⟩, fun s hs => ?_,
    hisolated.coherent.entries, fun hidle c w' => statistics_of_step hidle, ?_⟩
  · exact ⟨(hisolated.session s hs).2, hisolated.coherent.config s hs⟩
  · intro j packet hpos hpast hrecent hother hanswers t source
    have hready : w.engine.ready := hisolated.ready (by omega)
    exact unmatched_of_answers hready hanswers (hisolated.identifier_ne hpast hrecent hother)
      t source

/-- A session is stopped while its first echo is still being sent, and another one starts.  The
reply to the first one's echo comes too late. -/
theorem late_reply_unmatched :
    let host : Ipv4.Address := ⟨10, 0, 2, 2⟩
    let ready : World := ({ engine := .new {} } : World).call .init (.still 7)
    let first := ready.call (.startPing host) (.still 7)
    let stopped := first.call .stopPing (.still 8)
    let w := stopped.call (.startPing host) (.still 9)
    Unmatched w.engine 10 (w.engine.start (.still 10)
      (.input host (Packet.echo .echoReply ⟨identifierOf 1, 0, []⟩))) := by
  intro host ready first stopped w
  have hready : Reach {} FewStarts ready := .step .new (.call _ _ _) (by decide)
  have hfirst : Reach {} FewStarts first := .step hready (.call _ _ _) (by decide)
  have hstopped : Reach {} FewStarts stopped := .step hfirst (.call _ _ _) (by decide)
  have hw : Reach {} FewStarts w := .step hstopped (.call _ _ _) (by decide)
  have hdecode : Message.decode (Packet.echo .echoReply ⟨identifierOf 1, 0, []⟩) =
      .ok (.echoReply ⟨identifierOf 1, 0, []⟩) := by decide
  exact (sessions_isolated hw).2.2.2.2 1 _ (by decide) (by decide) (by decide) (by decide)
    (.reply hdecode rfl) (.still 10) host

end World

end NetHost.Icmp
