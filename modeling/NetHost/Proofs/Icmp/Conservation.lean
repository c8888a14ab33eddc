import NetHost.Proofs.Icmp.Statistics
import NetHost.Proofs.Icmp.World

/-!
# Every echo is counted once

An echo that got a slot is in flight, or was answered, lost or failed, and is in one of these
states only.

* `Conserves` is the balance that every step keeps (`conserves_of_step`).
* `sent_add_refused_eq` is what it says of the engine in use, as long as no counter is at its
  largest value.
-/

namespace NetHost.Icmp

namespace Ping.Statistics

/-- No counter has reached its largest value. -/
structure Unsaturated (s : Statistics) : Prop where
  sent : s.sent.toNat < 0xFFFFFFFF
  received : s.received.toNat < 0xFFFFFFFF
  lost : s.lost.toNat < 0xFFFFFFFF
  errors : s.errors.toNat < 0xFFFFFFFF

/-- Of the echoes sent `m` are in flight, and the others are in one of the counts.  Of the errors
`n` are polls that were refused. -/
structure Balanced (s : Statistics) (n m : Nat) : Prop where
  sent : s.sent.toNat + n = s.received.toNat + s.lost.toNat + s.errors.toNat + m
  refused : n ≤ s.errors.toNat

/-- The counts balance as long as none is at its largest value. -/
def Tallies (s : Statistics) (n m : Nat) : Prop := s.Unsaturated → s.Balanced n m

variable {s : Statistics} {n m : Nat}

theorem tallies_start (destination : Ipv4.Address) (now : Instant) :
    (start destination now).Tallies 0 0 :=
  fun _ => ⟨rfl, Nat.le_refl 0⟩

theorem tallies_recordSent (h : s.Tallies n m) : s.recordSent.Tallies n (m + 1) := by
  obtain ⟨sent, hs, hcount⟩ := s.recordSent_eq
  rw [hs]
  rintro ⟨hsent, hreceived, hlost, herrors⟩
  dsimp only at hsent
  obtain ⟨hbalance, hrefused⟩ := h ⟨by omega, hreceived, hlost, herrors⟩
  refine ⟨?_, hrefused⟩
  dsimp only
  omega

theorem tallies_recordReply (h : s.Tallies n (m + 1)) (rtt : UInt32) :
    (s.recordReply rtt).Tallies n m := by
  obtain ⟨received, rttMin, rttMax, rttSum, hs, hcount⟩ := s.recordReply_eq rtt
  rw [hs]
  rintro ⟨hsent, hreceived, hlost, herrors⟩
  dsimp only at hreceived
  obtain ⟨hbalance, hrefused⟩ := h ⟨hsent, by omega, hlost, herrors⟩
  refine ⟨?_, hrefused⟩
  dsimp only
  omega

/-- An error is an echo that is in flight no more, or a poll that was refused. -/
theorem tallies_recordError {n' m' : Nat} (h : s.Tallies n m) (heq : n' + m = n + m' + 1)
    (hle : n' ≤ n + 1) : s.recordError.Tallies n' m' := by
  obtain ⟨errors, hs, hcount⟩ := s.recordError_eq
  rw [hs]
  rintro ⟨hsent, hreceived, hlost, herrors⟩
  dsimp only at herrors
  obtain ⟨hbalance, hrefused⟩ := h ⟨hsent, hreceived, hlost, by omega⟩
  exact ⟨by dsimp only; omega, by dsimp only; omega⟩

theorem tallies_recordLost {k : Nat} (h : s.Tallies n (m + k)) :
    (recordLost^[k] s).Tallies n m := by
  obtain ⟨lost, hs, hcount⟩ := s.iterate_recordLost k
  rw [hs]
  rintro ⟨hsent, hreceived, hlost, herrors⟩
  dsimp only at hlost
  obtain ⟨hbalance, hrefused⟩ := h ⟨hsent, hreceived, by omega, herrors⟩
  refine ⟨?_, hrefused⟩
  dsimp only
  omega

theorem tallies_finish (h : s.Tallies n m) (now : Instant) : (s.finish now).Tallies n m := by
  rintro ⟨hsent, hreceived, hlost, herrors⟩
  obtain ⟨hbalance, hrefused⟩ := h ⟨hsent, hreceived, hlost, herrors⟩
  exact ⟨hbalance, hrefused⟩

theorem Balanced.lost_le_sent (h : s.Balanced n m) : s.lost.toNat ≤ s.sent.toNat := by
  have := h.sent
  have := h.refused
  omega

end Ping.Statistics

/-! ## The balance of the engine -/

/-- An echo may get into the table if it has the identifier of the session. -/
def HasIdentifier (s : Ping.Session) (key : EchoKey) (_ : UInt32) : Prop :=
  key.identifier = s.identifier

/-- The echoes in flight are the session's, and with them the counts of its statistics balance.
A blocking session has no polls that could be refused. -/
structure Conserves (latest : Option Ping.Mode) (n : Nat) (e : Engine) : Prop where
  owned : ∀ p ∈ e.pending.entries, e.owns p.key.identifier
  mode : ∀ s, e.session = some s → latest = some s.mode
  blocking : latest = some .blocking → n = 0
  tallies : e.statistics.Tallies n e.pending.count

namespace Conserves

variable {latest : Option Ping.Mode} {n k : Nat} {e e' : Engine}

theorem owned_of_take? (h : Conserves latest n e) {key : EchoKey} {p : PendingEcho}
    {pending : PendingTable} (htake : e.pending.take? key = some (p, pending)) :
    ∀ q ∈ pending.entries, e.owns q.key.identifier :=
  fun q hq => h.owned q ((PendingTable.mem_entries_of_take? htake).2 (.inr hq))

theorem sweep (h : Conserves latest n e) (now : Instant) : Conserves latest n (e.sweep now) := by
  obtain ⟨timeouts, journal, heq⟩ := e.sweep_eq now
  have htallies := h.tallies
  rw [e.pending.count_remove (·.isExpired now), ← Engine.owned_eq_length h.owned] at htallies
  rw [heq]
  exact ⟨fun p hp => h.owned p (PendingTable.mem_entries_remove.1 hp).1, h.mode, h.blocking,
    Ping.Statistics.tallies_recordLost htallies⟩

theorem finish (h : Conserves latest n e) (now : Instant) :
    Conserves latest n (e.finishSession now) := by
  cases hs : e.session with
  | none =>
    rw [Engine.finishSession_of_none hs]
    exact h
  | some s =>
    have htallies := h.tallies
    rw [e.pending.count_remove (·.key.identifier = s.identifier)] at htallies
    rw [Engine.finishSession_of_some hs]
    refine ⟨fun p hp => ?_, nofun, h.blocking,
      Ping.Statistics.tallies_finish (Ping.Statistics.tallies_recordLost htallies) now⟩
    -- The session owns all that is in flight, so nothing is left.
    obtain ⟨hp, hother⟩ := PendingTable.mem_entries_remove.1 hp
    have hidentifier := (Engine.owns_iff_of_session hs _).1 (h.owned p hp)
    rw [decide_eq_false_iff_not] at hother
    exact absurd hidentifier.symm hother

theorem move (h : Conserves latest n e) (hmove : Move HasIdentifier e e') :
    Conserves latest n e' := by
  cases hmove with
  | idle counters journal => exact ⟨h.owned, h.mode, h.blocking, h.tallies⟩
  | sweep now => exact h.sweep now
  | @advance s now hs =>
    refine ⟨fun p hp => ?_, ?_, h.blocking, h.tallies⟩
    · have hidentifier := (Engine.owns_iff_of_session hs _).1 (h.owned p hp)
      exact (Engine.owns_iff_of_session (s := s.advance now) rfl _).2 hidentifier
    · rintro _ ⟨⟩
      have hmode := h.mode _ hs
      exact hmode
  | register hs hkey hregister =>
    obtain ⟨pending, hallocate, rfl⟩ := Engine.register_eq_ok hregister
    refine ⟨fun p hp => ?_, h.mode, h.blocking, ?_⟩
    · rcases (PendingTable.mem_entries_of_allocate hallocate).1 hp with rfl | hp
      · exact (Engine.owns_iff_of_session hs _).2 hkey.symm
      · exact h.owned p hp
    · rw [PendingTable.count_of_allocate hallocate]
      exact Ping.Statistics.tallies_recordSent h.tallies
  | @reply key p pending rtt htake =>
    have htallies := h.tallies
    rw [PendingTable.count_of_take? htake] at htallies
    have howns : ({ e with pending } : Engine).owns key.identifier :=
      Engine.owns_of_take? h.owned htake
    rw [Engine.recordReply, if_pos howns]
    exact ⟨h.owned_of_take? htake, h.mode, h.blocking,
      Ping.Statistics.tallies_recordReply htallies rtt⟩
  | @fail key p pending htake =>
    have htallies := h.tallies
    rw [PendingTable.count_of_take? htake] at htallies
    have howns : ({ e with pending } : Engine).owns key.identifier :=
      Engine.owns_of_take? h.owned htake
    rw [Engine.recordError, if_pos howns]
    exact ⟨h.owned_of_take? htake, h.mode, h.blocking,
      Ping.Statistics.tallies_recordError htallies rfl (Nat.le_succ n)⟩
  | finish now => exact h.finish now

/-- The statistics may change if they balance as before. -/
theorem recount (h : Conserves latest n e) {statistics : Ping.Statistics} {n' : Nat}
    (hblocking : latest = some .blocking → n' = 0)
    (htallies : statistics.Tallies n' e.pending.count) :
    Conserves latest n' { e with statistics } :=
  ⟨h.owned, h.mode, hblocking, htallies⟩

theorem refuse (h : Conserves latest n e) {s : Ping.Session} (hs : e.session = some s)
    (hmode : s.mode = .continuous) : Conserves latest (n + 1) (e.recordError s.identifier) := by
  rw [Engine.recordError, if_pos ((Engine.owns_iff_of_session hs _).2 rfl)]
  refine h.recount (fun hblocking => ?_)
    (Ping.Statistics.tallies_recordError h.tallies (by omega) (Nat.le_refl _))
  rw [h.mode s hs, hmode] at hblocking
  cases hblocking

theorem moves (h : Conserves latest n e) (hmoves : Moves HasIdentifier k e e') :
    Conserves latest (n + k) e' := by
  induction hmoves with
  | refl e => exact h
  | move hs hmove ih => exact (ih h).move hmove
  | refuse hs hsession hmode ih => exact (ih h).refuse hsession hmode

theorem entries_of_idle (h : Conserves latest n e) (hidle : e.session = none) :
    e.pending.entries = [] :=
  List.eq_nil_iff_forall_not_mem.2 fun p hp => Engine.not_owns_of_idle hidle _ (h.owned p hp)

theorem init (latest : Option Ping.Mode) (e : Engine) : Conserves latest 0 e.init :=
  ⟨nofun, nofun, fun _ => rfl, fun _ => ⟨rfl, Nat.le_refl 0⟩⟩

theorem begun (h : Conserves latest n e) {s : Ping.Session} (hstarts : e.Starts s) :
    Conserves (some s.mode) 0 (e.begun s) := by
  have hentries := h.entries_of_idle hstarts.idle
  have hcount : (e.begun s).pending.count = 0 := PendingTable.count_eq_zero_iff.2 hentries
  refine ⟨fun p hp => ?_, ?_, fun _ => rfl, ?_⟩
  · rw [Engine.begun, hentries] at hp
    cases hp
  · rintro _ ⟨⟩
    rfl
  · rw [hcount]
    exact Ping.Statistics.tallies_start s.destination s.nextSendAt

end Conserves

/-! ## The balance of every run -/

namespace World

variable {w w' : World} {c : Option Call} {config : Ping.Config} {ok : World → Prop}

theorem fits_hasIdentifier (w : World) : w.Fits HasIdentifier :=
  fun _ _ _ _ _ _ hidentifier _ => hidentifier.symm

theorem conserves_of_step (h : Conserves w.mode w.refused w.engine) (hstep : Step w c w') :
    Conserves w'.mode w'.refused w'.engine := by
  rcases step_cases (fun _ _ => rfl) w.fits_hasIdentifier hstep with
    ⟨-, hinit⟩ | ⟨s, hopens⟩ | hgoes
  · rw [hinit.engine, hinit.mode, hinit.refused]
    exact .init w.mode w.engine
  · obtain ⟨n, hmoves, hempty⟩ := hopens.moves
    have hn : n = 0 :=
      hempty (PendingTable.count_eq_zero_iff.2 (h.entries_of_idle hopens.session.idle))
    subst hn
    rw [hopens.mode, hopens.refused]
    exact (h.begun hopens.session).moves hmoves
  · obtain ⟨n, hmoves, hrefused⟩ := hgoes.moves
    rw [hgoes.mode, hrefused]
    exact h.moves hmoves

theorem Reach.conserves (h : Reach config ok w) : Conserves w.mode w.refused w.engine := by
  induction h with
  | new => exact ⟨nofun, nofun, nofun, fun _ => ⟨rfl, Nat.le_refl 0⟩⟩
  | step _ hstep _ ih => exact conserves_of_step ih hstep

/-- Sessions are for engines that were made ready. -/
theorem Reach.ready_of_session (h : Reach config ok w) {s : Ping.Session}
    (hs : w.engine.session = some s) : w.engine.ready := by
  induction h generalizing s with
  | new => cases hs
  | step _ hstep _ ih =>
    rcases step_cases (fun _ _ => rfl) (fits_hasIdentifier _) hstep with
      ⟨-, hinit⟩ | ⟨s', hopens⟩ | hgoes
    · rw [hinit.engine] at hs
      cases hs
    · obtain ⟨n, hmoves, -⟩ := hopens.moves
      rw [hmoves.keeps.1]
      exact hopens.session.ready
    · obtain ⟨n, hmoves, -⟩ := hgoes.moves
      obtain ⟨s', hs', -⟩ := hmoves.session hs
      rw [hmoves.keeps.1]
      exact ih hs'

/-- Every echo of the session that runs, or of the last one, is in flight or was counted once, and
only a continuous session has polls that were refused a slot.  Nothing is in flight without a
session. -/
theorem sent_add_refused_eq (h : Reach config (fun _ => True) w)
    (hfew : w.engine.statistics.Unsaturated) :
    let s := w.engine.statistics
    s.sent.toNat + w.refused =
        s.received.toNat + s.lost.toNat + s.errors.toNat + w.engine.pending.count ∧
      s.lost.toNat ≤ s.sent.toNat ∧ s.lossPercent.toNat ≤ 100 ∧
      (w.mode = some .blocking → w.refused = 0) ∧
      (w.engine.session = none → w.engine.pending.count = 0) := by
  intro s
  have hconserves := h.conserves
  have hbalanced := hconserves.tallies hfew
  exact ⟨hbalanced.sent, hbalanced.lost_le_sent,
    Ping.Statistics.lossPercent_le hbalanced.lost_le_sent, hconserves.blocking,
    fun hidle => PendingTable.count_eq_zero_iff.2 (hconserves.entries_of_idle hidle)⟩

/-- The first echo of a continuous session is in flight. -/
theorem first_echo_in_flight :
    let ready : World := ({ engine := .new {} } : World).call .init (.still 7)
    let w := ready.call (.startPing ⟨10, 0, 2, 2⟩) (.still 7)
    w.engine.statistics.sent.toNat + w.refused = 0 + w.engine.pending.count ∧
      w.engine.statistics.sent = 1 := by
  intro ready w
  have hreach : Reach {} (fun _ => True) w :=
    .step (.step .new (.call _ .init _) trivial) (.call ready _ _) trivial
  have hfew : w.engine.statistics.Unsaturated := ⟨by decide, by decide, by decide, by decide⟩
  have hbalance := (sent_add_refused_eq hreach hfew).1
  have hsettled : w.engine.statistics.received.toNat + w.engine.statistics.lost.toNat +
      w.engine.statistics.errors.toNat = 0 := by decide
  rw [hsettled] at hbalance
  exact ⟨hbalance, by decide⟩

end World

end NetHost.Icmp
