import Mathlib.Data.List.Nodup
import Mathlib.Tactic.Common
import NetHost.Proofs.Icmp.BlockingPing
import NetHost.Proofs.Icmp.OneInFlight
import NetHost.Proofs.Icmp.Schedule
import NetHost.Proofs.Icmp.Timed

/-!
# When the keys of the echoes in flight are distinct

Sequence numbers have 16 bits, so the numbers of a continuous session come again.

* If an echo is not waited for longer than it takes for its number to come again, no two echoes in
  flight have the same key, and what answers an echo settles that very one (`World.keys_distinct`).
  Blocking sessions are always so.
* `Spread` is the invariant behind it: the echoes in flight lie as far apart in time as in their
  numbers.
* Otherwise polls of a full table can use up the numbers while an echo is in flight
  (`World.number_zero_again`).
-/

namespace NetHost

/-- From one reading to the next the clock goes on by `drift` at the most, and it is far from its
end. -/
structure Clock.Steady (drift : Nat) (t : Clock) : Prop where
  step : ∀ n, (t.reading (n + 1)).toNat ≤ (t.reading n).toNat + drift
  room : ∀ n, (t.reading n).toNat + 2 ^ 32 ≤ 2 ^ 64

theorem Clock.Steady.later {drift : Nat} {t : Clock} (h : t.Steady drift) :
    t.later.Steady drift :=
  ⟨fun n => h.step (n + 1), fun n => h.room (n + 1)⟩

theorem Clock.Steady.still {now : Instant} (h : now.toNat + 2 ^ 32 ≤ 2 ^ 64) :
    (Clock.still now).Steady 0 :=
  ⟨fun _ => Nat.le_refl _, fun _ => h⟩

namespace Icmp

open Ipv4 (Address)

variable {drift : Nat} {s : Ping.Session} {e e' : Engine} {t : Clock} {now : Instant}

def Engine.keys (e : Engine) : List EchoKey := e.pending.entries.map (·.key)

/-! ## Echoes of a continuous session -/

/-- An echo that is not waited for any longer when the echo with its number comes up again. -/
def Ping.Session.Unhurried (drift : Nat) (s : Ping.Session) : Prop :=
  s.config.timeout.toNat + drift ≤ 65535 * s.config.interval.toNat

/-- After the echo `p` so many others were tried, and the next one is due accordingly later. -/
def Ping.Session.After (drift : Nat) (s : Ping.Session) (p : PendingEcho) (others : Nat) : Prop :=
  s.nextSequence = p.key.sequence + UInt16.ofNat (others + 1) ∧
    p.sentAt.toNat + others * s.config.interval.toNat < s.nextSendAt.toNat + drift

/-- No two echoes in flight have the same key, and the next one comes at a distance from each. -/
structure Spread (drift : Nat) (s : Ping.Session) (e : Engine) : Prop where
  nodup : e.keys.Nodup
  after : ∀ p ∈ e.pending.entries, ∃ others ≤ 65535, s.After drift p others

namespace Spread

theorem of_subperm (h : Spread drift s e)
    (hsub : e'.pending.entries.Subperm e.pending.entries) : Spread drift s e' := by
  refine ⟨?_, fun p hp => h.after p (hsub.subset hp)⟩
  obtain ⟨entries, hperm, hsublist⟩ := hsub
  exact ((hperm.map PendingEcho.key).nodup_iff).1 (h.nodup.sublist (hsublist.map PendingEcho.key))

theorem of_empty (h : e.pending.entries = []) : Spread drift s e := by
  refine ⟨?_, ?_⟩
  · rw [Engine.keys, h]
    exact List.nodup_nil
  · rw [h]
    nofun

/-- An echo with the number of the next one is waited for no longer. -/
theorem lt_of_fresh {p : PendingEcho} {others : Nat} (hle : others ≤ 65535)
    (hafter : s.After drift p others) (hlong : s.Unhurried drift) (hdue : s.nextSendAt ≤ now)
    (htimeout : p.timeout = s.config.timeout) (hfresh : p.isExpired now = false) :
    others < 65535 := by
  rw [PendingEcho.isExpired_eq_false_iff, htimeout] at hfresh
  rw [UInt64.le_iff_toNat_le] at hdue
  have hspace := hafter.2
  rw [Ping.Session.Unhurried] at hlong
  by_contra hlast
  obtain rfl : others = 65535 := by omega
  omega

theorem after_advance {p : PendingEcho} {others : Nat} (hafter : s.After drift p others)
    (hdue : s.nextSendAt ≤ now) (hroom : now.toNat + s.config.interval.toNat < 2 ^ 64) :
    (s.advance now).After drift p (others + 1) := by
  have hnext := s.toNat_advance hdue hroom
  rw [UInt64.le_iff_toNat_le] at hdue
  have hspace := hafter.2
  refine ⟨?_, ?_⟩
  · show s.nextSequence + 1 = _
    rw [hafter.1, UInt16.ofNat_add (others + 1), UInt16.add_assoc]
    rfl
  · show _ + (others + 1) * s.config.interval.toNat < _
    rw [Nat.succ_mul, hnext]
    split_ifs <;> omega

theorem after_of_new {key : EchoKey} {sentAt : Instant} {timeout : UInt32}
    (hkey : key.sequence = s.nextSequence) (hsent : sentAt.toNat ≤ now.toNat + drift)
    (hinterval : 0 < s.config.interval.toNat) (hdue : s.nextSendAt ≤ now)
    (hroom : now.toNat + s.config.interval.toNat < 2 ^ 64) :
    (s.advance now).After drift ⟨key, sentAt, timeout⟩ 0 := by
  have hnext := s.toNat_advance hdue hroom
  rw [UInt64.le_iff_toNat_le] at hdue
  refine ⟨?_, ?_⟩
  · show s.nextSequence + 1 = key.sequence + _
    rw [hkey]
    rfl
  · rw [hnext]
    dsimp only
    split_ifs <;> omega

theorem sequence_ne {p : PendingEcho} {others : Nat} (hafter : s.After drift p others)
    (hlt : others < 65535) : p.key.sequence ≠ s.nextSequence := by
  intro heq
  have hsum := congrArg UInt16.toNat (heq.trans hafter.1)
  have hseq := p.key.sequence.toNat_lt
  simp only [UInt16.toNat_add, UInt16.toNat_ofNat'] at hsum
  omega

variable (h : Spread drift s e) (hlong : s.Unhurried drift)
  (hinterval : 0 < s.config.interval.toNat)
  (htimeout : ∀ p ∈ e.pending.entries, p.timeout = s.config.timeout) (hsteady : t.Steady drift)

include h hlong hinterval htimeout hsteady

/-- The sweep makes room for the number that comes up. -/
theorem movedOn (hdue : s.nextSendAt ≤ t.now) :
    Spread drift (s.advance t.now) (e.movedOn s t.now) ∧
      ∀ p ∈ (e.movedOn s t.now).pending.entries, p.key.sequence ≠ s.nextSequence := by
  have hroom : t.now.toNat + s.config.interval.toNat < 2 ^ 64 := by
    have hend := hsteady.room 0
    have hlt := s.config.interval.toNat_lt
    show (t.reading 0).toNat + _ < _
    omega
  have hswept : (e.movedOn s t.now).pending = (e.pending.sweep t.now).1 := e.pending_sweep t.now
  have hleft {p : PendingEcho} (hp : p ∈ (e.movedOn s t.now).pending.entries) :
      ∃ others < 65535, s.After drift p others := by
    rw [hswept] at hp
    obtain ⟨hp, hfresh⟩ := PendingTable.mem_entries_remove.1 hp
    obtain ⟨others, hle, hafter⟩ := h.after p hp
    exact ⟨others, lt_of_fresh hle hafter hlong hdue (htimeout p hp) hfresh, hafter⟩
  have hnodup : Spread drift s (e.movedOn s t.now) := by
    refine h.of_subperm ?_
    rw [hswept]
    exact e.pending.subperm_remove _
  refine ⟨⟨hnodup.nodup, fun p hp => ?_⟩, fun p hp => ?_⟩
  · obtain ⟨others, hlt, hafter⟩ := hleft hp
    exact ⟨others + 1, hlt, after_advance hafter hdue hroom⟩
  · obtain ⟨others, hlt, hafter⟩ := hleft hp
    exact sequence_ne hafter hlt

theorem poll_of_due (hready : e.ready) (hs : e.session = some s)
    (hdue : s.mode = .continuous ∧ s.nextSendAt ≤ t.now) :
    (e.poll t).engine.session = some (s.advance t.now) ∧
      Spread drift (s.advance t.now) (e.poll t).engine := by
  obtain ⟨hmoved, hfree⟩ := movedOn h hlong hinterval htimeout hsteady hdue.2
  rw [Engine.poll_of_due hready hs hdue]
  split
  · rename_i e₁ hregister
    obtain ⟨pending, hallocate, rfl⟩ := Engine.register_eq_ok hregister
    have hperm := PendingTable.perm_entries_of_allocate hallocate
    refine ⟨rfl, ?_, fun p hp => ?_⟩
    · show (pending.entries.map PendingEcho.key).Nodup
      rw [(hperm.map PendingEcho.key).nodup_iff, List.map_cons, List.nodup_cons]
      refine ⟨fun hmem => ?_, hmoved.nodup⟩
      obtain ⟨p, hp, hkey⟩ := List.mem_map.1 hmem
      exact hfree p hp (congrArg EchoKey.sequence hkey)
    · rcases (PendingTable.mem_entries_of_allocate hallocate).1 hp with rfl | hp
      · have hend := hsteady.room 0
        have hlt := s.config.interval.toNat_lt
        exact ⟨0, Nat.zero_le _, after_of_new rfl (hsteady.step 0) hinterval hdue.2
          (by show (t.reading 0).toNat + _ < _; omega)⟩
      · exact hmoved.after p hp
  · rw [Engine.recordError_eq]
    exact ⟨rfl, hmoved.nodup, hmoved.after⟩

/-- A poll that finds no echo due sends none. -/
theorem poll (hready : e.ready) (hs : e.session = some s) {s' : Ping.Session}
    (hs' : (e.poll t).engine.session = some s') : Spread drift s' (e.poll t).engine := by
  by_cases hdue : s.mode = .continuous ∧ s.nextSendAt ≤ t.now
  · obtain ⟨hsession, hspread⟩ := poll_of_due h hlong hinterval htimeout hsteady hready hs hdue
    cases hsession.symm.trans hs'
    exact hspread
  · have hpoll : e.poll t = .done (e.sweep t.now) (.ok none) := by
      refine Engine.poll_of_not_due hready fun s₁ hs₁ => ?_
      cases hs.symm.trans hs₁
      exact hdue
    rw [hpoll] at hs' ⊢
    have hsession : (e.sweep t.now).session = some s' := hs'
    rw [Engine.session_sweep, hs] at hsession
    cases hsession
    refine h.of_subperm ?_
    show (e.sweep t.now).pending.entries.Subperm _
    rw [Engine.pending_sweep]
    exact e.pending.subperm_remove _

end Spread

theorem Ping.Config.timeout_normalized_pos (config : Ping.Config) :
    0 < config.normalized.timeout.toNat := by
  simp only [normalized]
  split_ifs with htimeout
  · decide
  · exact Nat.pos_of_ne_zero fun h => htimeout (UInt32.toNat_inj.1 h)

theorem Ping.Session.Unhurried.interval_pos (h : s.Unhurried drift)
    (hconfig : s.config.normalized = s.config) : 0 < s.config.interval.toNat := by
  have htimeout := s.config.timeout_normalized_pos
  rw [hconfig] at htimeout
  rw [Unhurried] at h
  omega

theorem same_of_poll (hs : e.session = some s) {s' : Ping.Session}
    (hs' : (e.poll t).engine.session = some s') : s.Same s' := by
  have hleads : Leads HasIdentifier _ e none (e.poll t) :=
    leads_poll (fun _ _ => rfl) (.refl e) t
  obtain ⟨s₁, hs₁, hsame⟩ := hleads.moves.session hs'
  cases hs.symm.trans hs₁
  exact hsame

/-- A session starts with nothing in flight. -/
theorem spread_startPingWith (hempty : e.pending.entries = []) (hsteady : t.Steady drift)
    (destination : Address) (config : Ping.Config) {s' : Ping.Session}
    (hs' : (e.startPingWith t destination config).engine.session = some s')
    (hlong : s'.Unhurried drift) :
    Spread drift s' (e.startPingWith t destination config).engine := by
  simp only [Engine.startPingWith] at hs' ⊢
  split_ifs at hs' ⊢
  · exact .of_empty hempty
  · rcases beginSession_cases e t.now destination .continuous config.normalized_normalized with
      ⟨cause, journal, hbegin⟩ | ⟨s, hstarts, -, -, -, hbegin⟩
    · rw [hbegin]
      exact .of_empty hempty
    · rw [hbegin] at hs' ⊢
      have hbegun (note : Note) : ((e.begun s).note note).pending.entries = [] := hempty
      have hlong : s.Unhurried drift := by
        rw [Ping.Session.Unhurried, ← (same_of_poll (s := s) rfl hs').config]
        exact hlong
      have hspread (note : Note) : Spread drift s ((e.begun s).note note) :=
        .of_empty (hbegun note)
      refine (hspread _).poll hlong (hlong.interval_pos hstarts.config) (fun p hp => ?_)
        hsteady.later hstarts.ready rfl hs'
      rw [hbegun] at hp
      cases hp

/-! ## Runs -/

/-- No two echoes in flight have the same key, so what answers an echo settles that very one. -/
structure Engine.TellsApart (e : Engine) : Prop where
  nodup : e.keys.Nodup
  settles : ∀ key p pending, e.pending.take? key = some (p, pending) →
    ∀ q ∈ e.pending.entries, q.key = key → q = p

theorem Engine.tellsApart_of_nodup (h : e.keys.Nodup) : e.TellsApart := by
  refine ⟨h, fun key p pending htake q hq hkey => ?_⟩
  have hp := (PendingTable.mem_entries_of_take? htake).2 (.inl rfl)
  exact List.inj_on_of_nodup_map h hq hp
    (hkey.trans (PendingTable.perm_entries_of_take? htake).1.symm)

namespace World

variable {config : Ping.Config} {w : World} {r : Record}

theorem Solo.nodup (h : Solo w) (hconserves : Conserves w.mode w.refused w.engine)
    (hblocking : ∀ s, w.engine.session = some s → s.mode = .blocking) : w.engine.keys.Nodup := by
  have hle : w.engine.pending.entries.length ≤ 1 := by
    cases hs : w.engine.session with
    | none =>
      rw [hconserves.entries_of_idle hs]
      exact Nat.zero_le 1
    | some s => exact h.count_le s hs (hblocking s hs)
  rw [Engine.keys]
  match w.engine.pending.entries, hle with
  | [], _ => exact List.nodup_nil
  | [p], _ => exact List.nodup_singleton _

theorem Timed.spread (h : Timed config (fun t w => w.FewStarts ∧ t.Steady drift) w r)
    (hs : w.engine.session = some s) (hmode : s.mode = .continuous) (hlong : s.Unhurried drift) :
    Spread drift s w.engine := by
  induction h generalizing s with
  | new now => cases hs
  | @step w w' r c t later h hstep hruns hok ih =>
    have hreach : Reach config FewStarts w := h.reach fun _ _ hok => hok.1
    have hisolated := hreach.isolated
    have hcalm (h : Calm w w') : Spread drift s w'.engine :=
      (ih (h.session_eq_some hs) hmode hlong).of_subperm h.entries
    cases hstep with
    | call c =>
      by_cases hinit : c = .init
      · subst hinit
        rw [engine_call] at hs
        cases hs
      by_cases hstarts : (w.call c t).starts = w.starts
      · by_cases hpoll : c = .poll ∧ w.engine.session ≠ none
        · obtain ⟨rfl, hrunning⟩ := hpoll
          obtain ⟨s₀, hs₀⟩ := Option.ne_none_iff_exists'.1 hrunning
          rw [engine_call] at hs ⊢
          have hsame := same_of_poll hs₀ hs
          have hlong₀ : s₀.Unhurried drift := by
            rw [Ping.Session.Unhurried, ← hsame.config]
            exact hlong
          exact (ih hs₀ (hsame.mode.symm.trans hmode) hlong₀).poll hlong₀
            (hlong₀.interval_pos (hisolated.coherent.config s₀ hs₀))
            (fun p hp => (hisolated.coherent.own hs₀ hp).timeout) hok.2
            (hreach.ready_of_session hs₀) hs₀ hs
        · refine hcalm (calm_call hreach.conserves hinit hstarts fun hc s₀ hs₀ => ?_)
          exact absurd ⟨hc, by rw [hs₀]; nofun⟩ hpoll
      · rcases leads_start (R := HasIdentifier) (fun _ _ => rfl) w.engine t hinit with
          hleads | ⟨mode, hcall, s₀, n, run?, hopens, rfl, hleads, -, -⟩
        · rw [call_of_keeps hleads.moves.keeps.2] at hstarts
          exact absurd rfl hstarts
        rw [engine_call] at hs ⊢
        obtain ⟨_, ⟨⟩, hsame⟩ := hleads.moves.session hs
        have hempty := hreach.conserves.entries_of_idle hopens.idle
        rw [← hsame.mode, hmode] at hcall
        cases c with
        | startPing destination =>
          exact spread_startPingWith hempty hok.2 destination _ hs hlong
        | startPingWith destination config =>
          exact spread_startPingWith hempty hok.2 destination config hs hlong
        | _ => cases hcall
    | @resume before after f turn hframes hturn =>
      by_cases hf : f.born + 1 = w.starts ∧ f.call.run?.isSome
      · have hmem : f ∈ w.runs := mem_runs.2 ⟨mem_frames hframes, hf⟩
        have hblocking := hreach.solo.blocking f hmem s
          ((rests_resumes hturn).stands.session_eq_some hs)
        rw [hmode] at hblocking
        cases hblocking
      · exact hcalm (calm_resume hisolated hreach.few hframes hf hturn)

/-- As long as no call lasts through too many starts, the echoes of a blocking session can be told
apart, and so can those of a continuous session if none is waited for longer than it takes for its
number to come again. -/
theorem keys_distinct :
    (∀ w, Reach config FewStarts w →
      (∀ s, w.engine.session = some s → s.mode = .blocking) → w.engine.TellsApart) ∧
    ∀ drift w r, Timed config (fun t w => w.FewStarts ∧ t.Steady drift) w r →
      (∀ s, w.engine.session = some s → s.mode = .continuous → s.Unhurried drift) →
      w.engine.TellsApart := by
  refine ⟨fun w h hblocking => ?_, fun drift w r h hlong => ?_⟩
  · exact Engine.tellsApart_of_nodup (h.solo.nodup h.conserves hblocking)
  · apply Engine.tellsApart_of_nodup
    have hreach : Reach config FewStarts w := h.reach fun _ _ hok => hok.1
    cases hs : w.engine.session with
    | none =>
      exact hreach.solo.nodup hreach.conserves fun s hs' => by rw [hs] at hs'; cases hs'
    | some s =>
      cases hmode : s.mode with
      | blocking =>
        refine hreach.solo.nodup hreach.conserves fun s' hs' => ?_
        cases hs.symm.trans hs'
        exact hmode
      | continuous => exact (h.spread hs hmode (hlong s hs hmode)).nodup

/-- Two echoes of a session are in flight. -/
theorem two_told_apart :
    let ready := ({ engine := .new {} } : World).call .init (.still 7)
    let first := ready.call (.startPing ⟨10, 0, 2, 2⟩) (.still 7)
    let w := first.call .poll (.still 1007)
    w.engine.TellsApart ∧ w.engine.pending.count = 2 := by
  intro ready first w
  let ok (t : Clock) (w : World) : Prop := w.FewStarts ∧ t.Steady 0
  have hready : Timed {} ok ready _ :=
    .step (.new 7) (.call _ .init) (.still (UInt64.le_refl 7)) ⟨by decide, .still (by decide)⟩
  have hfirst : Timed {} ok first _ :=
    .step hready (.call _ (.startPing ⟨10, 0, 2, 2⟩)) (.still (UInt64.le_refl 7))
      ⟨by decide, .still (by decide)⟩
  have hw : Timed {} ok w _ :=
    .step hfirst (.call _ .poll) (.still (by decide : (7 : Instant) ≤ 1007))
      ⟨by decide, .still (by decide)⟩
  have hs : w.engine.session = some ⟨.continuous, ⟨10, 0, 2, 2⟩, 38348, 2, {}, 2007⟩ := by decide
  refine ⟨keys_distinct.2 0 w _ hw fun s hs' _ => ?_, by decide⟩
  cases hs.symm.trans hs'
  show _ ≤ _
  decide

end World

/-! ## When the numbers come too soon -/

/-- The engine runs a session without pauses, whose next echo is due and finds the table full. -/
structure Stuck (now : Instant) (s : Ping.Session) (table : PendingTable) (e : Engine) : Prop where
  ready : e.ready
  session : e.session = some s
  continuous : s.mode = .continuous
  interval : s.config.interval = 0
  due : s.nextSendAt ≤ now
  pending : e.pending = table
  stays : (table.sweep now).1 = table
  full : table.count = PendingTable.capacity

/-- A poll uses up the next number, and sends nothing. -/
theorem Stuck.poll {table : PendingTable} (h : Stuck now s table e) :
    Stuck now (s.advance now) table (e.poll (.still now)).engine := by
  have hinterval : s.config.interval.toNat = 0 := by
    rw [h.interval]
    rfl
  have hlt := now.toNat_lt
  have hnext := s.toNat_advance h.due (by omega)
  have hdue : (s.advance now).nextSendAt ≤ now := by
    rw [UInt64.le_iff_toNat_le, hnext]
    have hle := UInt64.le_iff_toNat_le.1 h.due
    split_ifs <;> omega
  have hmoved : (e.movedOn s now).pending = table := by
    show (e.sweep now).pending = table
    rw [Engine.pending_sweep, h.pending, h.stays]
  have hpoll := Engine.poll_of_due (t := .still now) h.ready h.session ⟨h.continuous, h.due⟩
  cases hregister : (e.movedOn s (Clock.still now).now).register (Clock.still now).later.now
      ⟨s.destination, s.identifier, s.nextSequence⟩ s.config.timeout with
  | ok e' =>
    have hroom := Engine.count_of_register_ok hregister
    have hmoved' : (e.movedOn s (Clock.still now).now).pending = table := hmoved
    rw [hmoved'] at hroom
    exact absurd h.full hroom
  | error cause =>
    have hkeeps := ((Moves.refl (R := HasIdentifier) e).move (.sweep e now)).keeps
    have hready : (e.sweep now).ready := hkeeps.1.trans h.ready
    rw [hregister] at hpoll
    rw [hpoll]
    dsimp only [Turn.engine]
    rw [Engine.recordError_eq]
    exact ⟨hready, rfl, h.continuous, h.interval, hdue, hmoved, h.stays, h.full⟩

namespace World

variable {config : Ping.Config} {w : World} {r : Record} {c : Call}

theorem fewStarts_call (h : w.FewStarts) (hstarts : (w.call c t).starts = w.starts) :
    (w.call c t).FewStarts := by
  intro f hf
  rw [frames_call] at hf
  rw [hstarts]
  rcases mem_suspend hf with hf | ⟨hborn, -⟩
  · exact h f hf
  · omega

theorem starts_poll (w : World) (t : Clock) : (w.call .poll t).starts = w.starts := by
  have hused : (w.engine.start t .poll).engine.identifiersUsed = w.engine.identifiersUsed :=
    Engine.identifiersUsed_poll w.engine t
  rw [call_of_keeps hused]

theorem Timed.few (h : Timed config (fun _ w => w.FewStarts) w r) : w.FewStarts := by
  have hreach : Reach config FewStarts w := h.reach fun _ _ hfew => hfew
  exact hreach.few

theorem Timed.poll (h : Timed config (fun _ w => w.FewStarts) w r) (hnow : r.now ≤ now) :
    ∃ r', Timed config (fun _ w => w.FewStarts) (w.call .poll (.still now)) r' ∧ r'.now = now ∧
      r'.answers = r.answers := by
  have hstarts := w.starts_poll (.still now)
  have hpoll := h.step (.call w .poll) (.still hnow) (fewStarts_call h.few hstarts)
  refine ⟨_, hpoll, rfl, ?_⟩
  simp [recordOf, hstarts, Engine.heard]

theorem Timed.polls (h : Timed config (fun _ w => w.FewStarts) w r) (hnow : r.now = now)
    (n : Nat) :
    ∃ r', Timed config (fun _ w => w.FewStarts) ((fun w => w.call .poll (.still now))^[n] w) r' ∧
      r'.now = now ∧ r'.answers = r.answers := by
  induction n with
  | zero => exact ⟨r, h, hnow, rfl⟩
  | succ n ih =>
    obtain ⟨r', h', hnow', hanswers⟩ := ih
    obtain ⟨r'', h'', hnow'', hanswers'⟩ := h'.poll (UInt64.le_of_eq hnow')
    rw [Function.iterate_succ_apply']
    exact ⟨r'', h'', hnow'', hanswers'.trans hanswers⟩

/-- Polls of a full table take the session to any number. -/
theorem stuck_polls {table : PendingTable} (h : Stuck now s table w.engine) (n : Nat) :
    ∃ s', Stuck now s' table ((fun w => w.call .poll (.still now))^[n] w).engine ∧ s.Same s' ∧
      s'.nextSequence = s.nextSequence + UInt16.ofNat n := by
  induction n with
  | zero => exact ⟨s, h, .refl s, (UInt16.add_zero _).symm⟩
  | succ n ih =>
    obtain ⟨s', hstuck, hsame, hnext⟩ := ih
    refine ⟨s'.advance now, ?_, hsame.trans ⟨rfl, rfl, rfl, rfl⟩, ?_⟩
    · rw [Function.iterate_succ_apply', engine_call]
      exact hstuck.poll
    · show s'.nextSequence + 1 = _
      rw [hnext, UInt16.ofNat_add, UInt16.add_assoc]
      rfl

/-- A poll puts the echo that is due into the first free slot. -/
theorem pending_poll (hready : w.engine.ready) (hs : w.engine.session = some s)
    (hdue : s.mode = .continuous ∧ s.nextSendAt ≤ now) {pending : PendingTable}
    (hallocate : (w.engine.pending.sweep now).1.allocate
      ⟨⟨s.destination, s.identifier, s.nextSequence⟩, now, s.config.timeout⟩ = .ok pending) :
    (w.call .poll (.still now)).engine.pending = pending := by
  have hpoll := Engine.poll_of_due (t := .still now) hready hs hdue
  have hmoved : (w.engine.movedOn s now).pending = (w.engine.pending.sweep now).1 :=
    w.engine.pending_sweep now
  have hregister : (w.engine.movedOn s (Clock.still now).now).register (Clock.still now).later.now
      ⟨s.destination, s.identifier, s.nextSequence⟩ s.config.timeout =
        .ok { w.engine.movedOn s now with
          pending, statistics := (w.engine.movedOn s now).statistics.recordSent } := by
    show Engine.register (w.engine.movedOn s now) now _ _ = _
    rw [Engine.register, hmoved, hallocate]
  rw [engine_call]
  show (w.engine.poll _).engine.pending = pending
  rw [hpoll, hregister]
  rfl

/-- A session without pauses that waits for answers as long as it can, after sixteen echoes. -/
def hastySession : Ping.Session :=
  ⟨.continuous, ⟨10, 0, 2, 2⟩, 38348, 16, { timeout := 0xFFFFFFFF, interval := 0 }, 7⟩

/-- An echo of that session. -/
def hastyEcho (sequence : UInt16) (sentAt : Instant) : PendingEcho :=
  ⟨⟨⟨10, 0, 2, 2⟩, 38348, sequence⟩, sentAt, 0xFFFFFFFF⟩

/-- The first sixteen echoes, all in flight. -/
def hastyTable : PendingTable :=
  ⟨(List.range 16).map fun i => ⟨hastyEcho (UInt16.ofNat i) 7, true⟩, rfl⟩

/-- The polls of that session fill the table. -/
theorem hasty_fills : ∃ w r, Timed {} (fun _ w => w.FewStarts) w r ∧ r.now = 7 ∧ r.answers = [] ∧
    Stuck 7 hastySession hastyTable w.engine := by
  let ready := ({ engine := .new {} } : World).call .init (.still 7)
  let start : Call := .startPingWith hastySession.destination hastySession.config
  have hready : Timed {} (fun _ w => w.FewStarts) ready _ :=
    .step (.new 7) (.call _ .init) (.still (UInt64.le_refl 7)) (by decide)
  have hfirst : Timed {} (fun _ w => w.FewStarts) (ready.call start (.still 7)) _ :=
    .step hready (.call _ start) (.still (UInt64.le_refl 7)) (by decide)
  obtain ⟨r, hfilled, hnow, hanswers⟩ := hfirst.polls rfl 15
  refine ⟨_, r, hfilled, hnow, ?_, ?_⟩
  · rw [hanswers]
    decide
  · exact ⟨by decide +kernel, by decide +kernel, rfl, rfl, by decide, by decide +kernel,
      by decide +kernel, by decide +kernel⟩

/-- More polls use up the numbers. -/
theorem hasty_uses_up : ∃ w r s, Timed {} (fun _ w => w.FewStarts) w r ∧ r.now = 7 ∧
    r.answers = [] ∧ Stuck 7 s hastyTable w.engine ∧ hastySession.Same s ∧ s.nextSequence = 0 := by
  obtain ⟨w, r, h, hnow, hanswers, hstuck⟩ := hasty_fills
  obtain ⟨r', h', hnow', hanswers'⟩ := h.polls hnow 65520
  obtain ⟨s, hstuck', hsame, hnext⟩ := stuck_polls hstuck 65520
  exact ⟨_, r', s, h', hnow', hanswers'.trans hanswers, hstuck', hsame,
    hnext.trans (by decide +kernel)⟩

/-- When an answer makes room, the number of the first echo has come again, and that echo is still
in flight, in the slot that is found first. -/
theorem number_zero_again :
    ∃ w r, Timed {} (fun _ w => w.FewStarts) w r ∧ r.now = 9 ∧
      r.answers.map Answer.roundTrip = [1] ∧ ∃ p ∈ w.engine.pending.entries,
        ∃ q ∈ w.engine.pending.entries, p.key = q.key ∧ p.sentAt = 7 ∧ q.sentAt = 9 ∧
          w.engine.inTime? q.key 19 = some p := by
  obtain ⟨w₁, r₁, s, h₁, hnow₁, hanswers₁, hstuck, hsame, hnext⟩ := hasty_uses_up
  -- The answer to number one frees a slot.
  let freed : PendingTable := ((hastyTable.sweep 8).1.take? (hastyEcho 1 7).key).elim hastyTable
    Prod.snd
  have hanswered : w₁.engine.inTime? (hastyEcho 1 7).key 8 = some (hastyEcho 1 7) := by
    rw [Engine.inTime?, hstuck.pending]
    decide +kernel
  have hle₁ : r₁.now ≤ 8 := by
    rw [hnow₁]
    decide
  obtain ⟨r₂, h₂, hnow₂, hanswers₂, -⟩ := h₁.answer hanswered hle₁
    (fewStarts_call h₁.few (w₁.starts_answer _ _))
  have htake : (w₁.engine.pending.sweep 8).1.take? (hastyEcho 1 7).key =
      some (hastyEcho 1 7, freed) := by
    rw [hstuck.pending]
    decide +kernel
  have hfreed := pending_answer hstuck.ready htake
  have hready := (w₁.ready_answer (hastyEcho 1 7).key (.still 8)).trans hstuck.ready
  have hs := (w₁.session_answer (hastyEcho 1 7).key (.still 8)).trans hstuck.session
  generalize w₁.call (hastyEcho 1 7).key.answer (.still 8) = w₂ at h₂ hfreed hready hs
  -- The echo after that has number zero again.
  let last : PendingTable := ((freed.sweep 9).1.allocate (hastyEcho 0 9)).toOption.getD freed
  have hdue : s.nextSendAt ≤ 9 := UInt64.le_trans hstuck.due (by decide)
  have hlast : (w₂.call .poll (.still 9)).engine.pending = last := by
    refine pending_poll hready hs ⟨hstuck.continuous, hdue⟩ ?_
    rw [hsame.destination, hsame.identifier, hsame.config, hnext, hfreed]
    decide +kernel
  have hle₂ : r₂.now ≤ 9 := by
    rw [hnow₂]
    decide
  obtain ⟨r₃, h₃, hnow₃, hanswers₃⟩ := h₂.poll hle₂
  refine ⟨_, r₃, h₃, hnow₃, ?_, hastyEcho 0 7, ?_, hastyEcho 0 9, ?_, rfl, rfl, rfl, ?_⟩
  · rw [hanswers₃, hanswers₂, hanswers₁]
    rfl
  · rw [hlast]
    decide +kernel
  · rw [hlast]
    decide +kernel
  · rw [Engine.inTime?, hlast]
    decide +kernel

/-- So two echoes in flight have one key. -/
theorem same_key_twice :
    ∃ w, Reach {} FewStarts w ∧ ∃ p ∈ w.engine.pending.entries, ∃ q ∈ w.engine.pending.entries,
      p.key = q.key ∧ p.sentAt = 7 ∧ q.sentAt = 9 := by
  obtain ⟨w, r, h, -, -, p, hp, q, hq, hkey, hfirst, hsecond, -⟩ := number_zero_again
  exact ⟨w, h.reach fun _ _ hfew => hfew, p, hp, q, hq, hkey, hfirst, hsecond⟩

end World

end Icmp

end NetHost
