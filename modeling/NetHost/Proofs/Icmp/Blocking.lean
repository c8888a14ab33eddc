import Mathlib.Tactic.Common
import NetHost.Proofs.Icmp.World

/-!
# Others, while a blocking session runs

A call that sends or sleeps gives way to others.  While a blocking session runs, no other call ends
it, starts one of its own or sends an echo of it: whatever others do, they settle echoes at the most
(`World.Others.settles`).
-/

namespace NetHost.Icmp

open Ipv4 (Address)

variable {e : Engine} {s : Ping.Session} {turn : Turn} {t : Clock}

/-- There is one session at a time. -/
theorem beginSession_of_running (hs : e.session = some s) (now : Instant) (destination : Address)
    (mode : Ping.Mode) (config : Ping.Config) :
    ∃ cause journal, e.beginSession now destination mode config.normalized =
      ({ e with journal }, .error cause) := by
  refine beginSession_of_not (fun h => ?_) now destination mode config
  rw [h.2] at hs
  cases hs

namespace Aside

theorem poll (hs : e.session = some s) (hmode : s.mode = .blocking) (t : Clock) :
    Aside e (e.poll t) := by
  cases hready : e.ready with
  | false =>
    rw [Engine.poll_of_not_ready hready]
    exact done .refl _
  | true =>
    rw [Engine.poll_of_not_due hready fun s' hs' hdue => ?_]
    · exact done (Settles.refl.sweep t.now) _
    · cases hs.symm.trans hs'
      rw [hmode] at hdue
      cases hdue.1

theorem pingWith (hs : e.session = some s) (t : Clock) (destination : Address)
    (config : Ping.Config) : Aside e (e.pingWith t destination config) := by
  simp only [Engine.pingWith]
  split_ifs
  · exact done .refl _
  · obtain ⟨cause, journal, h⟩ := beginSession_of_running hs t.now destination .blocking config
    rw [h]
    exact done (Settles.refl.idle e.counters journal) _

theorem startPingWith (hs : e.session = some s) (t : Clock) (destination : Address)
    (config : Ping.Config) : Aside e (e.startPingWith t destination config) := by
  simp only [Engine.startPingWith]
  split_ifs
  · exact done .refl _
  · obtain ⟨cause, journal, h⟩ := beginSession_of_running hs t.now destination .continuous config
    rw [h]
    exact done (Settles.refl.idle e.counters journal) _

theorem stopPing (hs : e.session = some s) (hmode : s.mode = .blocking) (t : Clock) :
    Aside e (e.stopPing t) := by
  have hnot : ¬ e.session.any (·.mode = .continuous) := by simp [hs, hmode]
  rw [Engine.stopPing, if_neg hnot]
  exact done .refl _

/-- While a session runs only a poll or its end does more than settle echoes. -/
theorem start_of_running (hs : e.session = some s) (t : Clock) {c : Call} (hinit : c ≠ .init)
    (hpoll : c ≠ .poll) (hstop : c ≠ .stopPing) : Aside e (e.start t c) := by
  cases c with
  | init => exact absurd rfl hinit
  | poll => exact absurd rfl hpoll
  | report => exact done Settles.refl.report _
  | input source packet => exact input .refl t source packet
  | sendRequest destination echo => exact sendEcho .refl destination _ _ echo
  | sendReply destination echo => exact sendEcho .refl destination _ _ echo
  | sendUnreachable destination report => exact sendReport .refl destination _ _ report
  | sendTimeExceeded destination report => exact sendReport .refl destination _ _ report
  | ping destination count timeout => exact pingWith hs t destination _
  | pingWith destination config => exact pingWith hs t destination config
  | startPing destination => exact startPingWith hs t destination _
  | startPingWith destination config => exact startPingWith hs t destination config
  | stopPing => exact absurd rfl hstop

theorem start (hs : e.session = some s) (hmode : s.mode = .blocking) (t : Clock) {c : Call}
    (hinit : c ≠ .init) : Aside e (e.start t c) := by
  by_cases hpoll : c = .poll
  · rw [hpoll]
    exact poll hs hmode t
  · by_cases hstop : c = .stopPing
    · rw [hstop]
      exact stopPing hs hmode t
    · exact start_of_running hs t hinit hpoll hstop

theorem message_of_resumes {kind : Kind} {destination : Address}
    (h : Resumes e t (.sending (.message kind destination)) turn) : Aside e turn := by
  cases h with
  | sent answer =>
    cases answer with
    | ok _ => exact done (Settles.refl.count _) _
    | error cause => exact done ((Settles.refl.count _).note _) _

end Aside

namespace World

variable {w w' : World} {c : Option Call}

/-- What others do in the meantime: they make calls, and go on with those they have suspended.  None
of them makes the engine ready anew. -/
inductive Others (w : World) : World → Prop where
  | refl : Others w w
  | step {w' w'' : World} {c : Option Call} (h : Others w w') (hstep : Step w' c w'')
      (hinit : c ≠ some .init) : Others w w''

/-- The calls that are suspended have no part in a session. -/
def OnlyMessages (w : World) : Prop :=
  ∀ f ∈ w.frames, ∃ kind destination, f.call = .sending (.message kind destination)

theorem onlyMessages_suspend {frames : List Frame} {turn : Turn} {born : Nat}
    (hframes : ∀ f ∈ frames, ∃ kind destination, f.call = .sending (.message kind destination))
    (haside : Aside e turn) :
    ∀ f ∈ suspend frames turn born,
      ∃ kind destination, f.call = .sending (.message kind destination) := by
  intro f hf
  rcases mem_suspend hf with hf | ⟨-, hcall⟩
  · exact hframes f hf
  · exact haside.message f.call hcall

theorem engine_call (w : World) (c : Call) (t : Clock) :
    (w.call c t).engine = (w.engine.start t c).engine := by
  simp only [call]
  split <;> rfl

theorem frames_call (w : World) (c : Call) (t : Clock) :
    (w.call c t).frames = suspend w.frames (w.engine.start t c) w.starts := by
  simp only [call]
  split <;> rfl

theorem settles_of_step (hs : w.engine.session = some s) (hmode : s.mode = .blocking)
    (hw : w.OnlyMessages) (hstep : Step w c w') (hinit : c ≠ some .init) :
    Settles w.engine w'.engine ∧ w'.OnlyMessages := by
  cases hstep with
  | call c t =>
    have haside := Aside.start hs hmode t fun h => hinit (congrArg some h)
    rw [OnlyMessages, engine_call, frames_call]
    exact ⟨haside.settles, onlyMessages_suspend hw haside⟩
  | @resume before after f t turn hframes hturn =>
    obtain ⟨kind, destination, hf⟩ := hw f (mem_frames hframes)
    rw [hf] at hturn
    have haside := Aside.message_of_resumes hturn
    exact ⟨haside.settles,
      onlyMessages_suspend (fun g hg => hw g (mem_frames_of_rest hframes hg)) haside⟩

/-- A blocking session has nothing to fear from others. -/
theorem Others.settles (h : Others w w') (hs : w.engine.session = some s)
    (hmode : s.mode = .blocking) (hw : w.OnlyMessages) :
    Settles w.engine w'.engine ∧ w'.OnlyMessages := by
  induction h with
  | refl => exact ⟨.refl, hw⟩
  | step h hstep hinit ih =>
    obtain ⟨hsettles, hmessages⟩ := ih
    obtain ⟨hsettles', hmessages'⟩ :=
      settles_of_step (hsettles.session.trans hs) hmode hmessages hstep hinit
    exact ⟨hsettles.trans hsettles', hmessages'⟩

end World

end NetHost.Icmp
