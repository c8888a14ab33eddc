import NetHost.Proofs.Icmp.Turns

/-!
# Runs of the engine

A `World` is the engine with the calls that are suspended in it, and a record of its sessions.  In
a step a call is made or a suspended one goes on; which one, and what the clock and the IP layer
say, is free (`Step`).  `step_cases` tells what a step does to the world.
-/

namespace NetHost.Icmp

structure Frame where
  call : Suspended
  /-- How many sessions had been started when the call was made. -/
  born : Nat

structure World where
  engine : Engine
  frames : List Frame := []
  /-- How many sessions were started. -/
  starts : Nat := 0
  /-- The mode of the session started last. -/
  mode : Option Ping.Mode := none
  /-- How many polls of that session had an echo due and found the table full. -/
  refused : Nat := 0

namespace World

/-- The frames with the call that a turn suspends. -/
def suspend (frames : List Frame) (turn : Turn) (born : Nat) : List Frame :=
  match turn.suspended? with
  | none => frames
  | some call => ⟨call, born⟩ :: frames

/-- The world after a call was made.  The call has started a session if it has taken an
identifier. -/
def call (w : World) (c : Call) (t : Clock) : World :=
  let turn := w.engine.start t c
  let frames := suspend w.frames turn w.starts
  if turn.engine.identifiersUsed ≠ w.engine.identifiersUsed then
    { engine := turn.engine, frames, starts := w.starts + 1, mode := c.mode? }
  else
    { w with
      engine := turn.engine
      frames
      refused :=
        if c = .init then 0
        else w.refused + if c = .poll ∧ w.engine.refuses t then 1 else 0 }

/-- The steps of the engine in use, with the call that is made if one is. -/
inductive Step : World → Option Call → World → Prop where
  | call (w : World) (c : Call) (t : Clock) : Step w (some c) (w.call c t)
  | resume {w : World} {before after : List Frame} {f : Frame} {t : Clock} {turn : Turn}
      (hframes : w.frames = before ++ f :: after) (hturn : Resumes w.engine t f.call turn) :
    Step w none
      { w with engine := turn.engine, frames := suspend (before ++ after) turn f.born }

/-- The worlds that a new engine comes to by steps into worlds that are `ok`. -/
inductive Reach (config : Ping.Config) (ok : World → Prop) : World → Prop where
  | new : Reach config ok { engine := .new config }
  | step {w w' : World} {c : Option Call} (h : Reach config ok w) (hstep : Step w c w')
      (hok : ok w') : Reach config ok w'

/-! ## What a step does -/

/-- The run of a blocking session that a frame is suspended in was there before. -/
def Carried (w : World) (f : Frame) : Prop :=
  ∀ run', f.call.run? = some run' → ∃ g ∈ w.frames, g.born = f.born ∧
    ∃ run, g.call.run? = some run ∧ run.Same run'

structure Inits (w w' : World) : Prop where
  engine : w'.engine = w.engine.init
  frames : w'.frames = w.frames
  starts : w'.starts = w.starts
  mode : w'.mode = w.mode
  refused : w'.refused = 0

structure Opens (R : Ping.Session → EchoKey → UInt32 → Prop) (s : Ping.Session) (w w' : World) :
    Prop where
  session : w.engine.Starts s
  moves : ∃ n, Moves R n (w.engine.begun s) w'.engine ∧ (w.engine.pending.count = 0 → n = 0)
  frames : ∀ f ∈ w'.frames, w.Carried f ∨ f.born = w.starts ∧
    ∀ run, f.call.run? = some run → run.Of s
  starts : w'.starts = w.starts + 1
  mode : w'.mode = some s.mode
  refused : w'.refused = 0

structure Goes (R : Ping.Session → EchoKey → UInt32 → Prop) (w w' : World) : Prop where
  moves : ∃ n, Moves R n w.engine w'.engine ∧ w'.refused = w.refused + n
  frames : ∀ f ∈ w'.frames, w.Carried f
  starts : w'.starts = w.starts
  mode : w'.mode = w.mode

variable {R : Ping.Session → EchoKey → UInt32 → Prop} {w w' : World} {c : Option Call}

theorem carried_of_mem {f : Frame} (h : f ∈ w.frames) : w.Carried f :=
  fun run hrun => ⟨f, h, rfl, run, hrun, .refl run⟩

/-- Every run fits the session if it has the session's identifier. -/
def Fits (R : Ping.Session → EchoKey → UInt32 → Prop) (w : World) : Prop :=
  ∀ f ∈ w.frames, ∀ run, f.call.run? = some run → run.Fits R w.engine.session

theorem mem_suspend {frames : List Frame} {turn : Turn} {born : Nat} {f : Frame}
    (h : f ∈ suspend frames turn born) :
    f ∈ frames ∨ f.born = born ∧ turn.suspended? = some f.call := by
  unfold suspend at h
  split at h
  · exact .inl h
  · rcases List.mem_cons.1 h with rfl | h
    · exact .inr ⟨rfl, ‹_›⟩
    · exact .inl h

theorem mem_suspend_of_mem {frames : List Frame} {f : Frame} (h : f ∈ frames) (turn : Turn)
    (born : Nat) : f ∈ suspend frames turn born := by
  unfold suspend
  split
  · exact h
  · exact List.mem_cons_of_mem _ h

/-- A turn from a frame of the world, or from none, leaves only runs that were there before. -/
theorem carried_suspend {n : Nat} {e : Engine} {frames : List Frame} {turn : Turn} {born : Nat}
    {run? : Option Run} (hleads : Leads R n e run? turn) (hsub : ∀ f ∈ frames, f ∈ w.frames)
    (hrun : ∀ run, run? = some run → ∃ g ∈ w.frames, g.born = born ∧ g.call.run? = some run) :
    ∀ f ∈ suspend frames turn born, w.Carried f := by
  intro f hf
  rcases mem_suspend hf with hf | ⟨rfl, hcall⟩
  · exact carried_of_mem (hsub f hf)
  · intro run' hrun'
    obtain ⟨run, h, hsame⟩ := hleads.run f.call run' hcall hrun'
    obtain ⟨g, hg, hborn, hgrun⟩ := hrun run h
    exact ⟨g, hg, hborn, run, hgrun, hsame⟩

theorem call_of_keeps {c : Call} {t : Clock}
    (h : (w.engine.start t c).engine.identifiersUsed = w.engine.identifiersUsed) :
    w.call c t =
      { w with
        engine := (w.engine.start t c).engine
        frames := suspend w.frames (w.engine.start t c) w.starts
        refused :=
          if c = .init then 0
          else w.refused + if c = .poll ∧ w.engine.refuses t then 1 else 0 } :=
  if_neg (not_not.2 h)

theorem call_of_opens {c : Call} {t : Clock}
    (h : (w.engine.start t c).engine.identifiersUsed = w.engine.identifiersUsed + 1) :
    w.call c t =
      { engine := (w.engine.start t c).engine
        frames := suspend w.frames (w.engine.start t c) w.starts
        starts := w.starts + 1
        mode := c.mode? } := by
  apply if_pos
  rw [h]
  intro heq
  have := congrArg UInt16.toNat heq
  rw [UInt16.toNat_add] at this
  have := w.engine.identifiersUsed.toNat_lt
  simp only [UInt16.reduceToNat] at *
  omega

theorem identifiersUsed_of_starts {c : Call} {t : Clock} (h : (w.call c t).starts = w.starts) :
    (w.engine.start t c).engine.identifiersUsed = w.engine.identifiersUsed := by
  by_contra hne
  rw [call, if_pos hne] at h
  exact absurd h (Nat.succ_ne_self _)

theorem identifiersUsed_ne_of_starts {c : Call} {t : Clock}
    (h : (w.call c t).starts = w.starts + 1) :
    (w.engine.start t c).engine.identifiersUsed ≠ w.engine.identifiersUsed := by
  intro heq
  rw [call_of_keeps heq] at h
  exact absurd h.symm (Nat.succ_ne_self _)

theorem call_cases (hR : AdmitsOwn R) (w : World) (c : Call) (t : Clock) :
    (c = .init ∧ w.Inits (w.call c t)) ∨ (∃ s, Opens R s w (w.call c t)) ∨
      Goes R w (w.call c t) := by
  by_cases hinit : c = .init
  · subst hinit
    rw [call_of_keeps rfl]
    exact .inl ⟨rfl, rfl, rfl, rfl, rfl, rfl⟩
  · right
    rcases leads_start hR w.engine t hinit with hleads | ⟨mode, hmode, hopens⟩
    · right
      rw [call_of_keeps hleads.moves.keeps.2, if_neg hinit]
      exact ⟨⟨_, hleads.moves, rfl⟩, carried_suspend hleads (fun _ hf => hf) nofun, rfl, rfl⟩
    · left
      obtain ⟨s, n, run?, hstarts, rfl, hleads, hrun, hempty⟩ := hopens
      rw [call_of_opens hleads.moves.keeps.2, hmode]
      refine ⟨s, hstarts, ⟨n, hleads.moves, hempty⟩, fun f hf => ?_, rfl, rfl, rfl⟩
      rcases mem_suspend hf with hf | ⟨hborn, hcall⟩
      · exact .inl (carried_of_mem hf)
      · refine .inr ⟨hborn, fun run' hrun' => ?_⟩
        obtain ⟨run, h, hsame⟩ := hleads.run f.call run' hcall hrun'
        exact (hrun run h).of_same hsame (.refl s)

section

variable {before after : List Frame} {f g : Frame} (hframes : w.frames = before ++ f :: after)

include hframes

theorem mem_frames : f ∈ w.frames := by
  rw [hframes]
  exact List.mem_append_right before List.mem_cons_self

theorem mem_frames_of_rest (hg : g ∈ before ++ after) : g ∈ w.frames := by
  rw [hframes]
  rcases List.mem_append.1 hg with hg | hg
  · exact List.mem_append_left _ hg
  · exact List.mem_append_right _ (List.mem_cons_of_mem f hg)

end

theorem step_cases (hR : AdmitsOwn R) (hfits : w.Fits R) (h : Step w c w') :
    (c = some .init ∧ w.Inits w') ∨ (∃ s, Opens R s w w') ∨ Goes R w w' := by
  cases h with
  | call c t =>
    rcases call_cases hR w c t with ⟨rfl, h⟩ | h
    · exact .inl ⟨rfl, h⟩
    · exact .inr h
  | @resume before after f t turn hframes hturn =>
    have hf := mem_frames hframes
    have hleads := leads_resumes hturn (hfits f hf)
    have hsub : ∀ g ∈ before ++ after, g ∈ w.frames := fun _ => mem_frames_of_rest hframes
    refine .inr (.inr ⟨⟨0, hleads.moves, rfl⟩, carried_suspend hleads hsub ?_, rfl, rfl⟩)
    exact fun run hrun => ⟨f, hf, rfl, hrun⟩

end World

end NetHost.Icmp
