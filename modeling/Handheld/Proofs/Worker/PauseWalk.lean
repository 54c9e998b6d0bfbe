import Handheld.Proofs.Worker.Batching
import Handheld.Proofs.Worker.Shifting
import Mathlib.Data.List.Chain
import Mathlib.Data.List.Infix
import Mathlib.Logic.Function.Iterate

/-!
# Pauses, releases and the walk of their depth

Where a worker takes nothing but pauses and releases, the depth of its pauses walks up and down and stays
at zero rather than go below; the status turns and a message goes out where the walk leaves zero or comes
back to it, and nowhere else (`pauses_follow_walk`). A release undoes the pause before it (`unpause_pause`)
in all but the messages and the status that pauses kept which are gone (`Control.core`). So a nest of
pauses with all its releases leaves a worker as it was, wherever it starts.
-/

namespace Handheld

def Command.Paces (command : Command) : Prop := command = .pause ∨ command = .unpause

/-- What is added to the depth. -/
def Command.lift : Command → Int
  | .pause => 1
  | .unpause => -1
  | _ => 0

/-- The walk of the depth, up and down but not below zero. -/
def walk : Int → List Command → Int := List.foldl fun depth command => max 0 (depth + command.lift)

/-- The messages of a walk, in order: one each time it leaves zero, and one each time it comes back. -/
def crossings : Int → List Command → List String
  | _, [] => []
  | depth, command :: commands =>
    let next := max 0 (depth + command.lift)
    (if depth = 0 ∧ next = 1 then ["Paused"]
      else if depth = 1 ∧ next = 0 then ["Resumed"]
      else []) ++ crossings next commands

/-- As many releases as pauses, and never more of them up to any point. -/
def Balanced (commands : List Command) : Prop :=
  commands.count .pause = commands.count .unpause ∧
    ∀ early ∈ commands.inits, early.count .unpause ≤ early.count .pause

instance (commands : List Command) : Decidable (Balanced commands) :=
  inferInstanceAs (Decidable (_ ∧ _))

/-- Begun with so many pauses: all are released in the end, and none before it was made. -/
structure Closes (k : Nat) (commands : List Command) : Prop where
  count : commands.count .unpause = k + commands.count .pause
  early : ∀ early ∈ commands.inits, early.count .unpause ≤ k + early.count .pause

/-- The messages sent to the screen, newest first as events are. -/
def messages (events : List Event) : List String :=
  events.filterMap fun e =>
    match e with
    | .notified message => some message
    | _ => none

theorem Balanced.closes {commands : List Command} (h : Balanced commands) : Closes 0 commands :=
  ⟨by simpa using h.1.symm, by simpa using h.2⟩

theorem Closes.early_cons {k : Nat} {command : Command} {commands : List Command}
    (h : Closes k (command :: commands)) {early : List Command} (hearly : early ∈ commands.inits) :
    (command :: early).count .unpause ≤ k + (command :: early).count .pause :=
  h.early _ (by simpa using hearly)

theorem Closes.pause {k : Nat} {commands : List Command} (h : Closes k (.pause :: commands)) :
    Closes (k + 1) commands where
  count := by
    have hcount : commands.count .unpause = k + (commands.count .pause + 1) := by simpa using h.count
    omega
  early := fun early hearly => by
    have hle : early.count .unpause ≤ k + (early.count .pause + 1) := by
      simpa using h.early_cons hearly
    omega

theorem Closes.unpause {k : Nat} {commands : List Command} (h : Closes k (.unpause :: commands)) :
    ∃ j, k = j + 1 ∧ Closes j commands := by
  obtain ⟨j, rfl⟩ : ∃ j, k = j + 1 := by
    have hnil : [] ∈ commands.inits := by simp
    have hle : 1 ≤ k := by simpa using h.early_cons hnil
    exact ⟨k - 1, by omega⟩
  refine ⟨j, rfl, ?_, fun early hearly => ?_⟩
  · have hcount : commands.count .unpause + 1 = j + 1 + commands.count .pause := by
      simpa using h.count
    omega
  · have hle : early.count .unpause + 1 ≤ j + 1 + early.count .pause := by
      simpa using h.early_cons hearly
    omega

theorem alternating_crossings {depth : Int} (hdepth : 0 ≤ depth) (commands : List Command) :
    ((if depth = 0 then "Resumed" else "Paused") :: crossings depth commands).IsChain (· ≠ ·) := by
  induction commands generalizing depth with
  | nil => exact List.isChain_singleton _
  | cons command commands ih =>
    let next := max 0 (depth + command.lift)
    have hnext : 0 ≤ next := Int.le_max_left _ _
    have hlift : command.lift = 1 ∨ command.lift = -1 ∨ command.lift = 0 := by
      cases command <;> simp [Command.lift]
    have hrest := ih hnext
    show ((if depth = 0 then "Resumed" else "Paused") ::
      ((if depth = 0 ∧ next = 1 then ["Paused"] else if depth = 1 ∧ next = 0 then ["Resumed"] else []) ++
        crossings next commands)).IsChain (· ≠ ·)
    by_cases hup : depth = 0 ∧ next = 1
    · rw [if_neg (by omega)] at hrest
      rw [if_pos hup, if_pos hup.1]
      exact List.isChain_cons_cons.mpr ⟨by decide, hrest⟩
    · rw [if_neg hup]
      by_cases hdown : depth = 1 ∧ next = 0
      · rw [if_pos hdown.2] at hrest
        rw [if_pos hdown, if_neg (by omega)]
        exact List.isChain_cons_cons.mpr ⟨by decide, hrest⟩
      · -- without a crossing both depths are zero, or neither is
        have hsame : next = 0 ↔ depth = 0 := by omega
        simp only [hsame] at hrest
        rwa [if_neg hdown, List.nil_append]

theorem crossings_cons (depth : Int) (command : Command) (commands : List Command) :
    crossings depth (command :: commands) =
      crossings depth [command] ++ crossings (max 0 (depth + command.lift)) commands := by
  simp [crossings]

theorem crossings_pause (depth : Nat) :
    crossings depth [.pause] = if depth = 0 then ["Paused"] else [] := by
  have hcross : (depth : Int) = 0 ∧ max 0 ((depth : Int) + 1) = 1 ↔ depth = 0 := by omega
  have hback : ¬((depth : Int) = 1 ∧ max 0 ((depth : Int) + 1) = 0) := by omega
  simp only [crossings, Command.lift, hcross, hback, if_false, List.append_nil]

theorem crossings_unpause (depth : Nat) :
    crossings depth [.unpause] = if depth = 1 then ["Resumed"] else [] := by
  have hleave : ¬((depth : Int) = 0 ∧ max 0 ((depth : Int) + -1) = 1) := by omega
  have hcross : (depth : Int) = 1 ∧ max 0 ((depth : Int) + -1) = 0 ↔ depth = 1 := by omega
  simp only [crossings, Command.lift, hcross, hleave, if_false, List.append_nil]

namespace Control

variable {c d : Control} {booted : Bool} {command : Command} {commands : List Command}

/-! ## Sound while running -/

/-- While running, sound is let out. -/
def Audible (c : Control) : Prop := c.status = .running → c.sounding = true

theorem Audible.pause (h : Audible c) : Audible c.pause := by
  unfold Control.pause
  by_cases hdepth : c.pauses.depth = 0
  · by_cases hstatus : c.status = .paused <;> simp [Audible, notify, hdepth, hstatus]
  · simpa [Audible, hdepth] using h

theorem Audible.unpause (h : Audible c) : Audible c.unpause := by
  unfold Control.unpause
  by_cases hdepth : c.pauses.depth = 1
  · by_cases hsaved : c.pauses.saved = .paused <;> simp [Audible, notify, hdepth, hsaved]
  · simpa [Audible, hdepth] using h

theorem Audible.step {allowed : Command → Prop} (h : Audible c) (hstep : Step allowed c d) :
    Audible d := by
  cases hstep with
  | @obey booted command _ _ =>
    cases command with
    | run => exact fun _ => rfl
    | pause => exact h.pause
    | unpause => exact h.unpause
    | stop _ => exact nofun
    | frameStep => exact nofun
    | reset =>
      cases booted with
      | true => exact fun _ => rfl
      | false => exact h
    | exit => exact nofun
    | _ => exact h
  | halt => exact nofun
  | rest =>
    by_cases hstatus : c.status = .frameStep
    · rw [rested_of_step hstatus]
      exact nofun
    · rw [rested_of_ne hstatus]
      exact h
  | tell notices => exact h

theorem Audible.steps {allowed : Command → Prop} (h : Audible c)
    (hsteps : Relation.ReflTransGen (Step allowed) c d) : Audible d := by
  induction hsteps with
  | refl => exact h
  | tail _ hstep ih => exact ih.step hstep

/-! ## Calm -/

/-- Running or paused, with pauses and sound that fit. -/
structure Calm (c : Control) : Prop extends Paced c where
  status : c.status = .running ∨ c.status = .paused
  audible : Audible c

theorem Calm.awake (h : Calm c) : c.status ≠ .exiting := by
  rcases h.status with hstatus | hstatus <;> simp [hstatus]

theorem Calm.resting (h : Calm c) : c.status ≠ .frameStep := by
  rcases h.status with hstatus | hstatus <;> simp [hstatus]

theorem Calm.pause (h : Calm c) : Calm c.pause := by
  refine ⟨(h.toPaced.pause h.awake).1, ?_, h.audible.pause⟩
  unfold Control.pause
  by_cases hdepth : c.pauses.depth = 0
  · by_cases hstatus : c.status = .paused <;> simp [notify, hdepth, hstatus]
  · simpa [hdepth] using h.status

theorem Calm.unpause (h : Calm c) : Calm c.unpause := by
  refine ⟨h.toPaced.unpause, ?_, h.audible.unpause⟩
  unfold Control.unpause
  by_cases hdepth : c.pauses.depth = 1
  · rcases h.saved (by omega) with hsaved | hsaved <;> simp [notify, hdepth, hsaved]
  · simpa [hdepth] using h.status

theorem Calm.obey (h : Calm c) (booted : Bool) (hcommand : command.Paces) :
    Calm (c.obey booted command) := by
  rcases hcommand with rfl | rfl
  · exact h.pause
  · exact h.unpause

theorem Calm.notices (h : Calm c) (notices : List String) : Calm { c with notices } :=
  ⟨h.toPaced.notices notices, h.status, h.audible⟩

theorem Calm.nest (h : Calm c) (k : Nat) : Calm (Control.pause^[k] c) := by
  induction k with
  | zero => exact h
  | succ k ih =>
    rw [Function.iterate_succ_apply']
    exact ih.pause

/-! ## What pauses and releases go by -/

/-- All but the messages and the status that pauses kept which are gone. -/
def core (c : Control) : Control :=
  { c with notices := [], pauses := if c.pauses.depth = 0 then {} else c.pauses }

theorem depth_core (c : Control) : c.core.pauses.depth = c.pauses.depth := by
  unfold core
  by_cases hdepth : c.pauses.depth = 0 <;> simp [hdepth]

theorem depth_eq_of_core (hcore : c.core = d.core) : c.pauses.depth = d.pauses.depth := by
  rw [← c.depth_core, hcore, d.depth_core]

theorem core_obey (c : Control) (booted : Bool) (hcommand : command.Paces) :
    (c.core.obey booted command).core = (c.obey booted command).core := by
  rcases hcommand with rfl | rfl
  · by_cases hdepth : c.pauses.depth = 0
    · by_cases hstatus : c.status = .paused <;>
        simp [obey, Control.pause, core, notify, hdepth, hstatus]
    · simp [obey, Control.pause, core, hdepth]
  · by_cases hnone : c.pauses.depth = 0
    · simp [obey, Control.unpause, core, hnone]
    · by_cases hone : c.pauses.depth = 1
      · by_cases hsaved : c.pauses.saved = .paused <;>
          simp [obey, Control.unpause, core, notify, PauseStack.clear, hone, hsaved]
      · simp [obey, Control.unpause, core, hnone, hone]

theorem Calm.unpause_pause (h : Calm c) : c.pause.unpause.core = c.core := by
  unfold Control.pause
  by_cases hdepth : c.pauses.depth = 0
  · rcases h.status with hstatus | hstatus
    · have hsounding := h.audible hstatus
      simp [Control.unpause, core, notify, PauseStack.clear, hdepth, hstatus, hsounding]
    · simp [Control.unpause, core, PauseStack.clear, hdepth, hstatus]
  · simp [Control.unpause, core, hdepth]

def after : Control → List Command → Control := List.foldl (obey false)

theorem core_after (hcore : c.core = d.core) (hcommands : ∀ command ∈ commands, command.Paces) :
    (after c commands).core = (after d commands).core := by
  induction commands generalizing c d with
  | nil => exact hcore
  | cons command commands ih =>
    obtain ⟨hfirst, hrest⟩ := List.forall_mem_cons.mp hcommands
    refine ih ?_ hrest
    rw [← c.core_obey false hfirst, hcore, d.core_obey false hfirst]

/-- Pauses and releases on top of some pauses, with a release for each of them, lead back to where the
first of these was made. -/
theorem Calm.core_after_nest (h : Calm c) {k : Nat} (hcloses : Closes k commands)
    (hcommands : ∀ command ∈ commands, command.Paces) :
    (after (Control.pause^[k] c) commands).core = c.core := by
  induction commands generalizing k with
  | nil =>
    obtain rfl : k = 0 := by simpa using hcloses.count.symm
    rfl
  | cons command commands ih =>
    obtain ⟨hfirst, hrest⟩ := List.forall_mem_cons.mp hcommands
    -- a pause goes one deeper into the nest, and a release takes back the pause made last
    rcases hfirst with rfl | rfl
    · have hnest : after (Control.pause^[k] c) (.pause :: commands) =
          after (Control.pause^[k + 1] c) commands := by
        rw [Function.iterate_succ_apply']
        rfl
      rw [hnest]
      exact ih hcloses.pause hrest
    · obtain ⟨j, rfl, hless⟩ := hcloses.unpause
      have hundone : (Control.pause^[j + 1] c).unpause.core = (Control.pause^[j] c).core := by
        rw [Function.iterate_succ_apply']
        exact (h.nest j).unpause_pause
      have hnest : (after (Control.pause^[j + 1] c) (.unpause :: commands)).core =
          (after (Control.pause^[j] c) commands).core := core_after hundone hrest
      rw [hnest]
      exact ih hless hrest

/-! ## Depth, status and messages along the walk -/

theorem depth_obey (c : Control) (hcommand : command.Paces) :
    ((c.obey false command).pauses.depth : Int) = max 0 (c.pauses.depth + command.lift) := by
  rcases hcommand with rfl | rfl
  · show (c.pause.pauses.depth : Int) = max 0 (c.pauses.depth + 1)
    have hdepth : c.pause.pauses.depth = c.pauses.depth + 1 := by
      unfold Control.pause
      by_cases hdepth : c.pauses.depth = 0
      · by_cases hstatus : c.status = .paused <;> simp [notify, hdepth, hstatus]
      · simp [hdepth]
    omega
  · show (c.unpause.pauses.depth : Int) = max 0 ((c.pauses.depth : Int) + -1)
    have hdepth : c.unpause.pauses.depth = c.pauses.depth - 1 := by
      unfold Control.unpause
      by_cases hdepth : c.pauses.depth = 1
      · by_cases hsaved : c.pauses.saved = .paused <;>
          simp [notify, PauseStack.clear, hdepth, hsaved]
      · simp [hdepth]
    omega

theorem depth_after (c : Control) (hcommands : ∀ command ∈ commands, command.Paces) :
    ((after c commands).pauses.depth : Int) = walk c.pauses.depth commands := by
  induction commands generalizing c with
  | nil => rfl
  | cons command commands ih =>
    obtain ⟨hfirst, hrest⟩ := List.forall_mem_cons.mp hcommands
    show ((after (c.obey false command) commands).pauses.depth : Int) =
      walk (max 0 (c.pauses.depth + command.lift)) commands
    rw [ih _ hrest, c.depth_obey hfirst]

/-- The message that a command sends, if it sends one. -/
def tells (c : Control) : Command → List String
  | .pause => if c.pauses.depth = 0 ∧ c.status ≠ .paused then ["Paused"] else []
  | .unpause => if c.pauses.depth = 1 ∧ c.pauses.saved ≠ .paused then ["Resumed"] else []
  | _ => []

theorem tells_core (c : Control) (hcommand : command.Paces) : c.core.tells command = c.tells command := by
  rcases hcommand with rfl | rfl
  · simp only [tells, depth_core]
    rfl
  · by_cases hdepth : c.pauses.depth = 0 <;> simp [tells, core, hdepth]

/-- The messages that some commands send, in order. -/
def told : Control → List Command → List String
  | _, [] => []
  | c, command :: commands => c.tells command ++ told (c.obey false command) commands

theorem told_core (hcore : c.core = d.core) (hcommands : ∀ command ∈ commands, command.Paces) :
    told c commands = told d commands := by
  induction commands generalizing c d with
  | nil => rfl
  | cons command commands ih =>
    obtain ⟨hfirst, hrest⟩ := List.forall_mem_cons.mp hcommands
    have hnext : (c.obey false command).core = (d.obey false command).core := by
      rw [← c.core_obey false hfirst, hcore, d.core_obey false hfirst]
    unfold told
    rw [ih hnext hrest, ← c.tells_core hfirst, hcore, d.tells_core hfirst]

/-- Running without pauses, or paused with running to go back to. -/
def Underway (c : Control) : Prop :=
  (c.pauses.depth = 0 ∧ c.status = .running) ∨
    (0 < c.pauses.depth ∧ c.status = .paused ∧ c.pauses.saved = .running)

/-- The status turns and a message goes out where the walk leaves zero or comes back to it. -/
theorem Underway.obey (h : Underway c) (hcommand : command.Paces) : Underway (c.obey false command) ∧
    c.tells command = crossings c.pauses.depth [command] := by
  rcases hcommand with rfl | rfl
  · rw [crossings_pause]
    show Underway c.pause ∧ _
    rcases h with ⟨hdepth, hstatus⟩ | ⟨hdepth, hstatus, hsaved⟩
    · simp [Underway, Control.pause, tells, notify, hdepth, hstatus]
    · have hpositive : c.pauses.depth ≠ 0 := by omega
      simp [Underway, Control.pause, tells, hpositive, hstatus, hsaved]
  · rw [crossings_unpause]
    show Underway c.unpause ∧ _
    rcases h with ⟨hdepth, hstatus⟩ | ⟨hdepth, hstatus, hsaved⟩
    · simp [Underway, Control.unpause, tells, hdepth, hstatus]
    · by_cases hone : c.pauses.depth = 1
      · simp [Underway, Control.unpause, tells, notify, PauseStack.clear, hone, hsaved]
      · have hleft : 0 < c.pauses.depth - 1 := by omega
        simp [Underway, Control.unpause, tells, hone, hleft, hstatus, hsaved]

theorem Underway.after (h : Underway c) (hcommands : ∀ command ∈ commands, command.Paces) :
    Underway (after c commands) ∧ told c commands = crossings c.pauses.depth commands := by
  induction commands generalizing c with
  | nil => exact ⟨h, rfl⟩
  | cons command commands ih =>
    obtain ⟨hfirst, hrest⟩ := List.forall_mem_cons.mp hcommands
    obtain ⟨hnext, htells⟩ := h.obey hfirst
    obtain ⟨hunderway, htold⟩ := ih hnext hrest
    refine ⟨hunderway, ?_⟩
    rw [crossings_cons, ← htells, ← c.depth_obey hfirst, ← htold]
    rfl

theorem Underway.status_iff (h : Underway c) : (c.status = .paused ↔ 0 < c.pauses.depth) ∧
    (c.status = .running ↔ c.pauses.depth = 0) := by
  rcases h with ⟨hdepth, hstatus⟩ | ⟨hdepth, hstatus, -⟩
  · simp [hdepth, hstatus]
  · simp [hdepth, hdepth.ne', hstatus]

theorem Paced.depth_of_running (h : Paced c) (hrunning : c.status = .running) : c.pauses.depth = 0 := by
  by_contra hdepth
  rcases h.paused (by omega) with hstatus | hstatus
  all_goals
    rw [hrunning] at hstatus
    cases hstatus

end Control

namespace Worker

variable {F M : Type} {v w : Worker F M}

/-- Of the commands only pauses and releases are taken, no hotkey goes down and no wish to be stopped is
found. Frames and whatever happens around the worker come and go. -/
def PausesOnly (w : Worker F M) : Act F → Prop
  | .take e => e.command.Paces
  | .poll => (∀ k, w.sampleHotkeys.edges.pressed k = false) ∧ w.stopRequested = false
  | .frame _ => True
  | .outside _ => True
  | .shutdown => False

/-! ## Messages -/

def NoMessage (e : Event) : Prop := ∀ message, e ≠ .notified message

theorem messages_of_adds (h : Adds NoMessage w v) : messages v.journal = messages w.journal := by
  refine h.filterMap_eq fun e he => ?_
  cases e with
  | notified message => exact absurd rfl (he message)
  | _ => rfl

theorem messages_settle (w : Worker F M) : messages w.settle.journal = messages w.journal :=
  messages_of_adds (w.adds_settle fun _ _ _ _ => nofun)

theorem messages_respond (w : Worker F M) (c : Option Caller) (r : Reply) :
    messages (w.respond c r).journal = messages w.journal :=
  messages_of_adds (w.adds_respond c r fun _ _ _ => nofun)

theorem messages_pause (w : Worker F M) :
    messages w.pause.journal = (w.control.tells .pause).reverse ++ messages w.journal := by
  have htells : w.control.tells .pause =
      if w.pauses.depth = 0 ∧ w.status ≠ .paused then ["Paused"] else [] := rfl
  rw [htells]
  unfold pause PauseStack.push
  by_cases hdepth : w.pauses.depth = 0
  · by_cases hstatus : w.status = .paused
    · simp [hdepth, hstatus]
    · simp [hdepth, hstatus, notify, note, disableAudio, messages]
  · simp [hdepth]

theorem messages_unpause (w : Worker F M) :
    messages w.unpause.journal = (w.control.tells .unpause).reverse ++ messages w.journal := by
  have htells : w.control.tells .unpause =
      if w.pauses.depth = 1 ∧ w.pauses.saved ≠ .paused then ["Resumed"] else [] := rfl
  rw [htells]
  unfold unpause PauseStack.pop
  by_cases hdepth : w.pauses.depth = 1
  · by_cases hsaved : w.pauses.saved = .paused
    · simp [hdepth, hsaved]
    · simp [hdepth, hsaved, notify, note, enableAudio, messages]
  · simp [hdepth]

end Worker

namespace Standing

theorem messages_steps {may : License → Prop} {s t : Standing} (htell : ¬may .tell)
    (hsteps : Relation.ReflTransGen (Step may) s t) : messages t.journal = messages s.journal := by
  induction hsteps with
  | refl => rfl
  | tail _ hstep ih =>
    cases hstep with
    | tell _ hmay => exact absurd hmay htell
    | @enter e he =>
      cases e with
      | notified => exact he.elim
      | _ => exact ih
    | _ => exact ih

end Standing

namespace Worker

variable {F M : Type} {v w : Worker F M} [Machine M]

/-! ## Steps and runs -/

theorem quiet_poll (hkeys : ∀ k, w.sampleHotkeys.edges.pressed k = false)
    (hstop : w.stopRequested = false) :
    w.poll.control = w.control ∧ messages w.poll.journal = messages w.journal := by
  rw [poll_of_unpressed hkeys hstop]
  split
  · exact ⟨rfl, rfl⟩
  · exact ⟨control_settle _, messages_settle _⟩

theorem control_frameWith_of_resting (h : w.status ≠ .frameStep) (meanwhile : List (Outside F)) :
    ∃ notices, (w.frameWith meanwhile).control = { w.control with notices } := by
  rcases w.frameWith_eq meanwhile with ⟨-, heq⟩ | ⟨v, heq, -, notices, hcontrol, -⟩
  · exact ⟨w.notices, by rw [heq]; rfl⟩
  · have hresting : v.control.rested = v.control := Control.rested_of_ne (by rw [hcontrol]; exact h)
    refine ⟨notices, ?_⟩
    rw [heq, control_settleFrame, hresting, ite_self, hcontrol]

variable [Factory F M]

theorem messages_handle {e : Envelope} (hawake : w.status ≠ .exiting) (he : e.command.Paces) :
    messages (w.handle e).journal = (w.control.tells e.command).reverse ++ messages w.journal := by
  have hstep : e.command ≠ .frameStep := by
    rcases he with he | he <;> simp [he]
  have happlied : messages ((w.note (.taken e)).apply e.command).1.journal =
      (w.control.tells e.command).reverse ++ messages w.journal := by
    rcases he with he | he
    · rw [he]
      exact (w.note (.taken e)).messages_pause
    · rw [he]
      exact (w.note (.taken e)).messages_unpause
  rw [handle_of_awake hawake hstep, messages_respond, messages_settle, happlied]

theorem control_handle_of_paces {e : Envelope} (hawake : w.status ≠ .exiting) (he : e.command.Paces) :
    (w.handle e).control = w.control.obey false e.command := by
  rw [control_handle hawake]
  rcases he with he | he <;> rw [he] <;> rfl

theorem pausesOnly_step (hw : w.standing.Numbered) (hresting : w.status ≠ .frameStep) {a : Act F}
    (ha : w.PausesOnly a) (htake : ∀ e, a ≠ .take e) :
    (∃ notices, (w.step a).control = { w.control with notices }) ∧
      messages (w.step a).journal = messages w.journal := by
  have hshifts := w.shifts_step a hw
  cases a with
  | take e => exact absurd rfl (htake e)
  | poll =>
    obtain ⟨hcontrol, hmessages⟩ := quiet_poll ha.1 ha.2
    exact ⟨⟨w.notices, hcontrol⟩, hmessages⟩
  | frame meanwhile =>
    have htell : ¬w.Licenses (.frame meanwhile) .tell := by simp [Licenses]
    exact ⟨control_frameWith_of_resting hresting meanwhile, Standing.messages_steps htell hshifts⟩
  | outside o =>
    have htell : ¬w.Licenses (.outside o) .tell := by simp [Licenses]
    obtain ⟨-, notices, hcontrol, -⟩ := w.keeps_outside o
    exact ⟨⟨notices, hcontrol⟩, Standing.messages_steps htell hshifts⟩
  | shutdown => exact ha.elim

/-- A run of pauses and releases does to the control what these commands do one after the other, and
sends their messages. -/
theorem pausesOnly_run (hw : w.standing.Numbered) (hcalm : w.control.Calm) {acts : List (Act F)}
    (hacts : w.Along PausesOnly acts) :
    (∀ command ∈ commands acts, command.Paces) ∧
      (w.run acts).control.core = (w.control.after (commands acts)).core ∧
      messages (w.run acts).journal =
        (w.control.told (commands acts)).reverse ++ messages w.journal := by
  induction acts generalizing w with
  | nil => exact ⟨nofun, rfl, rfl⟩
  | cons a acts ih =>
    obtain ⟨ha, hrest⟩ := along_cons.mp hacts
    have hnext : (w.step a).standing.Numbered := numbered_run hw [a]
    -- only commands move what pauses go by, and only they send messages
    by_cases htake : ∃ e, a = .take e
    · obtain ⟨e, rfl⟩ := htake
      have hpaces : e.command.Paces := ha
      have hcontrol : (w.step (.take e)).control = w.control.obey false e.command :=
        control_handle_of_paces hcalm.awake hpaces
      have hmessages : messages (w.step (.take e)).journal =
          (w.control.tells e.command).reverse ++ messages w.journal :=
        messages_handle hcalm.awake hpaces
      have hcalmer : (w.step (.take e)).control.Calm := by
        rw [hcontrol]
        exact hcalm.obey false hpaces
      obtain ⟨hcommands, hcore, htold⟩ := ih hnext hcalmer hrest
      rw [hcontrol] at hcore htold
      refine ⟨List.forall_mem_cons.mpr ⟨hpaces, hcommands⟩, hcore, ?_⟩
      show messages ((w.step (.take e)).run acts).journal = (w.control.tells e.command ++
        (w.control.obey false e.command).told (commands acts)).reverse ++ messages w.journal
      rw [htold, hmessages, List.reverse_append, List.append_assoc]
    · have hquiet : ∀ e, a ≠ .take e := fun e he => htake ⟨e, he⟩
      have hskip : commands (a :: acts) = commands acts := by
        cases a with
        | take e => exact absurd rfl (hquiet e)
        | _ => rfl
      obtain ⟨⟨notices, hcontrol⟩, hmessages⟩ := pausesOnly_step hw hcalm.resting ha hquiet
      have hcalmer : (w.step a).control.Calm := by
        rw [hcontrol]
        exact hcalm.notices notices
      have hsame : (w.step a).control.core = w.control.core := by
        rw [hcontrol]
        rfl
      obtain ⟨hcommands, hcore, htold⟩ := ih hnext hcalmer hrest
      rw [hskip]
      refine ⟨hcommands, hcore.trans (Control.core_after hsame hcommands), ?_⟩
      rw [← Control.told_core hsame hcommands, ← hmessages]
      exact htold

omit [Machine M] [Factory F M] in
theorem audible_new (id : Nat) (factory : F) (world : World) (cartSave firmwareSave : Option Path)
    (audio : Pipeline) (mic : MicInput) :
    (new id factory world cartSave firmwareSave audio mic : Worker F M).control.Audible := nofun

/-- **Pauses walk.** Take any point of a run of a worker, before it is shut down, at which the worker is
running or paused with no step to run, and any way to go on from there that takes pauses and releases
only, in any order and for whomever, with frames between them and no hotkey or machine that interferes.
The depth then follows the walk, up by a pause and down by a release but never below zero. If the worker
was running, it is paused exactly while the depth is positive and running otherwise, and one message is
sent each time the walk leaves zero and one each time it comes back, in turns and beginning with the
former. And if all pauses are released, none before it was made, then status, depth, activity and sound
are what they were. -/
theorem pauses_follow_walk (id : Nat) (factory : F) (world : World) (cartSave firmwareSave : Option Path)
    (audio : Pipeline) (mic : MicInput) (early : List (Act F)) (hearly : .shutdown ∉ early)
    (acts : List (Act F)) :
    let w : Worker F M := .new id factory world cartSave firmwareSave audio mic
    let v := w.run early
    let z := v.run acts
    v.status = .running ∨ v.status = .paused → v.Along PausesOnly acts →
      (z.pauses.depth : Int) = walk v.pauses.depth (commands acts) ∧
      (v.status = .running →
        (z.status = .paused ↔ 0 < z.pauses.depth) ∧ (z.status = .running ↔ z.pauses.depth = 0) ∧
        messages z.journal = (crossings 0 (commands acts)).reverse ++ messages v.journal ∧
        ("Resumed" :: crossings 0 (commands acts)).IsChain (· ≠ ·)) ∧
      (Balanced (commands acts) →
        z.status = v.status ∧ z.pauses.depth = v.pauses.depth ∧ z.active = v.active ∧
          z.audio.enabled = v.audio.enabled) := by
  intro w v z hstatus hacts
  have hnew : w.control.Paced := paced_new id factory world cartSave firmwareSave audio mic
  have haudible : w.control.Audible := audible_new id factory world cartSave firmwareSave audio mic
  have hcalm : v.control.Calm :=
    ⟨paced_run hnew hearly, hstatus, haudible.steps (steers_run hnew hearly)⟩
  have hv : v.standing.Numbered :=
    numbered_run (numbered_new id factory world cartSave firmwareSave audio mic) early
  obtain ⟨hcommands, hcore, htold⟩ := pausesOnly_run hv hcalm hacts
  have hz : z.status = (v.control.after (commands acts)).status := congrArg Control.status hcore
  have hdepth : z.pauses.depth = (v.control.after (commands acts)).pauses.depth :=
    Control.depth_eq_of_core hcore
  refine ⟨?_, fun hrunning => ?_, fun hbalanced => ?_⟩
  · rw [hdepth]
    exact Control.depth_after v.control hcommands
  · have hzero : v.control.pauses.depth = 0 := hcalm.depth_of_running hrunning
    have hunderway : v.control.Underway := .inl ⟨hzero, hrunning⟩
    obtain ⟨hafter, hcrossings⟩ := hunderway.after hcommands
    rw [hzero] at hcrossings
    have halternating := alternating_crossings (Int.le_refl 0) (commands acts)
    rw [hz, hdepth]
    refine ⟨hafter.status_iff.1, hafter.status_iff.2, ?_, halternating⟩
    rw [htold, hcrossings]
    rfl
  · have hback : z.control.core = v.control.core :=
      hcore.trans (hcalm.core_after_nest hbalanced.closes hcommands)
    exact ⟨congrArg Control.status hback, Control.depth_eq_of_core hback,
      congrArg Control.active hback, congrArg Control.sounding hback⟩

/-- Two pauses with a frame between them and their releases; and a release too many, after which a pause
is left. -/
theorem walks_from_running :
    let w : Worker ScriptFactory ScriptMachine := rehearsal {} (.empty [])
    let v := w.run [.take ⟨.bootFirmware, none⟩, .take ⟨.run, none⟩]
    let nest := v.run [.take ⟨.pause, some 1⟩, .poll, .frame [], .take ⟨.pause, none⟩,
      .take ⟨.unpause, none⟩, .take ⟨.unpause, some 2⟩]
    let left := v.run [.take ⟨.unpause, none⟩, .poll, .frame [.readNotices], .take ⟨.pause, none⟩]
    (nest.status = v.status ∧ nest.pauses.depth = v.pauses.depth ∧ nest.active = v.active ∧
        nest.audio.enabled = v.audio.enabled) ∧
      messages nest.journal = ["Resumed", "Paused"] ++ messages v.journal ∧
      (left.pauses.depth : Int) = 1 ∧ left.status = .paused := by
  intro w v nest left
  have htake : ∀ {u : Worker ScriptFactory ScriptMachine} {e : Envelope}
      {late : List (Act ScriptFactory)}, e.command.Paces → (u.handle e).Along PausesOnly late →
      u.Along PausesOnly (.take e :: late) :=
    fun he hlate => along_cons.mpr ⟨he, hlate⟩
  have hpass : ∀ {u : Worker ScriptFactory ScriptMachine} {meanwhile : List (Outside ScriptFactory)}
      {late : List (Act ScriptFactory)}, u.input.hotkeysDown = {} → u.stopRequested = false →
      (u.run [.poll, .frame meanwhile]).Along PausesOnly late →
      u.Along PausesOnly (.poll :: .frame meanwhile :: late) :=
    fun hkeys hstop hlate =>
      along_cons.mpr ⟨⟨unpressed_of_none_down _ hkeys, hstop⟩, along_cons.mpr ⟨trivial, hlate⟩⟩
  let early : List (Act ScriptFactory) := [.take ⟨.bootFirmware, none⟩, .take ⟨.run, none⟩]
  let nesting : List (Act ScriptFactory) := [.take ⟨.pause, some 1⟩, .poll, .frame [],
    .take ⟨.pause, none⟩, .take ⟨.unpause, none⟩, .take ⟨.unpause, some 2⟩]
  let leaving : List (Act ScriptFactory) :=
    [.take ⟨.unpause, none⟩, .poll, .frame [.readNotices], .take ⟨.pause, none⟩]
  have hearly : .shutdown ∉ early := by simp [early]
  have hrunning : v.status = .running := by decide
  have hnesting : v.Along PausesOnly nesting :=
    htake (.inl rfl) <| hpass (by decide) (by decide) <| htake (.inl rfl) <| htake (.inr rfl) <|
      htake (.inr rfl) <| along_nil _ _
  have hleaving : v.Along PausesOnly leaving :=
    htake (.inr rfl) <| hpass (by decide) (by decide) <| htake (.inl rfl) <| along_nil _ _
  have hwalk := pauses_follow_walk 0 (⟨{}, false⟩ : ScriptFactory) ⟨.empty [], {}, 0⟩ none none
    (.new 0 {} {} {}) (.new (.empty []) .silence none) early hearly nesting
  have hother := pauses_follow_walk 0 (⟨{}, false⟩ : ScriptFactory) ⟨.empty [], {}, 0⟩ none none
    (.new 0 {} {} {}) (.new (.empty []) .silence none) early hearly leaving
  extract_lets w' v' nest' at hwalk
  extract_lets left' at hother
  have hv : v' = v := rfl
  have hnest : nest' = nest := rfl
  have hleft : left' = left := rfl
  rw [hnest, hv] at hwalk
  rw [hleft, hv] at hother
  obtain ⟨-, hmessages, hback⟩ := hwalk (.inl hrunning) hnesting
  obtain ⟨hdepth, hstatus, -⟩ := hother (.inl hrunning) hleaving
  have hone : (left.pauses.depth : Int) = 1 := hdepth.trans (by decide)
  have hcrossings : crossings 0 (commands nesting) = ["Paused", "Resumed"] := by decide
  have hturns : messages nest.journal = ["Resumed", "Paused"] ++ messages v.journal := by
    rw [(hmessages hrunning).2.2.1, hcrossings]
    rfl
  exact ⟨hback (by decide), hturns, hone, (hstatus hrunning).1.mpr (by omega)⟩

end Worker

end Handheld
