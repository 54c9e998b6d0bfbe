import Handheld.Proofs.Worker.Steering
import Mathlib.Logic.Relation

/-!
# Status, pauses and sound

Status, pause depth, the status kept for later and the sound of a worker fit together between any two
steps (`status_fits_pauses_and_sound`). `Control.Step` lists the few things a step makes of the control,
`steers_step` says that there are no others, and what has to fit is shown of these few. A hotkey may come
after another one in the same poll: that a command found the worker exiting is excluded only because
the pauses fit, so that `steers_step` asks for that.
-/

namespace Handheld

def Hotkey.commands : Hotkey → List Command
  | .pause => [.pause, .unpause]
  | .reset => [.reset]
  | .powerButton => [.stop true]
  | .frameStep => [.frameStep]
  | _ => []

namespace Control

variable {c d : Control} {allowed : Command → Prop}

theorem press_cases (booted : Bool) (c : Control) (k : Hotkey) : c.press booted k = c ∨
    ∃ command ∈ k.commands, c.press booted k = c.obey booted command := by
  cases k with
  | pause =>
    right
    by_cases h : c.status = .paused
    · exact ⟨.unpause, by simp [Hotkey.commands], by simp [press, h]⟩
    · exact ⟨.pause, by simp [Hotkey.commands], by simp [press, h]⟩
  | reset => exact .inr ⟨.reset, by simp [Hotkey.commands], rfl⟩
  | powerButton =>
    cases h : c.active with
    | true => exact .inr ⟨.stop true, by simp [Hotkey.commands], by simp [press, h]⟩
    | false => exact .inl (by simp [press, h])
  | frameStep => exact .inr ⟨.frameStep, by simp [Hotkey.commands], rfl⟩
  | _ => exact .inl rfl

/-- What a step makes of the control: it carries out allowed commands while not exiting, halts, ends a
step, or lets messages come and go. -/
inductive Step (allowed : Command → Prop) : Control → Control → Prop
  | obey {c : Control} (booted : Bool) {command : Command} (hawake : c.status ≠ .exiting)
      (h : allowed command) : Step allowed c (c.obey booted command)
  | halt (c : Control) : Step allowed c c.halt
  | rest (c : Control) : Step allowed c c.rested
  | tell (c : Control) (notices : List String) : Step allowed c { c with notices }

/-! ## Pauses that fit the status -/

/-- A step is taken from a pause, pauses are outstanding only while paused or stepping, and the status
kept for later is one to go back to. -/
structure Paced (c : Control) : Prop where
  stepping : c.status = .frameStep → 0 < c.pauses.depth
  paused : 0 < c.pauses.depth → c.status = .paused ∨ c.status = .frameStep
  saved : 0 < c.pauses.depth → c.pauses.saved = .running ∨ c.pauses.saved = .paused

theorem paced_of_depth_eq_zero (hdepth : c.pauses.depth = 0) (hstatus : c.status ≠ .frameStep) :
    Paced c where
  stepping := fun h => absurd h hstatus
  paused := fun h => by omega
  saved := fun h => by omega

theorem Paced.notices (h : Paced c) (notices : List String) : Paced { c with notices } :=
  ⟨h.stepping, h.paused, h.saved⟩

theorem Paced.sounding (h : Paced c) (sounding : Bool) : Paced { c with sounding } :=
  ⟨h.stepping, h.paused, h.saved⟩

theorem Paced.status_of_depth_eq_zero (h : Paced c) (hawake : c.status ≠ .exiting)
    (hdepth : c.pauses.depth = 0) : c.status = .running ∨ c.status = .paused := by
  cases hstatus : c.status with
  | running => exact .inl rfl
  | paused => exact .inr rfl
  | frameStep =>
    have := h.stepping hstatus
    omega
  | exiting => exact absurd hstatus hawake

theorem Paced.awake (h : Paced c) (hdepth : 0 < c.pauses.depth) : c.status ≠ .exiting := by
  rcases h.paused hdepth with hstatus | hstatus <;> simp [hstatus]

theorem Paced.pause (h : Paced c) (hawake : c.status ≠ .exiting) :
    Paced c.pause ∧ 0 < c.pause.pauses.depth := by
  unfold Control.pause
  by_cases hdepth : c.pauses.depth = 0
  · rw [if_pos hdepth]
    have hfrom := h.status_of_depth_eq_zero hawake hdepth
    by_cases hstatus : c.status = .paused
    · have hpaced : Paced { c with pauses := ⟨1, c.status⟩ } :=
        ⟨fun hstep => by simp [hstatus] at hstep, fun _ => .inl hstatus, fun _ => hfrom⟩
      simp only [hstatus, if_true] at hpaced ⊢
      exact ⟨hpaced, Nat.one_pos⟩
    · simp only [if_neg hstatus]
      exact ⟨⟨nofun, fun _ => .inl rfl, fun _ => hfrom⟩, Nat.one_pos⟩
  · rw [if_neg hdepth]
    have hpositive : 0 < c.pauses.depth := by omega
    exact ⟨⟨fun _ => Nat.succ_pos _, fun _ => h.paused hpositive, fun _ => h.saved hpositive⟩,
      Nat.succ_pos _⟩

theorem Paced.unpause (h : Paced c) : Paced c.unpause := by
  unfold Control.unpause
  by_cases hdepth : c.pauses.depth = 1
  · have hsaved := h.saved (by omega)
    have hresumed : Paced { c with status := c.pauses.saved, pauses := c.pauses.clear } := by
      refine paced_of_depth_eq_zero rfl ?_
      rcases hsaved with hsaved | hsaved <;> simp [hsaved]
    rw [if_pos hdepth]
    dsimp only
    split
    · exact hresumed
    · exact (hresumed.sounding true).notices _
  · rw [if_neg hdepth]
    refine ⟨fun hstep => ?_, fun hpositive => h.paused ?_, fun hpositive => h.saved ?_⟩
    · have hpositive := h.stepping hstep
      show 0 < c.pauses.depth - 1
      omega
    all_goals
      change 0 < c.pauses.depth - 1 at hpositive
      omega

theorem Paced.frameStep (h : Paced c) (hawake : c.status ≠ .exiting) : Paced c.frameStep := by
  unfold Control.frameStep
  by_cases hdepth : c.pauses.depth = 0
  · obtain ⟨hpaced, hpositive⟩ := h.pause hawake
    rw [if_pos hdepth]
    exact ⟨fun _ => hpositive, fun _ => .inr rfl, hpaced.saved⟩
  · rw [if_neg hdepth]
    exact ⟨fun _ => by show 0 < c.pauses.depth; omega, fun _ => .inr rfl, h.saved⟩

theorem Paced.halt (h : Paced c) : Paced c.halt := ⟨nofun, fun _ => .inl rfl, h.saved⟩

theorem Paced.rested (h : Paced c) : Paced c.rested := by
  unfold Control.rested
  by_cases hstatus : c.status = .frameStep
  · rw [if_pos hstatus]
    exact ⟨nofun, fun _ => .inl rfl, h.saved⟩
  · rw [if_neg hstatus]
    exact h

theorem Paced.obey (h : Paced c) (hawake : c.status ≠ .exiting) (booted : Bool)
    (command : Command) : Paced (c.obey booted command) := by
  have hlive : Paced c.goLive := paced_of_depth_eq_zero rfl nofun
  cases command with
  | run => exact hlive
  | pause => exact (h.pause hawake).1
  | unpause => exact h.unpause
  | stop _ => exact h.halt
  | frameStep => exact h.frameStep hawake
  | reset =>
    cases booted with
    | true => exact hlive.notices _
    | false => exact h
  | exit => exact paced_of_depth_eq_zero rfl nofun
  | _ => exact h

/-- Only an exit leads to exiting: no pause keeps that status for later. -/
theorem Paced.awake_obey (h : Paced c) (hawake : c.status ≠ .exiting) (booted : Bool)
    {command : Command} (hexit : command ≠ .exit) : (c.obey booted command).status ≠ .exiting := by
  cases command with
  | run =>
    show Status.running ≠ .exiting
    decide
  | pause =>
    show c.pause.status ≠ .exiting
    unfold Control.pause
    by_cases hdepth : c.pauses.depth = 0
    · by_cases hstatus : c.status = .paused <;> simp [hdepth, hstatus, notify]
    · simpa [hdepth] using hawake
  | unpause =>
    show c.unpause.status ≠ .exiting
    unfold Control.unpause
    by_cases hdepth : c.pauses.depth = 1
    · rcases h.saved (by omega) with hsaved | hsaved <;> simp [hdepth, hsaved, notify]
    · simpa [hdepth] using hawake
  | stop _ =>
    show Status.paused ≠ .exiting
    decide
  | frameStep =>
    show Status.frameStep ≠ .exiting
    decide
  | reset =>
    cases booted with
    | true =>
      show Status.running ≠ .exiting
      decide
    | false => exact hawake
  | exit => exact absurd rfl hexit
  | _ => exact hawake

theorem Paced.step (h : Paced c) (hstep : Step allowed c d) : Paced d := by
  cases hstep with
  | obey booted hawake _ => exact h.obey hawake booted _
  | halt => exact h.halt
  | rest => exact h.rested
  | tell notices => exact h.notices notices

theorem Paced.steps (h : Paced c) (hsteps : Relation.ReflTransGen (Step allowed) c d) : Paced d := by
  induction hsteps with
  | refl => exact h
  | tail _ hstep ih => exact ih.step hstep

/-! ## Sound that fits the status -/

/-- Sound is let out while running, and only then. -/
def InTune (c : Control) : Prop := c.sounding = true ↔ c.status = .running

theorem InTune.silent (h : InTune c) (hpaced : Paced c) (hdepth : 0 < c.pauses.depth) :
    c.sounding = false := by
  cases hsounding : c.sounding with
  | false => rfl
  | true =>
    have hrunning := h.mp hsounding
    rcases hpaced.paused hdepth with hstatus | hstatus
    all_goals
      rw [hrunning] at hstatus
      cases hstatus

theorem InTune.pause (h : InTune c) (hpaced : Paced c) :
    InTune c.pause ∧ c.pause.sounding = false := by
  unfold Control.pause
  by_cases hdepth : c.pauses.depth = 0
  · rw [if_pos hdepth]
    by_cases hstatus : c.status = .paused
    · have hsilent : c.sounding = false := by simpa [InTune, hstatus] using h
      simp [InTune, hstatus, hsilent]
    · simp [InTune, notify, hstatus]
  · rw [if_neg hdepth]
    exact ⟨h, h.silent hpaced (by omega)⟩

theorem InTune.unpause (h : InTune c) (hpaced : Paced c) : InTune c.unpause := by
  unfold Control.unpause
  by_cases hdepth : c.pauses.depth = 1
  · have hsilent : c.sounding = false := h.silent hpaced (by omega)
    rw [if_pos hdepth]
    rcases hpaced.saved (by omega) with hsaved | hsaved
    · simp [InTune, notify, hsaved]
    · simp [InTune, hsaved, hsilent]
  · rw [if_neg hdepth]
    exact h

theorem InTune.frameStep (h : InTune c) (hpaced : Paced c) : InTune c.frameStep := by
  have hsilent : c.frameStep.sounding = false := by
    unfold Control.frameStep
    by_cases hdepth : c.pauses.depth = 0
    · rw [if_pos hdepth]
      exact (h.pause hpaced).2
    · rw [if_neg hdepth]
      exact h.silent hpaced (by omega)
  have hstatus : c.frameStep.status = .frameStep := rfl
  simp [InTune, hsilent, hstatus]

theorem InTune.step (h : InTune c) (hpaced : Paced c) (hstep : Step allowed c d) : InTune d := by
  cases hstep with
  | @obey booted command _ _ =>
    cases command with
    | run => simp [InTune, obey, goLive]
    | pause => exact (h.pause hpaced).1
    | unpause => exact h.unpause hpaced
    | stop _ => simp [InTune, obey, Control.halt]
    | frameStep => exact h.frameStep hpaced
    | reset =>
      cases booted with
      | true => simp [InTune, obey, goLive, notify]
      | false => exact h
    | exit => simp [InTune, obey, exit]
    | _ => exact h
  | halt => simp [InTune, Control.halt]
  | rest =>
    unfold rested
    by_cases hstatus : c.status = .frameStep
    · have hsilent : c.sounding = false := h.silent hpaced (hpaced.stepping hstatus)
      simp [InTune, hstatus, hsilent]
    · rw [if_neg hstatus]
      exact h
  | tell notices => exact h

theorem InTune.steps (h : InTune c) (hpaced : Paced c)
    (hsteps : Relation.ReflTransGen (Step allowed) c d) : InTune d := by
  induction hsteps with
  | refl => exact h
  | tail hsteps hstep ih => exact ih.step (hpaced.steps hsteps) hstep

/-! ## Hotkeys and messages -/

theorem steps_notify (c : Control) (messages : List String) :
    Relation.ReflTransGen (Step allowed) c (messages.foldl notify c) := by
  induction messages generalizing c with
  | nil => exact .refl
  | cons message messages ih => exact (ih (c.notify message)).head (.tell c _)

theorem steps_press (h : Paced c) (hawake : c.status ≠ .exiting) (booted : Bool)
    {keys : List Hotkey} (hkeys : ∀ k ∈ keys, ∀ command ∈ k.commands, allowed command) :
    Relation.ReflTransGen (Step allowed) c (keys.foldl (press booted) c) := by
  induction keys generalizing c with
  | nil => exact .refl
  | cons k keys ih =>
    have hrest : ∀ l ∈ keys, ∀ command ∈ l.commands, allowed command :=
      fun l hl => hkeys l (List.mem_cons_of_mem k hl)
    rw [List.foldl_cons]
    rcases c.press_cases booted k with hpress | ⟨command, hcommand, hpress⟩
    · rw [hpress]
      exact ih h hawake hrest
    · -- the next hotkey finds the worker awake, since no hotkey stands for an exit
      have hexit : command ≠ .exit := by
        rintro rfl
        cases k <;> simp [Hotkey.commands] at hcommand
      rw [hpress]
      exact (ih (h.obey hawake booted command) (h.awake_obey hawake booted hexit) hrest).head
        (.obey booted hawake (hkeys k List.mem_cons_self command hcommand))

end Control

namespace Worker

variable {F M : Type} {allowed : Command → Prop} {v w : Worker F M}

/-- The control of the second worker comes from that of the first. -/
def Steers (allowed : Command → Prop) (w v : Worker F M) : Prop :=
  Relation.ReflTransGen (Control.Step allowed) w.control v.control

theorem Steers.of_eq (h : v.control = w.control) : Steers allowed w v := by
  rw [Steers, h]

/-- The commands that a step may carry out: the one it takes, or those that hotkeys stand for. -/
def Heeds (w : Worker F M) : Act F → Command → Prop
  | .take e, command => command = e.command
  | .poll, command =>
    ∃ k ∈ Hotkey.steering.filter w.sampleHotkeys.edges.pressed, command ∈ k.commands
  | _, _ => False

variable [Machine M]

theorem steers_pollHotkeys (hw : w.control.Paced)
    (h : ∀ k ∈ Hotkey.steering.filter w.sampleHotkeys.edges.pressed,
      ∀ command ∈ k.commands, allowed command) : Steers allowed w w.pollHotkeys := by
  have hsample : w.sampleHotkeys.control = w.control := rfl
  unfold pollHotkeys
  dsimp only
  split
  · exact .of_eq hsample
  · next hawake =>
    obtain ⟨v, messages, heq, -, -, hcontrol⟩ := w.sampleHotkeys.actOnHotkeys_eq
    have hpress := Control.steps_press hw hawake w.sampleHotkeys.machine.isSome h
    rw [Steers, heq, control_settle, hcontrol, hsample]
    exact hpress.trans (Control.steps_notify _ messages)

theorem steers_takeStop (w : Worker F M) : Steers allowed w w.takeStop := by
  rw [Steers, control_takeStop]
  split
  · exact .single (.halt w.control)
  · exact .refl

theorem steers_frameWith (w : Worker F M) (meanwhile : List (Outside F)) :
    Steers allowed w (w.frameWith meanwhile) := by
  rcases w.frameWith_eq meanwhile with ⟨-, h⟩ | ⟨v, h, -, notices, hcontrol, -⟩
  · rw [h]
    exact .of_eq rfl
  · have htold : Relation.ReflTransGen (Control.Step allowed) w.control v.control := by
      rw [hcontrol]
      exact .single (.tell w.control notices)
    rw [Steers, h, control_settleFrame]
    split
    · exact htold.tail (.rest v.control)
    · exact htold

variable [Factory F M]

theorem steers_step (hw : w.control.Paced) {a : Act F} (ha : a ≠ .shutdown)
    (hallowed : ∀ command, w.Heeds a command → allowed command) : Steers allowed w (w.step a) := by
  cases a with
  | take e =>
    show Steers allowed w (w.handle e)
    by_cases hstatus : w.status = .exiting
    · exact .of_eq (control_handle_of_exiting hstatus e)
    · rw [Steers, control_handle hstatus]
      exact .single (.obey _ hstatus (hallowed e.command rfl))
  | poll =>
    have hhotkeys : Steers allowed w w.pollHotkeys :=
      steers_pollHotkeys hw fun k hk command hcommand => hallowed command ⟨k, hk, hcommand⟩
    exact hhotkeys.trans w.pollHotkeys.steers_takeStop
  | frame meanwhile => exact w.steers_frameWith meanwhile
  | outside o =>
    obtain ⟨-, notices, hcontrol, -⟩ := w.keeps_outside o
    show Relation.ReflTransGen _ w.control (w.outside o).control
    rw [hcontrol]
    exact .single (.tell w.control notices)
  | shutdown => exact absurd rfl ha

theorem paced_step (hw : w.control.Paced) {a : Act F} (ha : a ≠ .shutdown) :
    (w.step a).control.Paced := by
  have hstep : Steers (fun _ => True) w (w.step a) := steers_step hw ha fun _ _ => trivial
  exact hw.steps hstep

theorem steers_run (hw : w.control.Paced) {acts : List (Act F)} (hacts : .shutdown ∉ acts) :
    Steers (fun _ => True) w (w.run acts) := by
  induction acts generalizing w with
  | nil => exact .of_eq rfl
  | cons a acts ih =>
    have ha : a ≠ .shutdown := fun h => hacts (h ▸ List.mem_cons_self)
    have hstep : Steers (fun _ => True) w (w.step a) := steers_step hw ha fun _ _ => trivial
    exact hstep.trans (ih (paced_step hw ha) fun h => hacts (List.mem_cons_of_mem a h))

theorem paced_run (hw : w.control.Paced) {acts : List (Act F)} (hacts : .shutdown ∉ acts) :
    (w.run acts).control.Paced :=
  hw.steps (steers_run hw hacts)

omit [Machine M] [Factory F M] in
theorem paced_new (id : Nat) (factory : F) (world : World) (cartSave firmwareSave : Option Path)
    (audio : Pipeline) (mic : MicInput) :
    (new id factory world cartSave firmwareSave audio mic : Worker F M).control.Paced :=
  Control.paced_of_depth_eq_zero rfl nofun

/-- Status, pauses and sound fit together. -/
structure Orderly (w : Worker F M) : Prop where
  running : w.status = .running → w.pauses.depth = 0
  stepping : w.status = .frameStep → 1 ≤ w.pauses.depth
  paused : 0 < w.pauses.depth → w.status = .paused ∨ w.status = .frameStep
  saved : 0 < w.pauses.depth → w.pauses.saved = .running ∨ w.pauses.saved = .paused
  sound : w.audio.enabled = true ↔ w.status = .running

omit [Machine M] [Factory F M] in
theorem orderly_of_control (hpaced : w.control.Paced) (htune : w.control.InTune) : Orderly w where
  running := fun hrunning => by
    rcases Nat.eq_zero_or_pos w.pauses.depth with hdepth | hdepth
    · exact hdepth
    · have hstatus : w.status = .paused ∨ w.status = .frameStep := hpaced.paused hdepth
      simp [hrunning] at hstatus
  stepping := hpaced.stepping
  paused := hpaced.paused
  saved := hpaced.saved
  sound := htune

/-- **Status, pauses and sound fit together.** Along every run of a worker that starts silent, before it
is shut down: no pause is outstanding while it runs, one is during a step, and pauses are outstanding
only while it is paused or in a step, with running or paused as what to go back to; and sound is let out
exactly while it runs. The same holds within a poll, between the hotkeys and the wish to be stopped. -/
theorem status_fits_pauses_and_sound (id : Nat) (factory : F) (world : World)
    (cartSave firmwareSave : Option Path) (audio : Pipeline) (mic : MicInput)
    (haudio : audio.enabled = false) (acts : List (Act F)) (hacts : .shutdown ∉ acts) :
    let w : Worker F M := .new id factory world cartSave firmwareSave audio mic
    (w.run acts).Orderly ∧ (w.run acts).pollHotkeys.Orderly := by
  intro w
  have hpaced : w.control.Paced := paced_new id factory world cartSave firmwareSave audio mic
  have htune : w.control.InTune := by
    show audio.enabled = true ↔ Status.paused = .running
    simp [haudio]
  have hrun : Steers (fun _ => True) w (w.run acts) := steers_run hpaced hacts
  have hpoll : Steers (fun _ => True) (w.run acts) (w.run acts).pollHotkeys :=
    steers_pollHotkeys (hpaced.steps hrun) fun _ _ _ _ => trivial
  exact ⟨orderly_of_control (hpaced.steps hrun) (htune.steps hpaced hrun),
    orderly_of_control (hpaced.steps (hrun.trans hpoll)) (htune.steps hpaced (hrun.trans hpoll))⟩

/-- A step out of a nest of pauses, a stop meanwhile, and one pause released. -/
theorem status_fits_pauses_after_stop :
    let w : Worker ScriptFactory ScriptMachine := rehearsal {} (.empty [])
    let v := w.run [.take ⟨.bootFirmware, none⟩, .take ⟨.run, none⟩, .take ⟨.pause, none⟩,
      .take ⟨.pause, none⟩, .take ⟨.frameStep, none⟩, .outside .raiseStop, .poll, .frame [],
      .take ⟨.unpause, none⟩]
    v.Orderly ∧ v.pauses = ⟨1, .running⟩ ∧ v.status = .paused ∧ v.active = false := by
  intro w v
  have hv := status_fits_pauses_and_sound 0 (⟨{}, false⟩ : ScriptFactory) ⟨.empty [], {}, 0⟩ none none
    (.new 0 {} {} {}) (.new (.empty []) .silence none) rfl
    [.take ⟨.bootFirmware, none⟩, .take ⟨.run, none⟩, .take ⟨.pause, none⟩,
      .take ⟨.pause, none⟩, .take ⟨.frameStep, none⟩, .outside .raiseStop, .poll, .frame [],
      .take ⟨.unpause, none⟩] (by simp)
  exact ⟨hv.1, by decide, by decide, by decide⟩

end Worker

end Handheld
