import Handheld.Proofs.Worker.Hotkeys
import Handheld.Proofs.Worker.Lifetimes
import Handheld.Proofs.Worker.Stepping
import Handheld.Proofs.Worker.Stopping

/-!
# Machines at rest

A machine that was stopped from outside stays installed, and nothing notes that it was stopped: Run and
FrameStep run whatever machine is there (`stopped_machine_runs_on_demand`). Where neither is carried out,
and no pause is held that was taken while emulation ran, no frame is executed on it before a Reset
(`stopped_machine_rests`). What keeps it at rest is `Control.Resting`, until a Reset is called on it or the
machine of another boot takes its place (`Worker.Dormant`).
-/

namespace Handheld

namespace Control

variable {c d : Control}

/-- No frame is due, and releasing pauses would not change that. -/
structure Resting (c : Control) : Prop where
  still : c.status.runsFrame = false
  unheld : ¬c.ResumeHeld

theorem Resting.halt (h : Resting c) : Resting c.halt := ⟨rfl, h.unheld⟩

theorem Resting.pause (h : Resting c) : Resting c.pause := by
  have hstill : c.status ≠ .running := by
    intro hrunning
    have hruns := h.still
    rw [hrunning] at hruns
    cases hruns
  unfold Control.pause
  by_cases hdepth : c.pauses.depth = 0
  · have hunheld : ¬(0 < 1 ∧ c.status = .running) := fun hheld => hstill hheld.2
    rw [if_pos hdepth]
    dsimp only
    split
    · exact ⟨h.still, hunheld⟩
    · exact ⟨rfl, hunheld⟩
  · rw [if_neg hdepth]
    exact ⟨h.still, fun hheld => h.unheld ⟨by omega, hheld.2⟩⟩

theorem Resting.unpause (h : Resting c) (hpaced : Paced c) : Resting c.unpause := by
  unfold Control.unpause
  by_cases hdepth : c.pauses.depth = 1
  · have hsaved : c.pauses.saved = .paused :=
      (hpaced.saved (by omega)).resolve_left fun hrunning => h.unheld ⟨by omega, hrunning⟩
    rw [if_pos hdepth]
    simp only [hsaved, if_true]
    exact ⟨rfl, fun hheld => absurd hheld.1 (Nat.lt_irrefl 0)⟩
  · rw [if_neg hdepth]
    refine ⟨h.still, fun hheld => h.unheld ⟨?_, hheld.2⟩⟩
    have hpositive : 0 < c.pauses.depth - 1 := hheld.1
    omega

/-- What sets a worker going, but for the release of a pause. -/
def SetsGoing (command : Command) : Prop := command = .run ∨ command = .frameStep ∨ command = .reset

theorem Resting.obey (h : Resting c) (hpaced : Paced c) (booted : Bool) {command : Command}
    (hcommand : ¬SetsGoing command) : Resting (c.obey booted command) := by
  cases command with
  | run => exact absurd (.inl rfl) hcommand
  | pause => exact h.pause
  | unpause => exact h.unpause hpaced
  | stop _ => exact h.halt
  | frameStep => exact absurd (.inr (.inl rfl)) hcommand
  | reset => exact absurd (.inr (.inr rfl)) hcommand
  | exit => exact ⟨rfl, fun hheld => absurd hheld.1 (Nat.lt_irrefl 0)⟩
  | _ => exact h

theorem Resting.steps (h : Resting c) (hpaced : Paced c)
    (hsteps : Relation.ReflTransGen (Step fun command => ¬SetsGoing command) c d) : Resting d := by
  induction hsteps with
  | refl => exact h
  | tail hsteps hstep ih =>
    cases hstep with
    | obey booted _ hcommand => exact ih.obey (hpaced.steps hsteps) booted hcommand
    | halt => exact ih.halt
    | rest =>
      unfold rested
      split
      · exact ⟨rfl, ih.unheld⟩
      · exact ih
    | tell notices => exact ⟨ih.still, ih.unheld⟩

end Control

/-- Every frame among some calls, newest first, comes after a reset. -/
def ResetBeforeFrames (calls : List Call) : Prop :=
  ∀ newer older input, calls = newer ++ .runFrame input :: older → .reset ∈ older

/-- Of what switches a machine on or off, a stop came last; newest first. -/
def switchedOff : List Call → Bool
  | [] => false
  | .stop :: _ => true
  | .start :: _ => false
  | .reset :: _ => false
  | _ :: older => switchedOff older

theorem ResetBeforeFrames.nil : ResetBeforeFrames [] := fun newer older input h => by
  cases newer <;> cases h

theorem ResetBeforeFrames.append {early late : List Call} (h : ResetBeforeFrames early)
    (hlate : .reset ∈ early ∨ ∀ input, .runFrame input ∉ late) : ResetBeforeFrames (late ++ early) := by
  intro newer older input hsplit
  rcases List.append_eq_append_iff.mp hsplit with ⟨more, -, hearly⟩ | ⟨more, hlater, holder⟩
  · exact h more older input hearly
  · cases more with
    | nil => exact h [] older input holder.symm
    | cons call more =>
      obtain ⟨rfl, rfl⟩ := List.cons.inj holder
      rcases hlate with hreset | hframes
      · exact List.mem_append_right more hreset
      · refine absurd ?_ (hframes input)
        rw [hlater]
        simp

namespace Worker

variable {F M : Type} {u v w : Worker F M} [Machine M] [Factory F M]

/-! ## What a poll calls -/

theorem handleKeys_eq_run (w : Worker F M) (keys : List Hotkey) :
    ∃ acts : List (Act F), w.handleKeys keys = w.run acts := by
  induction keys generalizing w with
  | nil => exact ⟨[], rfl⟩
  | cons k keys ih =>
    obtain ⟨acts, hacts⟩ := ih (w.handleKey k)
    show ∃ acts, (w.handleKey k).handleKeys keys = w.run acts
    rw [hacts]
    unfold handleKey
    split
    · exact ⟨acts, rfl⟩
    · next c _ => exact ⟨.take ⟨c, none⟩ :: acts, rfl⟩

theorem awake_handleKeys (hpaced : w.control.Paced) (h : w.status ≠ .exiting) (keys : List Hotkey) :
    (w.handleKeys keys).control.Paced ∧ (w.handleKeys keys).status ≠ .exiting := by
  induction keys generalizing w with
  | nil => exact ⟨hpaced, h⟩
  | cons k keys ih =>
    obtain ⟨hnext, hawake⟩ := awake_handleKey hpaced h k
    exact ih hnext hawake

/-- The machine is the same, and nothing was called on it. -/
structure Uncalled (w v : Worker F M) : Prop where
  boot : v.installedBoot = w.installedBoot
  calls : calls v.journal = calls w.journal

omit [Machine M] [Factory F M] in
theorem Uncalled.trans (huv : Uncalled u v) (hvw : Uncalled v w) : Uncalled u w :=
  ⟨hvw.boot.trans huv.boot, hvw.calls.trans huv.calls⟩

omit [Machine M] [Factory F M] in
theorem Uncalled.halted (h : Uncalled w v) (hw : w.standing.Halted) : v.standing.Halted := by
  intro b hb
  have hsame : callsTo b v.journal = callsTo b w.journal := callsTo_congr h.calls
  show (callsTo b v.journal).head? = some .stop
  rw [hsame]
  exact hw b (h.boot.symm.trans hb)

omit [Machine M] [Factory F M] in
theorem uncalled_settle_respond (w : Worker F M) (c : Option Caller) (r : Reply) :
    Uncalled w (w.settle.respond c r) :=
  ⟨installedBoot_settle_respond w c r, calls_settle_respond w c r⟩

omit [Machine M] [Factory F M] in
theorem calls_record (w : Worker F M) : calls w.record = calls w.journal := by
  unfold record Handheld.calls
  rw [List.filterMap_filter]
  congr 1
  funext e
  cases e <;> rfl

theorem uncalled_poll (hpaced : w.control.Paced) : Uncalled (w.handleKeys w.goingDown) w.poll := by
  obtain ⟨messages, -, hechoes⟩ := echoes_pollHotkeys hpaced
  have hpolled : Uncalled (w.handleKeys w.goingDown) w.pollHotkeys := by
    refine ⟨congrArg (Option.map Installed.boot) hechoes.machine, ?_⟩
    have hnone : calls (messages.reverse.map Event.notified) = [] := by
      rw [calls, List.filterMap_eq_nil_iff]
      intro e he
      obtain ⟨m, -, rfl⟩ := List.mem_map.mp he
      rfl
    rw [← calls_record, hechoes.record, calls_append, hnone, calls_record, List.nil_append]
  have htaken : Uncalled w.pollHotkeys w.pollHotkeys.takeStop := by
    unfold takeStop
    split
    · let halted : Worker F M := { w.pollHotkeys with stopRequested := false }.stop false
      have hhalted : Uncalled w.pollHotkeys halted := ⟨rfl, rfl⟩
      exact hhalted.trans (halted.uncalled_settle_respond none (.ok ()))
    · exact ⟨rfl, rfl⟩
  exact hpolled.trans htaken

omit [Factory F M] in
theorem installedBoot_pressKey (w : Worker F M) (k : Hotkey) :
    (w.pressKey k).installedBoot = w.installedBoot := by
  cases k with
  | pause =>
    show w.togglePause.installedBoot = w.installedBoot
    obtain ⟨_, _, _, _, _, hpause⟩ := w.pause_eq
    obtain ⟨_, _, _, _, _, hunpause⟩ := w.unpause_eq
    unfold togglePause
    split
    · rw [hunpause]
      rfl
    · rw [hpause]
      rfl
  | reset =>
    show w.reset.1.installedBoot = w.installedBoot
    unfold reset
    split
    · rfl
    · next i hi =>
      have hboot : w.installedBoot = some i.boot := congrArg (Option.map Installed.boot) hi
      have hlive : ∀ u : Worker F M, (u.goLive.notify "Reset").installedBoot = u.installedBoot :=
        fun u => rfl
      rw [hlive, installedBoot_use, hboot]
  | powerButton =>
    show w.pressPower.installedBoot = w.installedBoot
    unfold pressPower
    split
    · exact w.installedBoot_useIfAny .stop Machine.stop
    · rfl
  | frameStep =>
    obtain ⟨_, _, _, _, _, h⟩ := w.frameStep_eq
    show w.frameStep.installedBoot = w.installedBoot
    rw [h]
    rfl
  | _ => rfl

theorem installedBoot_handleKeys (hpaced : w.control.Paced) (h : w.status ≠ .exiting)
    (keys : List Hotkey) : (w.handleKeys keys).installedBoot = w.installedBoot := by
  induction keys generalizing w with
  | nil => rfl
  | cons k keys ih =>
    obtain ⟨hnext, hawake⟩ := awake_handleKey hpaced h k
    have hkey : (w.handleKey k).bare.installedBoot = w.bare.installedBoot := by
      rw [bare_handleKey h k, installedBoot_pressKey]
    exact (ih hnext hawake).trans hkey

/-! ## Stops and resets -/

theorem halted_handle (h : w.status ≠ .exiting) (c : Option Caller) :
    (w.handle ⟨.stop true, c⟩).standing.Halted ∧ (w.handle ⟨.stop true, c⟩).status = .paused := by
  let taken := w.note (.taken ⟨.stop true, c⟩)
  have hstopped : (taken.stop true).standing.Halted := taken.halted_useIfAny Machine.stop
  refine ⟨?_, congrArg Control.status (control_handle h ⟨.stop true, c⟩)⟩
  rw [handle_of_awake h (e := ⟨.stop true, c⟩) nofun]
  exact (uncalled_settle_respond (taken.stop true) c _).halted hstopped

theorem calls_handle_reset {b : Nat} (h : w.status ≠ .exiting) (hb : w.installedBoot = some b)
    (c : Option Caller) : calls (w.handle ⟨.reset, c⟩).journal = (b, .reset) :: calls w.journal := by
  let taken := w.note (.taken ⟨.reset, c⟩)
  obtain ⟨i, hi, rfl⟩ := Option.map_eq_some_iff.mp hb
  have hmachine : taken.machine = some i := hi
  have hreset : taken.reset.1 =
      (taken.use i (fun _ => .reset) Machine.reset).2.goLive.notify "Reset" := by
    unfold reset
    rw [hmachine]
  rw [handle_of_awake h (e := ⟨.reset, c⟩) nofun, (uncalled_settle_respond _ c _).calls]
  have hlive : ∀ u : Worker F M, calls (u.goLive.notify "Reset").journal = calls u.journal := fun u => rfl
  show calls taken.reset.1.journal = _
  rw [hreset, hlive, calls_use]
  rfl

/-- A hotkey that steers and comes before the power button. -/
def precedesPower (k : Hotkey) : Bool := k = .pause || k = .reset

/-- A step stops the machine from outside: by a command, or by the power button while active, after the
hotkeys that come before it. -/
def TurnsOff (w : Worker F M) : Act F → Prop
  | .take e => w.status ≠ .exiting ∧ e.command = .stop true
  | .poll => w.status ≠ .exiting ∧ .powerButton ∈ w.goingDown ∧
    (w.handleKeys (w.goingDown.filter precedesPower)).active = true
  | _ => False

omit [Machine M] [Factory F M] in
/-- Of the hotkeys that steer, only FRAME_STEP comes after the power button. -/
theorem goingDown_of_power (hpower : .powerButton ∈ w.goingDown) (hstep : .frameStep ∉ w.goingDown) :
    w.goingDown = w.goingDown.filter precedesPower ++ [.powerButton] := by
  unfold goingDown at hpower hstep ⊢
  generalize w.sampleHotkeys.edges.pressed = pressed at hpower hstep ⊢
  simp [Hotkey.steering] at hpower hstep
  cases hpause : pressed .pause <;> cases hreset : pressed .reset <;>
    simp [Hotkey.steering, precedesPower, hpause, hreset, hpower, hstep]

/-- However it comes, the machine has been stopped, and the worker is paused. -/
theorem TurnsOff.halted (hpaced : w.control.Paced) {a : Act F} (h : w.TurnsOff a)
    (hstep : ¬w.Heeds a .frameStep) : (w.step a).standing.Halted ∧ (w.step a).status = .paused := by
  cases a with
  | take e =>
    obtain ⟨command, caller⟩ := e
    obtain ⟨hawake, rfl⟩ : w.status ≠ .exiting ∧ command = .stop true := h
    exact halted_handle hawake caller
  | poll =>
    obtain ⟨hawake, hpower, hactive⟩ := h
    have hunstepped : .frameStep ∉ w.goingDown := fun hmem =>
      hstep ⟨.frameStep, hmem, List.mem_singleton.mpr rfl⟩
    let before := w.handleKeys (w.goingDown.filter precedesPower)
    obtain ⟨-, hbefore⟩ := awake_handleKeys hpaced hawake
      (w.goingDown.filter precedesPower)
    have hkeys : w.handleKeys w.goingDown = before.handle ⟨.stop true, none⟩ := by
      rw [goingDown_of_power hpower hunstepped]
      show List.foldl handleKey w (_ ++ _) = _
      rw [List.foldl_append]
      have horder : before.control.order .powerButton = some (.stop true) := if_pos hactive
      show before.handleKey .powerButton = _
      rw [handleKey, horder]
    obtain ⟨hhalted, hpaused⟩ := halted_handle hbefore none
    refine ⟨(uncalled_poll hpaced).halted (hkeys ▸ hhalted), ?_⟩
    obtain ⟨messages, -, hechoes⟩ := echoes_pollHotkeys hpaced
    have hpolled : w.pollHotkeys.control.status = .paused := by
      rw [hechoes.control, Control.status_notifyAll, hkeys]
      exact hpaused
    show w.pollHotkeys.takeStop.control.status = .paused
    rw [control_takeStop]
    split
    · rfl
    · exact hpolled
  | _ => exact h.elim

theorem reset_called (hw : w.standing.Numbered) (hpaced : w.control.Paced) (hawake : w.status ≠ .exiting)
    {b : Nat} (hb : w.installedBoot = some b) {a : Act F} (h : w.Heeds a .reset) :
    ∃ later, callsTo b (w.step a).journal = later ++ callsTo b w.journal ∧ .reset ∈ later := by
  cases a with
  | take e =>
    obtain ⟨command, caller⟩ := e
    obtain rfl : .reset = command := h
    exact ⟨[.reset], callsTo_of_cons (calls_handle_reset hawake hb caller), List.mem_singleton.mpr rfl⟩
  | poll =>
    obtain ⟨k, hk, hcommand⟩ := h
    obtain rfl : k = .reset := by cases k <;> simp [Hotkey.commands] at hcommand ⊢
    obtain ⟨keys, rest, hkeys⟩ := List.append_of_mem hk
    let before := w.handleKeys keys
    obtain ⟨-, hbefore⟩ := awake_handleKeys hpaced hawake keys
    let pressed := before.handle ⟨.reset, none⟩
    have hinstalled : before.installedBoot = some b :=
      (installedBoot_handleKeys hpaced hawake keys).trans hb
    have hpolled : callsTo b w.poll.journal = callsTo b (pressed.handleKeys rest).journal := by
      rw [callsTo_congr (uncalled_poll hpaced).calls]
      show callsTo b (w.handleKeys w.goingDown).journal = _
      rw [show w.goingDown = keys ++ .reset :: rest from hkeys]
      show callsTo b (List.foldl handleKey w (_ ++ _)).journal = _
      rw [List.foldl_append]
      rfl
    obtain ⟨early, hearly⟩ := w.handleKeys_eq_run keys
    obtain ⟨late, hlate⟩ := pressed.handleKeys_eq_run rest
    have hnumbered : pressed.standing.Numbered := by
      have hrun : pressed = w.run (early ++ [.take ⟨.reset, none⟩]) := by
        rw [run_concat, ← hearly]
        rfl
      rw [hrun]
      exact numbered_run hw _
    obtain ⟨first, hfirst⟩ := callsTo_run hw early b
    obtain ⟨last, hlast⟩ := callsTo_run hnumbered late b
    refine ⟨last ++ .reset :: first, ?_, by simp⟩
    show callsTo b w.poll.journal = _
    rw [hpolled, hlate, hlast, callsTo_of_cons (calls_handle_reset hbefore hinstalled none)]
    show last ++ .reset :: callsTo b (w.handleKeys keys).journal = _
    rw [hearly, hfirst, List.append_assoc, List.cons_append]
  | _ => exact h.elim

/-! ## At rest -/

/-- The machine of a boot was reset since an earlier point of a run. -/
def ResetSince (boot : Nat) (since w : Worker F M) : Prop :=
  ∃ later, callsTo boot w.journal = later ++ callsTo boot since.journal ∧ .reset ∈ later

/-- As long as the machine of a boot is there, and was not reset, no Run and no FrameStep is carried
out; a worker that is exiting refuses them. -/
def LeftAlone (boot : Nat) (since w : Worker F M) (a : Act F) : Prop :=
  w.installedBoot = some boot →
    ResetSince boot since w ∨ w.status = .exiting ∨ ¬w.Heeds a .run ∧ ¬w.Heeds a .frameStep

/-- The machine of a boot has executed frames only after a reset; it was reset, or is not there any more,
or is at rest. -/
structure Dormant (boot : Nat) (since w : Worker F M) : Prop where
  frames : ∃ later, callsTo boot w.journal = later ++ callsTo boot since.journal ∧
    ResetBeforeFrames later
  state : ResetSince boot since w ∨ w.standing.Gone boot ∨
    w.installedBoot = some boot ∧ w.control.Resting

omit [Machine M] [Factory F M] in
theorem ResetSince.mem {since : Worker F M} {boot : Nat} (h : ResetSince boot since w)
    {later : List Call} (hlater : callsTo boot w.journal = later ++ callsTo boot since.journal) :
    .reset ∈ later := by
  obtain ⟨calls, hcalls, hreset⟩ := h
  rwa [List.append_cancel_right (hlater.symm.trans hcalls)]

theorem resting_step (hpaced : w.control.Paced) (h : w.control.Resting) {a : Act F} (ha : a ≠ .shutdown)
    (hquiet : ∀ command, w.Heeds a command → Control.SetsGoing command → w.status = .exiting) :
    (w.step a).control.Resting := by
  by_cases hexiting : w.status = .exiting
  · have hnothing : (∀ command, ¬w.Heeds a command) → (w.step a).control.Resting := fun hnone =>
      h.steps hpaced (steers_step hpaced ha fun command hcommand => absurd hcommand (hnone command))
    cases a with
    | take e =>
      show (w.handle e).control.Resting
      rw [control_handle_of_exiting hexiting]
      exact h
    | poll =>
      show w.poll.control.Resting
      rw [poll_of_exiting hexiting, control_takeStop]
      split
      · exact h.halt
      · exact h
    | frame => exact hnothing fun _ h => h
    | outside => exact hnothing fun _ h => h
    | shutdown => exact absurd rfl ha
  · exact h.steps hpaced (steers_step hpaced ha fun command hcommand hgoing =>
      hexiting (hquiet command hcommand hgoing))

theorem step_frame_of_resting (h : w.control.Resting) (meanwhile : List (Outside F)) :
    w.step (.frame meanwhile) = w := by
  have hstill : w.status.runsFrame = false := h.still
  show w.frameWith meanwhile = w
  rw [frameWith_framed, hstill]
  rfl

/-- A worker at rest that carries out no Run and no FrameStep stays at rest, unless its machine is reset.
-/
theorem reset_or_resting (hw : w.standing.Numbered) (hpaced : w.control.Paced) (h : w.control.Resting)
    {b : Nat} (hb : w.installedBoot = some b) {a : Act F} (ha : a ≠ .shutdown)
    (hidle : w.status = .exiting ∨ ¬w.Heeds a .run ∧ ¬w.Heeds a .frameStep) :
    (∃ later, callsTo b (w.step a).journal = later ++ callsTo b w.journal ∧ .reset ∈ later) ∨
      (w.step a).control.Resting := by
  by_cases hheeds : w.Heeds a .reset ∧ w.status ≠ .exiting
  · exact .inl (reset_called hw hpaced hheeds.2 hb hheeds.1)
  · refine .inr (resting_step hpaced h ha ?_)
    rintro command hcommand hgoing
    by_contra hawake
    obtain ⟨hrun, hstep⟩ := hidle.resolve_left hawake
    rcases hgoing with rfl | rfl | rfl
    · exact hrun hcommand
    · exact hstep hcommand
    · exact hheeds ⟨hcommand, hawake⟩

theorem no_frame_called (a : Act F) (ha : ∀ meanwhile, a ≠ .frame meanwhile) {boot : Nat}
    {late : List Call} (hlate : callsTo boot (w.step a).journal = late ++ callsTo boot w.journal)
    (input : FrameInput) : .runFrame input ∉ late := by
  obtain ⟨added, hjournal, hadded⟩ := w.adds_noFrame_step ha
  rw [hjournal, callsTo_append] at hlate
  rw [← List.append_cancel_right hlate]
  exact fun hframe => hadded _ (mem_callsTo.mp hframe) boot input rfl

theorem Dormant.step {since : Worker F M} {boot : Nat} (hcalled : callsTo boot since.journal ≠ [])
    (h : Dormant boot since w) (hw : w.standing.Numbered) (hpaced : w.control.Paced) {a : Act F}
    (ha : a ≠ .shutdown) (halone : LeftAlone boot since w a) : Dormant boot since (w.step a) := by
  obtain ⟨⟨early, hearly, hframes⟩, hstate⟩ := h
  obtain ⟨late, hlate⟩ : ∃ late, callsTo boot (w.step a).journal = late ++ callsTo boot w.journal :=
    callsTo_run hw [a] boot
  have hafter : callsTo boot (w.step a).journal = (late ++ early) ++ callsTo boot since.journal := by
    rw [List.append_assoc, ← hearly]
    exact hlate
  have hreset : ResetSince boot since w → Dormant boot since (w.step a) := fun hreset =>
    have hmem : .reset ∈ early := hreset.mem hearly
    ⟨⟨late ++ early, hafter, hframes.append (.inl hmem)⟩,
      .inl ⟨late ++ early, hafter, List.mem_append_right late hmem⟩⟩
  rcases hstate with hsince | hgone | ⟨hboot, hrest⟩
  · exact hreset hsince
  · obtain ⟨hstays, hsame⟩ := hgone.steps (w.shifts_step a hw)
    exact ⟨⟨early, hsame.trans hearly, hframes⟩, .inr (.inl hstays)⟩
  · by_cases hframe : ∃ meanwhile, a = .frame meanwhile
    · obtain ⟨meanwhile, rfl⟩ := hframe
      rw [step_frame_of_resting hrest]
      exact ⟨⟨early, hearly, hframes⟩, .inr (.inr ⟨hboot, hrest⟩)⟩
    · have hnone : ∀ input, .runFrame input ∉ late :=
        no_frame_called a (fun meanwhile h => hframe ⟨meanwhile, h⟩) hlate
      rcases halone hboot with hsince | hidle
      · exact hreset hsince
      · refine ⟨⟨late ++ early, hafter, hframes.append (.inr hnone)⟩, ?_⟩
        by_cases hthere : (w.step a).installedBoot = some boot
        · rcases reset_or_resting hw hpaced hrest hboot ha hidle with ⟨called, hcalls, hmem⟩ | hstill
          · refine .inl ⟨called ++ early, ?_, List.mem_append_left early hmem⟩
            rw [hcalls, hearly, List.append_assoc]
          · exact .inr (.inr ⟨hthere, hstill⟩)
        · refine .inr (.inl ⟨?_, hthere⟩)
          show callsTo boot (w.step a).journal ≠ []
          rw [hafter]
          exact List.append_ne_nil_of_right_ne_nil _ hcalled

theorem Dormant.run {since : Worker F M} {boot : Nat} (hcalled : callsTo boot since.journal ≠ [])
    (h : Dormant boot since w) (hw : w.standing.Numbered) (hpaced : w.control.Paced)
    {acts : List (Act F)} (hacts : .shutdown ∉ acts) (halone : w.Along (LeftAlone boot since) acts) :
    Dormant boot since (w.run acts) := by
  induction acts generalizing w with
  | nil => exact h
  | cons a acts ih =>
    obtain ⟨hfirst, hrest⟩ := along_cons.mp halone
    have ha : a ≠ .shutdown := fun h => hacts (h ▸ List.mem_cons_self)
    exact ih (h.step hcalled hw hpaced ha hfirst) (numbered_run hw [a]) (paced_step hpaced ha)
      (fun h => hacts (List.mem_cons_of_mem a h)) hrest

/-- **A stopped machine rests.** At any point of a run of a worker, let a step stop the installed machine
from outside, by a command or by the power button, with no FrameStep in the same poll and no pause
outstanding that was taken while emulation ran. Then the stop is the latest call on that machine; and
whatever comes after that, up to a shutdown: as long as the machine is there and was not reset, and neither
a Run nor a FrameStep is carried out, no frame is executed on it. -/
theorem stopped_machine_rests (id : Nat) (factory : F) (world : World) (cartSave firmwareSave : Option Path)
    (audio : Pipeline) (mic : MicInput) (early late : List (Act F)) (a : Act F)
    (hacts : .shutdown ∉ early ++ a :: late) (boot : Nat) :
    let w : Worker F M := (new id factory world cartSave firmwareSave audio mic).run early
    let v := w.step a
    w.TurnsOff a → ¬w.Heeds a .frameStep → v.installedBoot = some boot → ¬v.control.ResumeHeld →
    v.Along (LeftAlone boot v) late →
      (callsTo boot v.journal).head? = some .stop ∧
      ∃ later, callsTo boot (v.run late).journal = later ++ callsTo boot v.journal ∧
        ResetBeforeFrames later := by
  intro w v hoff hstep hboot hheld halone
  have ha : a ≠ .shutdown := fun h => hacts (by simp [h])
  have hw : w.standing.Numbered :=
    numbered_run (numbered_new id factory world cartSave firmwareSave audio mic) early
  have hpaced : w.control.Paced :=
    paced_run (paced_new id factory world cartSave firmwareSave audio mic) fun h =>
      hacts (List.mem_append_left _ h)
  obtain ⟨hhalted, hpaused⟩ := hoff.halted hpaced hstep
  have hstopped : (callsTo boot v.journal).head? = some .stop := hhalted boot hboot
  have hrest : v.control.Resting := ⟨by show v.status.runsFrame = false; rw [hpaused]; rfl, hheld⟩
  have hcalled : callsTo boot v.journal ≠ [] := fun hnil => by simp [hnil] at hstopped
  have hstart : Dormant boot v v := ⟨⟨[], rfl, .nil⟩, .inr (.inr ⟨hboot, hrest⟩)⟩
  exact ⟨hstopped, (hstart.run hcalled (numbered_run hw [a]) (paced_step hpaced ha)
    (fun h => hacts (by simp [h])) halone).frames⟩

/-- A pause, its release and a frame leave a stopped machine alone; after a reset it runs. -/
theorem stopped_machine_rests_until_reset :
    let w : Worker ScriptFactory ScriptMachine := rehearsal {} (.empty [])
    let v := w.run [.take ⟨.bootFirmware, none⟩, .take ⟨.run, none⟩, .take ⟨.stop true, none⟩]
    let late : List (Act ScriptFactory) := [.take ⟨.pause, none⟩, .poll, .take ⟨.unpause, none⟩, .frame [],
      .take ⟨.reset, none⟩, .frame []]
    callsTo 0 v.journal = [.stop, .start] ∧
      callsTo 0 (v.run late).journal = [.runFrame {}, .hearMic none, .reset, .stop, .start] ∧
      ResetBeforeFrames [.runFrame {}, .hearMic none, .reset] := by
  intro w v late
  have htake : ∀ (u : Worker ScriptFactory ScriptMachine) (c : Command), c ≠ .run → c ≠ .frameStep →
      LeftAlone 0 v u (.take ⟨c, none⟩) :=
    fun u c hrun hstep _ => .inr (.inr ⟨fun h => hrun h.symm, fun h => hstep h.symm⟩)
  have hframe : ∀ u : Worker ScriptFactory ScriptMachine, LeftAlone 0 v u (.frame []) :=
    fun u _ => .inr (.inr ⟨fun h => h, fun h => h⟩)
  have hpoll : LeftAlone 0 v (v.step (.take ⟨.pause, none⟩)) .poll := by
    have hnone : ∀ c, ¬(v.step (.take ⟨.pause, none⟩)).Heeds .poll c := by
      rintro c ⟨k, hk, -⟩
      have hup : (v.step (.take ⟨.pause, none⟩)).goingDown = [] := by decide
      rw [show Hotkey.steering.filter _ = _ from hup] at hk
      cases hk
    exact fun _ => .inr (.inr ⟨hnone _, hnone _⟩)
  have halone : v.Along (LeftAlone 0 v) late :=
    along_cons.mpr ⟨htake _ _ nofun nofun, along_cons.mpr ⟨hpoll,
      along_cons.mpr ⟨htake _ _ nofun nofun, along_cons.mpr ⟨hframe _,
        along_cons.mpr ⟨htake _ _ nofun nofun, along_cons.mpr ⟨hframe _, along_nil _ _⟩⟩⟩⟩⟩⟩
  have hbefore : callsTo 0 v.journal = [.stop, .start] := by decide
  have hafter : callsTo 0 (v.run late).journal = [.runFrame {}, .hearMic none, .reset, .stop, .start] := by
    decide
  obtain ⟨-, later, hlater, hframes⟩ := stopped_machine_rests (M := ScriptMachine) 0
    (⟨{}, false⟩ : ScriptFactory) ⟨.empty [], {}, 0⟩ none none (.new 0 {} {} {})
    (.new (.empty []) .silence none) [.take ⟨.bootFirmware, none⟩, .take ⟨.run, none⟩] late
    (.take ⟨.stop true, none⟩) (by simp [late]) 0 ⟨by decide, rfl⟩ nofun (by decide)
    (fun hheld => absurd hheld.1 (by decide)) halone
  change callsTo 0 (v.run late).journal = later ++ callsTo 0 v.journal at hlater
  rw [hafter, hbefore] at hlater
  have hsame : [.runFrame {}, .hearMic none, .reset] = later := List.append_cancel_right hlater
  exact ⟨hbefore, hafter, hsame ▸ hframes⟩

/-- A Run, and a FrameStep as well, runs the machine that is there, although it was stopped and neither
started nor reset since. -/
theorem stopped_machine_runs_on_demand :
    let w : Worker ScriptFactory ScriptMachine := rehearsal {} (.empty [])
    let off := w.run [.take ⟨.bootFirmware, none⟩, .take ⟨.run, none⟩, .take ⟨.stop true, none⟩]
    ∀ c ∈ [Command.run, .frameStep], ∃ older,
      callsTo 0 (off.run [.take ⟨c, some 1⟩, .frame []]).journal = .runFrame {} :: older ∧
        switchedOff older = true := by
  intro w off c hc
  refine ⟨[.hearMic none, .stop, .start], ?_, rfl⟩
  revert c
  decide

end Worker

end Handheld
