import Handheld.Proofs.Worker.Control

/-!
# Steering a worker

What each step makes of the control: a command changes it by what it is and by whether there is a
machine at all (`control_apply`), a hotkey does what a command does (`actOnHotkeys_eq`), a wish to be
stopped halts (`control_takeStop`), and a frame only ends a step (`frameWith_eq`).
-/

namespace Handheld

namespace Worker

variable {F M : Type} {v w : Worker F M}

/-! ## One operation -/

theorem control_goLive (w : Worker F M) : w.goLive.control = w.control.goLive := rfl

theorem control_pause (w : Worker F M) : w.pause.control = w.control.pause := by
  unfold pause PauseStack.push Control.pause
  by_cases hdepth : w.pauses.depth = 0
  · have hcontrol : w.control.pauses.depth = 0 := hdepth
    by_cases hstatus : w.status = .paused
    · have hpaused : w.control.status = .paused := hstatus
      simp only [hdepth, hstatus, hcontrol, hpaused, if_true]
      simp [control, hstatus]
    · have hpaused : w.control.status ≠ .paused := hstatus
      simp only [hdepth, hcontrol, if_true, if_neg hstatus, if_neg hpaused]
      rfl
  · have hcontrol : w.control.pauses.depth ≠ 0 := hdepth
    simp only [if_neg hdepth, if_neg hcontrol]
    rfl

theorem control_unpause (w : Worker F M) : w.unpause.control = w.control.unpause := by
  unfold unpause PauseStack.pop Control.unpause
  by_cases hdepth : w.pauses.depth = 1
  · have hcontrol : w.control.pauses.depth = 1 := hdepth
    by_cases hsaved : w.pauses.saved = .paused
    · have hpaused : w.control.pauses.saved = .paused := hsaved
      simp only [if_pos hdepth, if_pos hcontrol, if_pos hsaved, if_pos hpaused]
      rfl
    · have hpaused : w.control.pauses.saved ≠ .paused := hsaved
      simp only [if_pos hdepth, if_pos hcontrol, if_neg hsaved, if_neg hpaused]
      rfl
  · have hcontrol : w.control.pauses.depth ≠ 1 := hdepth
    simp only [if_neg hdepth, if_neg hcontrol]
    rfl

theorem control_frameStep (w : Worker F M) : w.frameStep.control = w.control.frameStep := by
  unfold frameStep Control.frameStep
  by_cases hdepth : w.pauses.depth = 0
  · have hcontrol : w.control.pauses.depth = 0 := hdepth
    rw [if_pos hdepth, if_pos hcontrol, ← control_pause]
    rfl
  · have hcontrol : w.control.pauses.depth ≠ 0 := hdepth
    rw [if_neg hdepth, if_neg hcontrol]
    rfl

theorem live_notify_eq (w : Worker F M) (message : String) : ∃ status pauses active audio notices journal,
    w.goLive.notify message = { w with status, pauses, active, audio, notices, journal } :=
  ⟨_, _, _, _, _, _, rfl⟩

theorem pause_eq (w : Worker F M) : ∃ status pauses audio notices journal,
    w.pause = { w with status, pauses, audio, notices, journal } := by
  unfold pause
  dsimp only
  split
  · exact ⟨_, _, _, _, _, rfl⟩
  · split <;> exact ⟨_, _, _, _, _, rfl⟩

theorem unpause_eq (w : Worker F M) : ∃ status pauses audio notices journal,
    w.unpause = { w with status, pauses, audio, notices, journal } := by
  unfold unpause
  split
  · exact ⟨_, _, _, _, _, rfl⟩
  · dsimp only
    split <;> exact ⟨_, _, _, _, _, rfl⟩

theorem frameStep_eq (w : Worker F M) : ∃ status pauses audio notices journal,
    w.frameStep = { w with status, pauses, audio, notices, journal } := by
  obtain ⟨status, pauses, audio, notices, journal, h⟩ := w.pause_eq
  unfold frameStep
  rw [h]
  split <;> exact ⟨_, _, _, _, _, rfl⟩

theorem keeps_notify (w : Worker F M) (message : String) : Keeps w (w.notify message) := by
  have hnote : Aside w (w.note (.notified message)) := w.aside_note trivial
  exact hnote.toKeeps.trans (.of_eq rfl rfl rfl)

theorem keeps_pause (w : Worker F M) : Keeps w w.pause := by
  unfold pause
  dsimp only
  split
  · exact .of_eq rfl rfl rfl
  · split
    · exact .of_eq rfl rfl rfl
    · refine Keeps.trans ?_ (keeps_notify _ "Paused")
      exact .of_eq rfl rfl rfl

theorem keeps_unpause (w : Worker F M) : Keeps w w.unpause := by
  unfold unpause
  split
  · exact .of_eq rfl rfl rfl
  · dsimp only
    split
    · exact .of_eq rfl rfl rfl
    · refine Keeps.trans ?_ (keeps_notify _ "Resumed")
      exact .of_eq rfl rfl rfl

theorem keeps_frameStep (w : Worker F M) : Keeps w w.frameStep := by
  unfold frameStep
  split
  · exact w.keeps_pause.trans (.of_eq rfl rfl rfl)
  · exact .of_eq rfl rfl rfl

theorem control_settle (w : Worker F M) : w.settle.control = w.control := by
  obtain ⟨_, _, _, h⟩ := w.settle_eq
  rw [h]
  rfl

variable [Machine M]

theorem control_stop (w : Worker F M) (external : Bool) :
    (w.stop external).control = w.control.halt := by
  cases external with
  | false => rfl
  | true =>
    show (w.useIfAny .stop Machine.stop).control.halt = w.control.halt
    rw [(w.aside_useIfAny .stop Machine.stop).control]

theorem keeps_stop (w : Worker F M) (external : Bool) : Keeps w (w.stop external) := by
  cases external with
  | false => exact .of_eq rfl rfl rfl
  | true => exact (w.aside_useIfAny .stop Machine.stop).toKeeps.trans (.of_eq rfl rfl rfl)

theorem control_reset (w : Worker F M) :
    w.reset.1.control = w.control.obey w.machine.isSome .reset := by
  unfold reset
  split
  · next hnone =>
    rw [hnone]
    rfl
  · next i hsome =>
    rw [hsome]
    show (w.use i (fun _ => .reset) Machine.reset).2.control.goLive.notify "Reset" = _
    rw [(w.aside_use i _ _).control]
    rfl

theorem keeps_reset (w : Worker F M) : Keeps w w.reset.1 := by
  unfold reset
  split
  · exact .of_eq rfl rfl rfl
  · next i _ =>
    have hlive : Keeps w (w.use i (fun _ => .reset) Machine.reset).2.goLive :=
      (w.aside_use i (fun _ => .reset) Machine.reset).toKeeps.trans (.of_eq rfl rfl rfl)
    exact hlive.trans (keeps_notify _ "Reset")

section Commands

variable [Factory F M]

/-! ## Commands -/

theorem control_apply (w : Worker F M) (c : Command) :
    (w.apply c).1.control = w.control.obey w.machine.isSome c := by
  cases c with
  | run => exact w.control_goLive
  | pause => exact w.control_pause
  | unpause => exact w.control_unpause
  | stop external => exact w.control_stop external
  | frameStep => exact w.control_frameStep
  | reset => exact w.control_reset
  | exit => rfl
  | bootRom paths => exact (w.aside_bootRom paths).control
  | bootFirmware => exact (w.aside_boot none none).control
  | insertCart paths => exact (w.aside_insertCart paths).control
  | ejectCart => exact w.aside_ejectCart.control
  | saveState path => exact (w.aside_saveState path).control
  | loadState path => exact (w.aside_loadState path).control
  | undoLoad => exact w.aside_undoLoad.control
  | importSave path => exact (w.aside_importSave path).control
  | setCheats on => exact (w.aside_useIfAny _ _).control

theorem keeps_apply (w : Worker F M) (c : Command) : Keeps w (w.apply c).1 := by
  cases c with
  | run => exact .of_eq rfl rfl rfl
  | pause => exact w.keeps_pause
  | unpause => exact w.keeps_unpause
  | stop external => exact w.keeps_stop external
  | frameStep => exact w.keeps_frameStep
  | reset => exact w.keeps_reset
  | exit => exact .of_eq rfl rfl rfl
  | bootRom paths => exact (w.aside_bootRom paths).toKeeps
  | bootFirmware => exact (w.aside_boot none none).toKeeps
  | insertCart paths => exact (w.aside_insertCart paths).toKeeps
  | ejectCart => exact w.aside_ejectCart.toKeeps
  | saveState path => exact (w.aside_saveState path).toKeeps
  | loadState path => exact (w.aside_loadState path).toKeeps
  | undoLoad => exact w.aside_undoLoad.toKeeps
  | importSave path => exact (w.aside_importSave path).toKeeps
  | setCheats on => exact (w.aside_useIfAny _ _).toKeeps

theorem control_handle {w : Worker F M} (h : w.status ≠ .exiting) (e : Envelope) :
    (w.handle e).control = w.control.obey w.machine.isSome e.command := by
  have happly := (w.note (.taken e)).control_apply e.command
  have hnote : (w.note (.taken e)).status ≠ .exiting := h
  unfold handle serve
  dsimp only
  rw [if_neg hnote]
  split
  · rw [control_settle]
    exact happly
  · cases e.caller with
    | none => exact (control_settle _).trans happly
    | some c => exact (control_settle _).trans happly

theorem control_handle_of_exiting {w : Worker F M} (h : w.status = .exiting) (e : Envelope) :
    (w.handle e).control = w.control := by
  have hnote : (w.note (.taken e)).status = .exiting := h
  unfold handle
  dsimp only
  rw [if_pos hnote]
  cases e.caller <;> rfl

end Commands

/-! ## Hotkeys and wishes to be stopped -/

/-- What pressing a hotkey comes to. -/
structure Presses (k : Hotkey) (w v : Worker F M) : Prop extends Keeps w v where
  control : v.control = w.control.press w.machine.isSome k
  machine : v.machine.isSome = w.machine.isSome
  edges : v.edges = w.edges

omit [Machine M] in
theorem presses_togglePause (w : Worker F M) : Presses .pause w w.togglePause := by
  have hpress : w.control.press w.machine.isSome .pause =
      w.control.obey w.machine.isSome (if w.status = .paused then .unpause else .pause) := rfl
  unfold togglePause
  split
  · next h =>
    obtain ⟨_, _, _, _, _, heq⟩ := w.unpause_eq
    refine ⟨w.keeps_unpause, ?_, by rw [heq], by rw [heq]⟩
    rw [hpress, if_pos h]
    exact w.control_unpause
  · next h =>
    obtain ⟨_, _, _, _, _, heq⟩ := w.pause_eq
    refine ⟨w.keeps_pause, ?_, by rw [heq], by rw [heq]⟩
    rw [hpress, if_neg h]
    exact w.control_pause

theorem presses_reset (w : Worker F M) : Presses .reset w w.reset.1 := by
  cases hw : w.machine with
  | none =>
    have hsame : w.reset.1 = w := by simp [reset, hw]
    exact ⟨w.keeps_reset, w.control_reset, by rw [hsame], by rw [hsame]⟩
  | some i =>
    have hlive : w.reset.1 = (w.use i (fun _ => .reset) Machine.reset).2.goLive.notify "Reset" := by
      simp [reset, hw]
    have hbooted := w.isSome_use i (fun _ => .reset) Machine.reset
    obtain ⟨_, _, _, _, _, hused⟩ := w.use_eq i (fun _ => .reset) Machine.reset
    obtain ⟨_, _, _, _, _, _, heq⟩ :=
      (w.use i (fun _ => .reset) Machine.reset).2.live_notify_eq "Reset"
    refine ⟨w.keeps_reset, w.control_reset, ?_, ?_⟩
    · rw [hlive, heq, hw]
      exact hbooted
    · rw [hlive, heq]
      show (w.use i (fun _ => .reset) Machine.reset).2.edges = w.edges
      rw [hused]

theorem presses_power (w : Worker F M) : Presses .powerButton w w.pressPower := by
  have hpress : w.control.press w.machine.isSome .powerButton =
      if w.active then w.control.halt else w.control := rfl
  unfold pressPower
  split
  · next h =>
    refine ⟨w.keeps_stop true, ?_, w.isSome_useIfAny .stop Machine.stop, ?_⟩
    · rw [hpress, if_pos h]
      exact w.control_stop true
    · obtain ⟨machine, cart, firmware, stopRequested, journal, hstop⟩ :=
        w.useIfAny_eq .stop Machine.stop
      show (w.useIfAny .stop Machine.stop).edges = w.edges
      rw [hstop]
  · next h =>
    refine ⟨.of_eq rfl rfl rfl, ?_, rfl, rfl⟩
    rw [hpress, if_neg h]

omit [Machine M] in
theorem presses_frameStep (w : Worker F M) : Presses .frameStep w w.frameStep := by
  obtain ⟨_, _, _, _, _, heq⟩ := w.frameStep_eq
  exact ⟨w.keeps_frameStep, w.control_frameStep, by rw [heq], by rw [heq]⟩

/-- What looking at some hotkeys, one after the other, comes to: those act that have gone down. -/
structure Looked (keys : List Hotkey) (w v : Worker F M) : Prop extends Keeps w v where
  control : v.control =
    (keys.filter w.edges.pressed).foldl (Control.press w.machine.isSome) w.control
  machine : v.machine.isSome = w.machine.isSome
  edges : v.edges = w.edges

omit [Machine M] in
theorem Looked.onPress {keys : List Hotkey} (h : Looked keys w v) {k : Hotkey}
    {act : Worker F M → Worker F M} (hact : ∀ u, Presses k u (act u)) :
    Looked (keys ++ [k]) w (v.onPress k act) := by
  have hfold : ∀ pressed, [k].filter w.edges.pressed = pressed →
      ((keys ++ [k]).filter w.edges.pressed).foldl (Control.press w.machine.isSome) w.control =
        pressed.foldl (Control.press w.machine.isSome) v.control := by
    intro pressed hpressed
    rw [List.filter_append, List.foldl_append, hpressed, h.control]
  unfold Worker.onPress
  rw [h.edges]
  split
  · next hdown =>
    have hk := hact v
    refine ⟨h.toKeeps.trans hk.toKeeps, ?_, hk.machine.trans h.machine, hk.edges.trans h.edges⟩
    rw [hfold [k] (by simp [hdown]), hk.control, h.machine]
    rfl
  · next hup =>
    refine ⟨h.toKeeps, ?_, h.machine, h.edges⟩
    rw [hfold [] (by simp [hup])]
    rfl

omit [Machine M] in
theorem keeps_onPress_changeVolume (w : Worker F M) (k : Hotkey) (up : Bool) :
    Keeps w (w.onPress k (changeVolume up)) ∧
    (w.onPress k (changeVolume up)).machine = w.machine ∧
    ∃ messages : List String, (w.onPress k (changeVolume up)).control =
      messages.foldl Control.notify w.control := by
  unfold onPress
  split
  · let changed : Worker F M := { w with audio := (w.audio.stepVolume up).2 }
    have hchanged : Keeps w changed := .of_eq rfl rfl rfl
    exact ⟨hchanged.trans (keeps_notify _ _), rfl, [_], rfl⟩
  · exact ⟨.of_eq rfl rfl rfl, rfl, [], rfl⟩

theorem actOnHotkeys_eq (w : Worker F M) : ∃ (v : Worker F M) (messages : List String),
    w.actOnHotkeys = v.settle ∧ Keeps w v ∧ v.machine.isSome = w.machine.isSome ∧
    v.control = messages.foldl Control.notify
      ((Hotkey.steering.filter w.edges.pressed).foldl (Control.press w.machine.isSome)
        w.control) := by
  have hnone : Looked [] w w := ⟨.of_eq rfl rfl rfl, rfl, rfl, rfl⟩
  have hlooked : Looked Hotkey.steering w _ :=
    (((hnone.onPress presses_togglePause).onPress presses_reset).onPress presses_power).onPress
      presses_frameStep
  let fast := updateFastForward
    ((((w.onPress .pause togglePause).onPress .reset fun w => w.reset.1).onPress
      .powerButton pressPower).onPress .frameStep frameStep)
  have hfast : Keeps w fast := hlooked.toKeeps.trans (.of_eq rfl rfl rfl)
  obtain ⟨hup, hupMachine, ups, hupControl⟩ :=
    keeps_onPress_changeVolume fast .volumeUp true
  obtain ⟨hdown, hdownMachine, downs, hdownControl⟩ :=
    keeps_onPress_changeVolume (fast.onPress .volumeUp (changeVolume true)) .volumeDown false
  refine ⟨_, ups ++ downs, rfl, (hfast.trans hup).trans hdown, ?_, ?_⟩
  · rw [hdownMachine, hupMachine]
    exact hlooked.machine
  · rw [hdownControl, hupControl, List.foldl_append]
    congr 2
    exact hlooked.control

theorem control_takeStop (w : Worker F M) :
    w.takeStop.control = if w.stopRequested then w.control.halt else w.control := by
  unfold takeStop
  split
  · rw [control_settle]
    rfl
  · rfl

/-! ## Frames -/

omit [Machine M] in
theorem control_settleFrame (w : Worker F M) :
    w.settleFrame.control = if w.waiting.length ≤ 1 then w.control.rested else w.control := by
  unfold settleFrame Control.rested
  by_cases h : w.status = .frameStep
  · have hcontrol : w.control.status = .frameStep := h
    rw [if_pos h, if_pos hcontrol]
    split
    · next hwaiting => rw [hwaiting]; rfl
    · next hwaiting => rw [hwaiting]; rfl
    · next c rest hrest hwaiting =>
      have hlong : ¬(w.waiting.length ≤ 1) := by
        rw [hwaiting]
        cases rest with
        | nil => exact absurd rfl hrest
        | cons d rest => simp
      rw [if_neg hlong]
      rfl
  · have hcontrol : w.control.status ≠ .frameStep := h
    rw [if_neg h, if_neg hcontrol]
    split <;> rfl

theorem frameWith_eq (w : Worker F M) (meanwhile : List (Outside F)) :
    w.status.runsFrame = false ∧ w.frameWith meanwhile = w ∨
    ∃ v : Worker F M, w.frameWith meanwhile = v.settleFrame ∧ Keeps w v ∧
      ∃ notices, v.control = { w.control with notices } ∧
        ((∀ o ∈ meanwhile, o ≠ .readNotices) → notices = w.notices) := by
  unfold frameWith
  cases hruns : w.status.runsFrame with
  | false => exact .inl ⟨rfl, rfl⟩
  | true =>
    right
    rw [if_pos rfl]
    split
    · exact ⟨w, rfl, .of_eq rfl rfl rfl, w.notices, rfl, fun _ => rfl⟩
    · next i _ =>
      have hbegun : Aside w (w.beginFrame i).2 := w.aside_beginFrame i
      obtain ⟨hmeanwhile, notices, hcontrol, hunread⟩ := (w.beginFrame i).2.keeps_outsideAll meanwhile
      let v := ((w.beginFrame i).2.outsideAll meanwhile).endFrame (w.beginFrame i).1
      have hended : Aside ((w.beginFrame i).2.outsideAll meanwhile) v := aside_endFrame _ _
      refine ⟨v, rfl, (hbegun.toKeeps.trans hmeanwhile).trans hended.toKeeps, notices, ?_, ?_⟩
      · rw [hended.control, hcontrol, hbegun.control]
      · intro h
        rw [hunread h]
        exact congrArg Control.notices hbegun.control

end Worker

end Handheld
