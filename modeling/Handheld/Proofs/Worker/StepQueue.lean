import Handheld.Proofs.Worker.Shifting
import Handheld.Proofs.Worker.Stepping

/-!
# Steps that wait in line

Callers of frame steps that are taken together stand in line (`InLine`), and each frame after that
serves the first of them: it is executed, and then that caller is told (`line_step`). When the line is
empty the worker is paused, however many frames are asked of it after that (`line_run`). Taking the steps
pauses at most once, so that one unpause undoes it (`drained_steps_run_one_frame_each`). What is followed
through all this is the order of frames and replies (`marks`).
-/

namespace Handheld

/-- A frame of a machine, or a reply. -/
inductive Mark where
  | frame (boot : Nat)
  | reply (c : Caller) (r : Reply)
deriving DecidableEq

def Event.mark? : Event → Option Mark
  | .called boot (.runFrame _) => some (.frame boot)
  | .answered c r _ => some (.reply c r)
  | _ => none

def Act.isFrame {F : Type} : Act F → Bool
  | .frame _ => true
  | _ => false

theorem Control.pauses_frameStep_of_pos {c : Control} (h : 0 < c.pauses.depth) :
    c.frameStep.pauses = c.pauses := by
  unfold Control.frameStep
  rw [if_neg (by omega)]

theorem Control.unpause_frameStep {c d : Control} (hrunning : c.status = .running)
    (hdepth : c.pauses.depth = 0) (hd : d.pauses = c.frameStep.pauses) :
    d.unpause.status = .running ∧ d.unpause.pauses.depth = 0 := by
  have hpauses : d.pauses = ⟨1, .running⟩ := by
    rw [hd]
    unfold Control.frameStep Control.pause
    rw [if_pos hdepth, if_pos hdepth]
    simp [hrunning, notify]
  unfold Control.unpause
  simp [hpauses, notify, PauseStack.clear]

namespace Worker

variable {F M : Type} {u v w : Worker F M} {boot : Nat} {line : List Caller} {pauses : PauseStack}

def marks (w : Worker F M) : List Mark := (w.journal.filterMap Event.mark?).reverse

/-- No frame and no reply, and the machine stays. -/
structure Unmarked (w v : Worker F M) : Prop where
  adds : Adds (fun e => e.mark? = none) w v
  frames : v.frames = w.frames
  boot : v.installedBoot = w.installedBoot

theorem Unmarked.trans (huv : Unmarked u v) (hvw : Unmarked v w) : Unmarked u w where
  adds := huv.adds.trans hvw.adds
  frames := hvw.frames.trans huv.frames
  boot := hvw.boot.trans huv.boot

theorem Unmarked.of_eq (hjournal : v.journal = w.journal) (hframes : v.frames = w.frames)
    (hmachine : v.machine = w.machine) : Unmarked w v where
  adds := .of_eq hjournal
  frames := hframes
  boot := congrArg (Option.map Installed.boot) hmachine

theorem Unmarked.marks (h : Unmarked w v) : v.marks = w.marks :=
  congrArg List.reverse (h.adds.filterMap_eq fun _ he => he)

theorem unmarked_use {α : Type} {i : Installed M} (hi : w.machine = some i) (call : α → Call)
    (hcall : ∀ answer, (Event.called i.boot (call answer)).mark? = none) (act : M → Outcome M α) :
    Unmarked w (w.use i call act).2 where
  adds := w.adds_use i call act (hcall _) fun _ => rfl
  frames := by
    obtain ⟨_, _, _, _, _, h⟩ := w.use_eq i call act
    rw [h]
  boot := (w.installedBoot_use i call act).trans (congrArg (Option.map Installed.boot) hi).symm

theorem unmarked_outside (w : Worker F M) (o : Outside F) : Unmarked w (w.outside o) where
  adds := w.adds_outside o fun _ _ => rfl
  frames := (w.outside_keeps o).2
  boot := congrArg (Option.map Installed.boot) (w.machine_outside o)

theorem unmarked_outsideAll (w : Worker F M) (meanwhile : List (Outside F)) :
    Unmarked w (w.outsideAll meanwhile) := by
  induction meanwhile generalizing w with
  | nil => exact .of_eq rfl rfl rfl
  | cons o meanwhile ih => exact (w.unmarked_outside o).trans (ih _)

theorem unmarked_frameStep (w : Worker F M) : Unmarked w w.frameStep := by
  have hpause : Unmarked w w.pause := by
    unfold pause
    dsimp only
    split
    · exact .of_eq rfl rfl rfl
    · split
      · exact .of_eq rfl rfl rfl
      · exact ⟨adds_note _ rfl, rfl, rfl⟩
  unfold frameStep
  split
  · exact hpause.trans (.of_eq rfl rfl rfl)
  · exact .of_eq rfl rfl rfl

theorem settle_eq_publish (h : w.status = .frameStep ∨ w.status = .paused ∧ w.waiting = []) :
    w.settle = w.publish := by
  rcases h with hstep | ⟨hpaused, hnone⟩
  · unfold settle
    rw [hstep]
  · have hsame : w.answerSteps (.ok ()) = w := by
      unfold answerSteps
      rw [hnone]
      cases w
      simp_all
    unfold settle
    rw [hpaused]
    dsimp only
    rw [hsame]

variable [Machine M]

/-! ## One frame -/

theorem unmarked_beginFrame {i : Installed M} (hi : w.machine = some i) :
    Unmarked w (w.beginFrame i).2 := by
  let heard := w.mic.nextFrame (w.edges.down .mic)
  have hheard : Unmarked w { w with mic := heard.2 } := .of_eq rfl rfl rfl
  have hmachine : ({ w with mic := heard.2 } : Worker F M).machine = some i := hi
  exact hheard.trans (unmarked_use hmachine (fun _ => .hearMic heard.1) (fun _ => rfl)
    (Machine.hearMic · heard.1))

theorem unmarked_moveOutput (reads : Nat) (w : Worker F M) : Unmarked w (w.moveOutput reads) := by
  induction reads generalizing w with
  | zero => exact .of_eq rfl rfl rfl
  | succ reads ih =>
    unfold moveOutput
    split
    · exact .of_eq rfl rfl rfl
    · next i hi =>
      split
      · exact .of_eq rfl rfl rfl
      · have hread : Unmarked w (w.use i (fun out => .readOutput outputChunk out.length)
            (Machine.readOutput · outputChunk)).2 := unmarked_use hi _ (fun _ => rfl) _
        dsimp only
        split
        · exact hread
        · refine (hread.trans ?_).trans (ih _)
          exact .of_eq rfl rfl rfl

theorem unmarked_moveAllOutput (w : Worker F M) : Unmarked w w.moveAllOutput := by
  unfold moveAllOutput
  split
  · exact .of_eq rfl rfl rfl
  · exact unmarked_moveOutput _ w

theorem framed_marks (h : w.installedBoot = some boot) (meanwhile : List (Outside F)) :
    (w.framed meanwhile).marks = w.marks ++ [.frame boot] ∧
      (w.framed meanwhile).frames = w.frames + 1 ∧
      (w.framed meanwhile).installedBoot = some boot := by
  obtain ⟨i, hi, rfl⟩ := Option.map_eq_some_iff.mp h
  let begun := (w.beginFrame i).2.outsideAll meanwhile
  let input := (w.beginFrame i).1
  have hbegun : Unmarked w begun :=
    (unmarked_beginFrame hi).trans ((w.beginFrame i).2.unmarked_outsideAll meanwhile)
  obtain ⟨j, hj, hboot⟩ := Option.map_eq_some_iff.mp (hbegun.boot.trans h)
  let ran := (begun.use j (fun _ => .runFrame input) (Machine.runFrame · input)).2
  have hended : w.framed meanwhile = { ran.moveAllOutput with frames := ran.moveAllOutput.frames + 1 } :=
    framed_of_machine hi hj
  have hmoved := ran.unmarked_moveAllOutput
  have hran : ran.marks = begun.marks ++ [.frame i.boot] := by
    let called : Worker F M :=
      { begun with machine := some { j with machine := (Machine.runFrame j.machine input).machine } }.note
        (.called j.boot (.runFrame input))
    have hrequests : Adds (fun e => e.mark? = none) called ran := by
      refine ⟨_, journal_receiveAll called j.boot _, fun e he => ?_⟩
      obtain ⟨q, -, rfl⟩ := List.mem_map.mp (List.mem_reverse.mp he)
      rfl
    have hcalled : called.marks = begun.marks ++ [.frame j.boot] := List.reverse_cons
    rw [← hboot, ← hcalled]
    exact congrArg List.reverse (hrequests.filterMap_eq fun _ he => he)
  have hframes : ran.frames = begun.frames := by
    obtain ⟨_, _, _, _, _, heq⟩ := begun.use_eq j (fun _ => .runFrame input) (Machine.runFrame · input)
    show (begun.use j _ _).2.frames = _
    rw [heq]
  refine ⟨?_, ?_, ?_⟩
  · rw [hended]
    show ran.moveAllOutput.marks = _
    rw [hmoved.marks, hran, hbegun.marks]
  · rw [hended]
    show ran.moveAllOutput.frames + 1 = _
    rw [hmoved.frames, hframes, hbegun.frames]
  · rw [hended]
    show ran.moveAllOutput.installedBoot = _
    rw [hmoved.boot, ← hboot]
    exact begun.installedBoot_use j _ _

/-! ## The line -/

/-- Callers whose steps are still to run stand in line, and the worker is paused when none is left. -/
structure InLine (boot : Nat) (pauses : PauseStack) (line : List Caller) (w : Worker F M) : Prop where
  boot : w.installedBoot = some boot
  pauses : w.pauses = pauses
  waiting : w.waiting = line
  status : w.status = if line = [] then .paused else .frameStep

/-- The first so many in line were served: a frame for each, and then a reply. -/
structure Serves (boot : Nat) (line : List Caller) (n : Nat) (w v : Worker F M) : Prop where
  marks : v.marks = w.marks ++ (line.take n).flatMap fun c => [.frame boot, .reply c (.ok ())]
  frames : v.frames = w.frames + min n line.length

/-- No command is taken, no hotkey goes down, and no wish to be stopped is found. -/
def LeftToStep (w : Worker F M) : Act F → Prop
  | .take _ => False
  | .poll => (∀ k, w.sampleHotkeys.edges.pressed k = false) ∧ w.stopRequested = false
  | .frame _ => True
  | .outside _ => True
  | .shutdown => False

omit [Machine M] in
theorem Unmarked.serves (h : Unmarked w v) (boot : Nat) (line : List Caller) :
    Serves boot line 0 w v where
  marks := by simp [h.marks]
  frames := by simp [h.frames]

omit [Machine M] in
theorem Serves.trans {n m : Nat} (huv : Serves boot line n u v)
    (hvw : Serves boot (line.drop n) m v w) : Serves boot line (n + m) u w where
  marks := by rw [hvw.marks, huv.marks, List.append_assoc, ← List.flatMap_append, List.take_add]
  frames := by
    rw [hvw.frames, huv.frames, List.length_drop]
    omega

omit [Machine M] in
theorem InLine.settle_eq (h : InLine boot pauses line w) : w.settle = w.publish := by
  refine settle_eq_publish ?_
  have hstatus := h.status
  split_ifs at hstatus with hnone
  · exact .inr ⟨hstatus, h.waiting.trans hnone⟩
  · exact .inl hstatus

omit [Machine M] in
/-- What changes no status, no pauses and no callers keeps the line. -/
theorem InLine.of_unmarked (h : InLine boot pauses line w) (hv : Unmarked w v)
    (hwaiting : v.waiting = w.waiting) (hstatus : v.status = w.status)
    (hpauses : v.pauses = w.pauses) : InLine boot pauses line v where
  boot := hv.boot.trans h.boot
  pauses := hpauses.trans h.pauses
  waiting := hwaiting.trans h.waiting
  status := hstatus.trans h.status

theorem line_frame (h : InLine boot pauses line w) (meanwhile : List (Outside F)) :
    InLine boot pauses (line.drop 1) (w.frameWith meanwhile) ∧
      Serves boot line 1 w (w.frameWith meanwhile) := by
  rw [frameWith_framed]
  cases line with
  | nil =>
    have hpaused : w.status.runsFrame = false := by
      rw [h.status]
      rfl
    rw [hpaused]
    exact ⟨h, ⟨(List.append_nil _).symm, rfl⟩⟩
  | cons c rest =>
    have hstep : w.status = .frameStep := h.status
    have hruns : w.status.runsFrame = true := by
      rw [hstep]
      rfl
    obtain ⟨hmarks, hframes, hboot⟩ := framed_marks h.boot meanwhile
    obtain ⟨hkeeps, hstatus⟩ := w.keeps_framed meanwhile
    obtain ⟨notices, hcontrol⟩ := w.control_framed meanwhile
    have hwaiting : (w.framed meanwhile).waiting = c :: rest := hkeeps.waiting.trans h.waiting
    rw [if_pos hruns, settleFrame_of_step (hstatus.trans hstep), hwaiting]
    refine ⟨⟨hboot, (congrArg Control.pauses hcontrol).trans h.pauses, rfl, ?_⟩, ?_, ?_⟩
    · -- one caller and no more is one in line and none behind
      show (if (c :: rest).length ≤ 1 then Status.paused else .frameStep) = _
      cases rest <;> simp
    · have htold : ∀ v : Worker F M, (v.answer c (.ok ())).marks = v.marks ++ [.reply c (.ok ())] :=
        fun v => List.reverse_cons
      refine (htold _).trans ?_
      show (w.framed meanwhile).marks ++ _ = _
      rw [hmarks, List.append_assoc]
      rfl
    · show (w.framed meanwhile).frames = _
      rw [hframes]
      simp

theorem line_step [Factory F M] (h : InLine boot pauses line w) {a : Act F} (ha : w.LeftToStep a) :
    InLine boot pauses (line.drop (if a.isFrame then 1 else 0)) (w.step a) ∧
      Serves boot line (if a.isFrame then 1 else 0) w (w.step a) := by
  cases a with
  | take e => exact ha.elim
  | shutdown => exact ha.elim
  | frame meanwhile => exact line_frame h meanwhile
  | outside o =>
    have hsame := w.unmarked_outside o
    obtain ⟨hkeeps, notices, hcontrol, -⟩ := w.keeps_outside o
    exact ⟨h.of_unmarked hsame hkeeps.waiting (congrArg Control.status hcontrol)
      (congrArg Control.pauses hcontrol), hsame.serves boot line⟩
  | poll =>
    let looked := w.sampleHotkeys.updateFastForward
    have hlooked : InLine boot pauses line looked := ⟨h.boot, h.pauses, h.waiting, h.status⟩
    have hawake : w.status ≠ .exiting := by
      rw [h.status]
      split <;> nofun
    have hpoll : w.poll = looked.publish := by
      rw [poll_of_unpressed ha.1 ha.2, if_neg hawake]
      exact hlooked.settle_eq
    have hsame : Unmarked w looked.publish := .of_eq rfl rfl rfl
    show InLine boot pauses line w.poll ∧ Serves boot line 0 w w.poll
    rw [hpoll]
    exact ⟨h.of_unmarked hsame rfl rfl rfl, hsame.serves boot line⟩

theorem line_run [Factory F M] (h : InLine boot pauses line w) {acts : List (Act F)}
    (hacts : w.Along LeftToStep acts) :
    InLine boot pauses (line.drop (acts.countP Act.isFrame)) (w.run acts) ∧
      Serves boot line (acts.countP Act.isFrame) w (w.run acts) := by
  induction acts generalizing w line with
  | nil => exact ⟨h, Unmarked.serves (.of_eq rfl rfl rfl) boot line⟩
  | cons a acts ih =>
    obtain ⟨ha, hrest⟩ := along_cons.mp hacts
    obtain ⟨hline, hserves⟩ := line_step h ha
    obtain ⟨hline', hserves'⟩ := ih hline hrest
    rw [List.drop_drop] at hline'
    rw [List.countP_cons, Nat.add_comm]
    exact ⟨hline', hserves.trans hserves'⟩

/-! ## Getting in line -/

variable [Factory F M]

theorem handle_frameStep (hawake : w.status ≠ .exiting) (c : Caller) :
    let v := w.handle ⟨.frameStep, some c⟩
    Unmarked w v ∧ v.waiting = w.waiting ++ [c] ∧ v.status = .frameStep ∧
      v.pauses = w.control.frameStep.pauses := by
  intro v
  let taken := w.note (.taken ⟨.frameStep, some c⟩)
  let stepped : Worker F M := { taken.frameStep with waiting := taken.frameStep.waiting ++ [c] }
  have hv : v = stepped.publish := by
    have htaken : taken.status ≠ .exiting := hawake
    show (if taken.status = .exiting then _ else taken.serve _) = _
    rw [if_neg htaken]
    exact settle_eq_publish (w := stepped) (.inl rfl)
  have htaken : Unmarked w taken := ⟨w.adds_note rfl, rfl, rfl⟩
  have hpublish : Unmarked taken.frameStep v := by
    rw [hv]
    exact .of_eq rfl rfl rfl
  have hcontrol : v.control = w.control.frameStep := control_handle hawake ⟨.frameStep, some c⟩
  refine ⟨(htaken.trans taken.unmarked_frameStep).trans hpublish, ?_, ?_,
    congrArg Control.pauses hcontrol⟩
  · rw [hv]
    exact congrArg (· ++ [c]) taken.keeps_frameStep.waiting
  · rw [hv]
    rfl

theorem line_handle (h : InLine boot pauses line w) (hline : line ≠ []) (hpauses : 0 < pauses.depth)
    (c : Caller) :
    InLine boot pauses (line ++ [c]) (w.handle ⟨.frameStep, some c⟩) ∧
      Unmarked w (w.handle ⟨.frameStep, some c⟩) := by
  have hstep : w.status = .frameStep := by rw [h.status, if_neg hline]
  have hdepth : 0 < w.control.pauses.depth := by
    show 0 < w.pauses.depth
    rw [h.pauses]
    exact hpauses
  have hawake : w.status ≠ .exiting := by
    rw [hstep]
    nofun
  obtain ⟨hsame, hwaiting, hstatus, hv⟩ := handle_frameStep hawake c
  rw [Control.pauses_frameStep_of_pos hdepth] at hv
  refine ⟨⟨hsame.boot.trans h.boot, hv.trans h.pauses, hwaiting.trans (by rw [h.waiting]), ?_⟩, hsame⟩
  rw [hstatus, if_neg (by simp)]

theorem line_handleAll (h : InLine boot pauses line w) (hline : line ≠ [])
    (hpauses : 0 < pauses.depth) (callers : List Caller) :
    InLine boot pauses (line ++ callers)
        (w.handleAll (callers.map fun c => ⟨.frameStep, some c⟩)) ∧
      Unmarked w (w.handleAll (callers.map fun c => ⟨.frameStep, some c⟩)) := by
  induction callers generalizing w line with
  | nil => exact ⟨by rw [List.append_nil]; exact h, .of_eq rfl rfl rfl⟩
  | cons c callers ih =>
    obtain ⟨hfirst, hsame⟩ := line_handle h hline hpauses c
    obtain ⟨hrest, hsame'⟩ := ih hfirst (by simp)
    rw [List.append_assoc] at hrest
    exact ⟨hrest, hsame.trans hsame'⟩

/-- Steps that are taken together while none is to run stand in line in the order they came. -/
theorem line_of_drained (hboot : w.installedBoot = some boot) (hawake : w.status ≠ .exiting)
    (hnone : w.waiting = []) {callers : List Caller} (hcallers : callers ≠ []) :
    InLine boot w.control.frameStep.pauses callers
        (w.handleAll (callers.map fun c => ⟨.frameStep, some c⟩)) ∧
      Unmarked w (w.handleAll (callers.map fun c => ⟨.frameStep, some c⟩)) := by
  obtain ⟨c, callers, rfl⟩ := List.exists_cons_of_ne_nil hcallers
  obtain ⟨hsame, hwaiting, hstatus, hpauses⟩ := handle_frameStep hawake c
  have hfirst : InLine boot w.control.frameStep.pauses [c] (w.handle ⟨.frameStep, some c⟩) :=
    ⟨hsame.boot.trans hboot, hpauses, by rw [hwaiting, hnone]; rfl, hstatus⟩
  have hpositive : 0 < w.control.frameStep.pauses.depth := by
    rw [Control.depth_frameStep]
    omega
  obtain ⟨hline, hsame'⟩ := line_handleAll hfirst (by simp) hpositive callers
  exact ⟨hline, hsame.trans hsame'⟩

/-- **One frame for each step that is taken.** At any point of a run, with a machine, and with no step
still to run, let frame steps be taken for some callers, one after the other. Whatever happens after that
but commands, hotkeys and wishes to be stopped, so many of the callers were served as frames were due:
the machine executed one frame for each, and after it that caller was told, in the order in which they
came; nothing else was executed or told. Once all were served the worker is paused, with one pause more
only if there was none, so that an unpause lets a worker run again that ran before. -/
theorem drained_steps_run_one_frame_each (id : Nat) (factory : F) (world : World)
    (cartSave firmwareSave : Option Path) (audio : Pipeline) (mic : MicInput)
    (acts later : List (Act F)) (callers : List Caller) (boot : Nat) :
    let w : Worker F M := .new id factory world cartSave firmwareSave audio mic
    let v := w.run acts
    let drained := v.handleAll (callers.map fun c => ⟨.frameStep, some c⟩)
    let u := drained.run later
    let n := later.countP Act.isFrame
    v.installedBoot = some boot → v.status ≠ .exiting → v.status ≠ .frameStep → callers ≠ [] →
      drained.Along LeftToStep later →
      u.marks = v.marks ++ (callers.take n).flatMap (fun c => [.frame boot, .reply c (.ok ())]) ∧
      u.frames = v.frames + min n callers.length ∧ u.waiting = callers.drop n ∧
      (callers.length ≤ n → u.status = .paused ∧ u.pauses.depth = max 1 v.pauses.depth ∧
        (v.status = .running → v.pauses.depth = 0 → ∀ c,
          (u.handle ⟨.unpause, c⟩).status = .running ∧ (u.handle ⟨.unpause, c⟩).pauses.depth = 0)) := by
  intro w v drained u n hboot hawake hstep hcallers hlater
  have hnew : w.Accounted [] := ⟨[], Accounts.empty⟩
  have hnone : v.waiting = [] := (accounted_run hnew (fun _ => rfl) acts).2 hstep
  obtain ⟨hdrained, hsame⟩ := line_of_drained hboot hawake hnone hcallers
  obtain ⟨hline, hserves⟩ := line_run hdrained hlater
  refine ⟨?_, ?_, hline.waiting, fun hall => ?_⟩
  · rw [← hsame.marks]
    exact hserves.marks
  · rw [← hsame.frames]
    exact hserves.frames
  · have hpaused : u.status = .paused := by
      rw [hline.status, List.drop_eq_nil_of_le hall]
      rfl
    refine ⟨hpaused, ?_, fun hrunning hdepth c => ?_⟩
    · rw [hline.pauses]
      exact Control.depth_frameStep _
    · have hu : u.status ≠ .exiting := by
        rw [hpaused]
        nofun
      have hcontrol : (u.handle ⟨.unpause, c⟩).control = u.control.unpause := control_handle hu _
      obtain ⟨hstatus, hresumed⟩ := Control.unpause_frameStep (d := u.control) hrunning hdepth hline.pauses
      rw [← hcontrol] at hstatus hresumed
      exact ⟨hstatus, hresumed⟩

/-- Two steps that a running worker takes at once, and three passes after that. -/
theorem two_drained_steps_over :
    let w : Worker ScriptFactory ScriptMachine :=
      (rehearsal {} (.empty [])).run [.take ⟨.bootFirmware, none⟩, .take ⟨.run, none⟩]
    let u := (w.handleAll [⟨.frameStep, some 7⟩, ⟨.frameStep, some 8⟩]).passes [[], [], []]
    w.status = .running ∧
      u.marks = w.marks ++ [.frame 0, .reply 7 (.ok ()), .frame 0, .reply 8 (.ok ())] ∧
      u.status = .paused ∧ (u.handle ⟨.unpause, none⟩).status = .running := by
  intro w u
  let later : List (Act ScriptFactory) := [.poll, .frame [], .poll, .frame [], .poll, .frame []]
  let drained := w.handleAll [⟨.frameStep, some 7⟩, ⟨.frameStep, some 8⟩]
  have hu : u = drained.run later := passes_eq_run _ _
  have hpoll : ∀ v : Worker ScriptFactory ScriptMachine, v.input.hotkeysDown = {} →
      v.stopRequested = false → v.LeftToStep .poll :=
    fun v hkeys hstop => ⟨v.unpressed_of_none_down hkeys, hstop⟩
  have hlater : drained.Along LeftToStep later :=
    along_cons.mpr ⟨hpoll _ (by decide) (by decide), along_cons.mpr ⟨trivial,
      along_cons.mpr ⟨hpoll _ (by decide) (by decide), along_cons.mpr ⟨trivial,
      along_cons.mpr ⟨hpoll _ (by decide) (by decide), along_cons.mpr ⟨trivial, along_nil _ _⟩⟩⟩⟩⟩⟩
  have hrunning : w.status = .running := by decide +kernel
  have hawake : w.status ≠ .exiting := by decide +kernel
  have hstep : w.status ≠ .frameStep := by decide +kernel
  have hdepth : w.pauses.depth = 0 := by decide +kernel
  have hboot : w.installedBoot = some 0 := by decide +kernel
  have h := drained_steps_run_one_frame_each 0 (⟨{}, false⟩ : ScriptFactory) ⟨.empty [], {}, 0⟩ none
    none (.new 0 {} {} {}) (.new (.empty []) .silence none)
    [.take ⟨.bootFirmware, none⟩, .take ⟨.run, none⟩] later [7, 8] 0 hboot hawake hstep (by simp) hlater
  have hover := h.2.2.2 (by decide : [7, 8].length ≤ later.countP Act.isFrame)
  rw [hu]
  exact ⟨hrunning, h.1, hover.1, (hover.2.2 hrunning hdepth none).1⟩

end Worker

end Handheld
