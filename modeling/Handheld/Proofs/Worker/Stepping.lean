import Handheld.Proofs.Worker.Exiting
import Handheld.Proofs.Worker.Lockstep

/-!
# Frame steps

A caller of a frame step is told that it is over when its frame was executed, and also when the step is
called off: when a command, a hotkey or a wish to be stopped takes the worker out of its step before
that frame (`answered_unrun_iff_called_off`). Replies are counted (`tellings`): a step of a run other than
a frame answers those who wait if it leaves the worker running or paused, and nobody otherwise
(`tellings_step`), and it executes no frame (`adds_noFrame_step`).
-/

namespace Handheld

/-- A caller is told that all went well. -/
def Event.tells (c : Caller) : Event → Bool
  | .answered d (.ok ()) _ => d = c
  | _ => false

theorem Event.Silent.tells {e : Event} (h : e.Silent) (c : Caller) : e.tells c = false := by
  cases e with
  | answered => exact h.elim
  | _ => rfl

/-- Callers of steps are told that theirs are over. -/
def Status.endsSteps : Status → Bool
  | .running => true
  | .paused => true
  | .frameStep => false
  | .exiting => false

namespace Control

theorem Paced.awake_presses {c : Control} (h : Paced c) (hawake : c.status ≠ .exiting) (booted : Bool)
    (keys : List Hotkey) : (keys.foldl (press booted) c).status ≠ .exiting := by
  induction keys generalizing c with
  | nil => exact hawake
  | cons k keys ih =>
    rw [List.foldl_cons]
    rcases c.press_cases booted k with hpress | ⟨command, hcommand, hpress⟩
    · rw [hpress]
      exact ih h hawake
    · have hexit : command ≠ .exit := by
        rintro rfl
        cases k <;> simp [Hotkey.commands] at hcommand
      rw [hpress]
      exact ih (h.obey hawake booted command) (h.awake_obey hawake booted hexit)

theorem status_notifyAll (c : Control) (messages : List String) :
    (messages.foldl notify c).status = c.status := by
  induction messages generalizing c with
  | nil => rfl
  | cons message messages ih => exact ih (c.notify message)

end Control

namespace Worker

variable {F M : Type} {u v w : Worker F M} {c : Caller}

/-- How often a caller was told that all went well. -/
def tellings (w : Worker F M) (c : Caller) : Nat := w.journal.countP (Event.tells c)

theorem tellings_of_adds (h : Adds (fun e => e.tells c = false) w v) : v.tellings c = w.tellings c := by
  obtain ⟨added, hjournal, hadded⟩ := h
  have hnone : added.countP (Event.tells c) = 0 := by
    rw [List.countP_eq_zero]
    intro e he
    simp [hadded e he]
  rw [tellings, hjournal, List.countP_append, hnone, Nat.zero_add]
  rfl

theorem Keeps.tellings (h : Keeps w v) (c : Caller) : v.tellings c = w.tellings c := by
  obtain ⟨added, hjournal, hsilent⟩ := h.adds
  exact tellings_of_adds ⟨added, hjournal, fun e he => (hsilent e he).tells c⟩

theorem tellings_respond (w : Worker F M) (d : Option Caller) (hd : d ≠ some c) (r : Reply) :
    (w.respond d r).tellings c = w.tellings c := by
  cases d with
  | none => rfl
  | some d =>
    refine tellings_of_adds (w.adds_note ?_)
    have hne : d ≠ c := fun h => hd (congrArg some h)
    cases r with
    | ok _ => simp [Event.tells, hne]
    | error e => rfl

theorem tellings_answerSteps_error (w : Worker F M) (e : WorkerError) :
    (w.answerSteps (.error e)).tellings c = w.tellings c :=
  tellings_of_adds (w.adds_answerSteps _ fun _ _ => rfl)

theorem tellings_answerSteps_ok (w : Worker F M) :
    (w.answerSteps (.ok ())).tellings c = w.tellings c + w.waiting.count c := by
  suffices ∀ (cs : List Caller) (v : Worker F M),
      (cs.foldl (fun v c => v.answer c (.ok ())) v).tellings c = v.tellings c + cs.count c from
    this w.waiting { w with waiting := [] }
  intro cs
  induction cs with
  | nil => exact fun v => rfl
  | cons d cs ih =>
    intro v
    have hanswer : (v.answer d (.ok ())).tellings c = v.tellings c + if d = c then 1 else 0 := by
      show (Event.answered d (.ok ()) v.shown :: v.journal).countP (Event.tells c) = _
      rw [List.countP_cons]
      simp [Event.tells, tellings]
    rw [List.foldl_cons, ih, hanswer, List.count_cons]
    simp only [beq_iff_eq]
    omega

theorem tellings_settle (w : Worker F M) :
    w.settle.tellings c = w.tellings c + if w.status.endsSteps then w.waiting.count c else 0 := by
  unfold settle
  split
  · next h =>
    rw [h]
    rfl
  · next h =>
    rw [h]
    exact w.tellings_answerSteps_error _
  · next h =>
    rw [h]
    exact w.tellings_answerSteps_ok
  · next h =>
    rw [h]
    exact w.tellings_answerSteps_ok

theorem waiting_settle (w : Worker F M) :
    w.settle.waiting = if w.status = .frameStep then w.waiting else [] := by
  unfold settle
  split
  · next h =>
    rw [if_pos h]
    rfl
  all_goals
    next h =>
    have hstep : w.status ≠ .frameStep := by simp [h]
    obtain ⟨journal, heq⟩ := w.answerSteps_eq _
    rw [if_neg hstep, heq]
    rfl

/-! ## Steps of a run that are no frames -/

theorem stable_noFrame (w : Worker F M) : Stable.Aiming (fun v => Adds NoFrame w v) where
  free := by
    rintro v v' h hunsaved
    exact h.trans (.of_eq hunsaved.journal)
  note := by
    rintro v e h he
    refine h.trans (v.adds_note ?_)
    rintro boot input rfl
    cases he
  receive := by
    rintro v h boot q
    refine h.trans ⟨[.requested boot q], ?_, by simp [NoFrame]⟩
    cases q <;> rfl
  flush := by
    rintro v h kind
    exact h.trans (v.adds_outside _ (by simp [NoFrame]))
  point := by
    rintro v h path
    exact h.trans (v.adds_note (e := .pointed path) (by simp [NoFrame]))
  disk := by
    rintro v h files
    exact h.trans (.of_eq rfl)

theorem adds_noFrame_settle (w : Worker F M) : Adds NoFrame w w.settle :=
  w.adds_settle (by simp [NoFrame])

theorem adds_noFrame_poll [Machine M] (w : Worker F M) : Adds NoFrame w w.poll := by
  have hpolled : Adds NoFrame w w.pollHotkeys := by
    unfold pollHotkeys
    dsimp only
    split
    · exact .of_eq rfl
    · have hsample : Holds (fun v => Adds NoFrame w v) w.sampleHotkeys w.sampleHotkeys :=
        .of_self (.of_eq rfl)
      obtain ⟨v, -, ⟨hv, -⟩, hacted, -⟩ := (stable_noFrame w).toStable.inStep.actOnHotkeys hsample
      rw [hacted]
      exact hv.trans v.adds_noFrame_settle
  have hstop : ∀ v : Worker F M, Adds NoFrame v v.takeStop := by
    intro v
    unfold takeStop
    split
    · exact Adds.trans (.of_eq rfl) (adds_noFrame_settle _)
    · exact .of_eq rfl
  exact hpolled.trans (hstop _)

variable [Machine M] [Factory F M]

theorem adds_noFrame_handle (w : Worker F M) (e : Envelope) : Adds NoFrame w (w.handle e) := by
  have htaken : Adds NoFrame w (w.note (.taken e)) := w.adds_note (by simp [NoFrame])
  have happlied : Adds NoFrame w ((w.note (.taken e)).apply e.command).1 :=
    (InStep.apply (stable_noFrame w).inStep (.of_self htaken) e.command).1
  unfold handle
  dsimp only
  split
  · exact htaken.trans (adds_respond _ _ _ (by simp [NoFrame]))
  · unfold serve
    dsimp only
    split
    · exact (happlied.trans (.of_eq rfl)).trans (adds_noFrame_settle _)
    · exact (happlied.trans (adds_noFrame_settle _)).trans (adds_respond _ _ _ (by simp [NoFrame]))

theorem adds_noFrame_step (w : Worker F M) {a : Act F} (ha : ∀ meanwhile, a ≠ .frame meanwhile) :
    Adds NoFrame w (w.step a) := by
  cases a with
  | take e => exact w.adds_noFrame_handle e
  | poll => exact w.adds_noFrame_poll
  | frame meanwhile => exact absurd rfl (ha meanwhile)
  | outside o => exact w.adds_outside o (by simp [NoFrame])
  | shutdown => exact w.done_shutdown.adds

/-! ## Who is answered -/

omit [Machine M] [Factory F M] in
theorem count_append_caller {e : Envelope} (he : e.caller ≠ some c) (waiting : List Caller) :
    (waiting ++ e.caller.toList).count c = waiting.count c := by
  cases hd : e.caller with
  | none => simp
  | some d =>
    have hne : d ≠ c := fun h => he (hd.trans (congrArg some h))
    simp [hne]

theorem tellings_handle (w : Worker F M) {e : Envelope} (he : e.caller ≠ some c) :
    (w.handle e).tellings c =
      w.tellings c + if (w.handle e).status.endsSteps then w.waiting.count c else 0 := by
  have htaken : (w.note (.taken e)).tellings c = w.tellings c :=
    tellings_of_adds (w.adds_note rfl)
  by_cases hexiting : w.status = .exiting
  · have hstatus : (w.handle e).status = .exiting := (done_handle hexiting e).status
    rw [hstatus, handle_of_exiting hexiting]
    exact (tellings_respond _ e.caller he _).trans htaken
  · have hkeeps := (w.note (.taken e)).keeps_apply e.command
    have hsettled : ∀ v : Worker F M, v.tellings c = w.tellings c →
        v.waiting.count c = w.waiting.count c → v.settle.tellings c =
          w.tellings c + if v.settle.status.endsSteps then w.waiting.count c else 0 := by
      intro v htold hcount
      rw [tellings_settle, status_settle, htold, hcount]
    have htold := (hkeeps.tellings c).trans htaken
    have hawake : (w.note (.taken e)).status ≠ .exiting := hexiting
    unfold handle serve
    dsimp only
    rw [if_neg hawake]
    split
    · refine hsettled _ htold ?_
      exact (count_append_caller he _).trans (congrArg (List.count c) hkeeps.waiting)
    · have happlied := hsettled _ htold (congrArg (List.count c) hkeeps.waiting)
      have hstatus : ∀ (v : Worker F M) (r : Reply), (v.respond e.caller r).status = v.status := by
        intro v r
        cases e.caller <;> rfl
      rw [tellings_respond _ _ he, hstatus]
      exact happlied

omit [Factory F M] in
theorem tellings_takeStop (w : Worker F M) : w.takeStop.tellings c =
    w.tellings c + if w.stopRequested then w.waiting.count c else 0 := by
  unfold takeStop
  split
  · rw [tellings_settle]
    rfl
  · rfl

omit [Factory F M] in
theorem tellings_poll (hpatient : w.Patient) (hpaced : w.control.Paced) :
    w.poll.tellings c = w.tellings c + if w.poll.status.endsSteps then w.waiting.count c else 0 := by
  have hpoll : w.poll.tellings c = w.pollHotkeys.tellings c +
      if w.pollHotkeys.stopRequested then w.pollHotkeys.waiting.count c else 0 :=
    tellings_takeStop _
  have hstatus : w.poll.status =
      if w.pollHotkeys.stopRequested then .paused else w.pollHotkeys.status := by
    cases hstop : w.pollHotkeys.stopRequested with
    | true => exact status_takeStop hstop
    | false =>
      show w.pollHotkeys.takeStop.status = _
      rw [takeStop, hstop]
      rfl
  by_cases hexiting : w.status = .exiting
  · have hnone : w.waiting = [] := hpatient (by simp [hexiting])
    have hsample : w.pollHotkeys = w.sampleHotkeys := by
      have hsampled : w.sampleHotkeys.status = .exiting := hexiting
      simp [pollHotkeys, hsampled]
    have hwaiting : w.pollHotkeys.waiting = [] := by
      rw [hsample]
      exact hnone
    rw [hpoll, hwaiting, hnone, hsample, List.count_nil, ite_self, ite_self]
    rfl
  · obtain ⟨x, messages, hacted, hkeeps, -, hcontrol⟩ := w.sampleHotkeys.actOnHotkeys_eq
    have hx : w.pollHotkeys = x.settle := by
      have hsampled : w.sampleHotkeys.status ≠ .exiting := hexiting
      simp only [pollHotkeys, hsampled, if_false, hacted]
    have hawake : x.status ≠ .exiting := by
      intro h
      have hpresses := hpaced.awake_presses hexiting w.sampleHotkeys.machine.isSome
        (Hotkey.steering.filter w.sampleHotkeys.edges.pressed)
      rw [← Control.status_notifyAll _ messages] at hpresses
      exact hpresses ((congrArg Control.status hcontrol).symm.trans h)
    have htold : x.tellings c = w.tellings c := hkeeps.tellings c
    have hwaiting : x.waiting = w.waiting := hkeeps.waiting
    rw [hpoll, hstatus, hx, tellings_settle, waiting_settle, status_settle, htold, hwaiting]
    -- the hotkeys end the step and answer, or leave that to the wish to be stopped
    cases hs : x.status with
    | exiting => exact absurd hs hawake
    | _ => cases x.settle.stopRequested <;> simp [Status.endsSteps]

theorem tellings_step (hpatient : w.Patient) (hpaced : w.control.Paced) {a : Act F}
    (hcaller : ∀ e, a = .take e → e.caller ≠ some c) (ha : ∀ meanwhile, a ≠ .frame meanwhile) :
    (w.step a).tellings c =
      w.tellings c + if (w.step a).status.endsSteps then w.waiting.count c else 0 := by
  cases a with
  | take e => exact w.tellings_handle (hcaller e rfl)
  | poll => exact tellings_poll hpatient hpaced
  | frame meanwhile => exact absurd rfl (ha meanwhile)
  | outside o =>
    obtain ⟨hkeeps, notices, hcontrol, -⟩ := w.keeps_outside o
    have hstatus : (w.outside o).status = w.status := congrArg Control.status hcontrol
    show (w.outside o).tellings c = _ + if (w.outside o).status.endsSteps then _ else _
    rw [hkeeps.tellings c, hstatus]
    -- whoever waits waits for a step that is to run
    cases hs : w.status with
    | frameStep => rfl
    | _ =>
      have hnone : w.waiting = [] := hpatient (by simp [hs])
      simp [hnone]
  | shutdown =>
    have hstatus : (w.step .shutdown).status = .exiting := w.done_shutdown.status
    rw [hstatus]
    let stopped : Worker F M :=
      { w.useIfAny .stop Machine.stop with
        machine := none, active := false, status := .exiting }.disableAudio
    have hstopped : stopped.tellings c = w.tellings c :=
      (w.aside_useIfAny .stop Machine.stop).toKeeps.tellings c
    exact (stopped.tellings_answerSteps_error .exiting).trans hstopped

/-! ## Frames -/

omit [Factory F M] in
theorem silent_moveAllOutput (w : Worker F M) : Adds Event.Silent w w.moveAllOutput := by
  unfold moveAllOutput
  split
  · exact .of_eq rfl
  · exact (aside_moveOutput _ w).adds

omit [Factory F M] in
theorem framed_runs (w : Worker F M) (hmachine : w.machine.isSome = true)
    (meanwhile : List (Outside F)) : ∃ late boot input early,
      (w.framed meanwhile).journal = late ++ .called boot (.runFrame input) :: (early ++ w.journal) := by
  obtain ⟨i, hi⟩ := Option.isSome_iff_exists.mp hmachine
  let begun := (w.beginFrame i).2.outsideAll meanwhile
  let input := (w.beginFrame i).1
  have hbegun : Keeps w begun :=
    (w.aside_beginFrame i).toKeeps.trans ((w.beginFrame i).2.keeps_outsideAll meanwhile).1
  obtain ⟨early, hearly, -⟩ := hbegun.adds
  obtain ⟨j, hj⟩ := Option.isSome_iff_exists.mp (hbegun.booted hmachine)
  let ran := (begun.use j (fun _ => .runFrame input) (Machine.runFrame · input)).2
  obtain ⟨late, hlate, -⟩ := ran.silent_moveAllOutput
  have hran : ran.journal = ((Machine.runFrame j.machine input).requests.map
      (Event.requested j.boot)).reverse ++ .called j.boot (.runFrame input) :: begun.journal :=
    journal_receiveAll _ j.boot _
  have hended : (w.framed meanwhile).journal = ran.moveAllOutput.journal := by
    rw [framed_of_machine hi hj]
  exact ⟨_, j.boot, input, early, by rw [hended, hlate, hran, hearly, List.append_assoc]⟩

omit [Machine M] [Factory F M] in
theorem journal_settleFrame (w : Worker F M) :
    ∃ told, w.settleFrame.journal = told ++ w.journal ∧ told.length ≤ 1 := by
  by_cases hstep : w.status = .frameStep
  · rw [settleFrame_of_step hstep]
    cases w.waiting.head? with
    | none => exact ⟨[], rfl, by simp⟩
    | some d => exact ⟨[_], rfl, by simp⟩
  · refine ⟨[], ?_, by simp⟩
    unfold settleFrame
    rw [if_neg hstep]
    rfl

omit [Factory F M] in
/-- Whoever is told at the end of a frame is told after it. -/
theorem frame_before_answer (hmachine : w.machine.isSome = true) {meanwhile : List (Outside F)}
    {shown : Shown} {before after : List Event}
    (h : (w.frameWith meanwhile).journal =
      after ++ .answered c (.ok ()) shown :: (before ++ w.journal)) :
    ∃ boot input, .called boot (.runFrame input) ∈ before := by
  rw [frameWith_framed] at h
  split at h
  · obtain ⟨late, boot, input, early, hframed⟩ := w.framed_runs hmachine meanwhile
    obtain ⟨added, hadded, hsilent⟩ := (w.keeps_framed meanwhile).1.adds
    obtain ⟨told, htold, hlength⟩ := (w.framed meanwhile).journal_settleFrame
    have hruns : .called boot (.runFrame input) ∈ added := by
      have hsplit : added = late ++ .called boot (.runFrame input) :: early :=
        List.append_cancel_right (by rw [← hadded, hframed, List.append_assoc, List.cons_append])
      rw [hsplit]
      simp
    have hunsaid : .answered c (.ok ()) shown ∉ added := fun hmem => hsilent _ hmem
    have hsame : told ++ added = after ++ .answered c (.ok ()) shown :: before := by
      refine List.append_cancel_right (?_ : told ++ added ++ w.journal = _ ++ w.journal)
      rw [List.append_assoc, ← hadded, ← htold, h, List.append_assoc, List.cons_append]
    refine ⟨boot, input, ?_⟩
    rcases told with - | ⟨d, - | ⟨d', told⟩⟩
    · refine absurd ?_ hunsaid
      change added = _ at hsame
      simp [hsame]
    · rcases after with - | ⟨e, after⟩
      · obtain ⟨-, hbefore⟩ := List.cons.inj hsame
        rwa [← show added = before from hbefore]
      · obtain ⟨-, hrest⟩ := List.cons.inj hsame
        refine absurd ?_ hunsaid
        change added = after ++ _ at hrest
        simp [hrest]
    · simp at hlength
  · -- nothing happens, and nobody is told anything
    have hlength := congrArg List.length h
    simp at hlength
    omega

/-! ## Steps that are called off -/

/-- A step of a run tells a caller that all went well, while there is a machine and no frame of it was
executed since some worker was at work. -/
def AnswersUnrun (w : Worker F M) (c : Caller) (since : Worker F M) (a : Act F) : Prop :=
  w.machine.isSome = true ∧ Adds NoFrame since w ∧ ∃ before shown after,
    (w.step a).journal = after ++ .answered c (.ok ()) shown :: (before ++ w.journal) ∧
      ∀ e ∈ before, NoFrame e

/-- A step of a run other than a frame takes the worker out of its step while a caller waits for that,
and there is a machine of which no frame was executed since. -/
def CallsOff (w : Worker F M) (c : Caller) (since : Worker F M) (a : Act F) : Prop :=
  w.machine.isSome = true ∧ Adds NoFrame since w ∧ c ∈ w.waiting ∧
    (∀ meanwhile, a ≠ .frame meanwhile) ∧ (w.step a).status.endsSteps = true

theorem answersUnrun_iff (since : Worker F M) (hpatient : w.Patient)
    (hpaced : w.control.Paced) {a : Act F}
    (hcaller : ∀ e, a = .take e → e.caller ≠ some c) :
    w.AnswersUnrun c since a ↔ w.CallsOff c since a := by
  constructor
  · rintro ⟨hmachine, hquiet, before, shown, after, hjournal, hbefore⟩
    have ha : ∀ meanwhile, a ≠ .frame meanwhile := by
      rintro meanwhile rfl
      obtain ⟨boot, input, hmem⟩ := frame_before_answer hmachine hjournal
      exact hbefore _ hmem boot input rfl
    have htold : w.tellings c < (w.step a).tellings c := by
      unfold tellings
      rw [hjournal, List.countP_append, List.countP_cons, List.countP_append]
      simp only [Event.tells, decide_true, if_true]
      omega
    rw [tellings_step hpatient hpaced hcaller ha] at htold
    split at htold
    · next hends =>
      refine ⟨hmachine, hquiet, ?_, ha, hends⟩
      exact List.count_pos_iff.mp (by omega)
    · omega
  · rintro ⟨hmachine, hquiet, hwaits, ha, hends⟩
    have htold := tellings_step hpatient hpaced hcaller ha
    have hcount : 0 < w.waiting.count c := List.count_pos_iff.mpr hwaits
    obtain ⟨added, hadded, hnoFrame⟩ := w.adds_noFrame_step ha
    have hsome : 0 < added.countP (Event.tells c) := by
      rw [if_pos hends] at htold
      unfold tellings at htold
      rw [hadded, List.countP_append] at htold
      omega
    obtain ⟨e, he, htells⟩ := List.countP_pos_iff.mp hsome
    obtain ⟨after, before, hsplit⟩ := List.append_of_mem he
    have hbefore : ∀ f ∈ before, NoFrame f := fun f hf => hnoFrame f (by simp [hsplit, hf])
    cases e with
    | answered d reply shown =>
      cases reply with
      | ok _ =>
        obtain rfl : d = c := of_decide_eq_true htells
        refine ⟨hmachine, hquiet, before, shown, after, ?_, hbefore⟩
        rw [hadded, hsplit, List.append_assoc, List.cons_append]
      | error e => cases htells
    | _ => cases htells

/-- **A step is answered without its frame exactly when it is called off.** Take any point of a run at
which a caller's frame step is taken, and any point after that. With a machine installed, what happens
next tells the caller that the step is over although no frame was executed since the step was taken, if
and only if the caller still waits, no frame was executed yet, and a command, a hotkey or a wish to be
stopped now leaves the worker running or paused. -/
theorem answered_unrun_iff_called_off (id : Nat) (factory : F) (world : World)
    (cartSave firmwareSave : Option Path) (audio : Pipeline) (mic : MicInput)
    (early before : List (Act F)) (hshutdown : .shutdown ∉ early ++ before) (a : Act F) (c : Caller)
    (hcaller : ∀ e, a = .take e → e.caller ≠ some c) :
    let w : Worker F M := .new id factory world cartSave firmwareSave audio mic
    let stepped := (w.run early).handle ⟨.frameStep, some c⟩
    (stepped.run before).AnswersUnrun c stepped a ↔ (stepped.run before).CallsOff c stepped a := by
  intro w stepped
  let acts := early ++ .take ⟨.frameStep, some c⟩ :: before
  have hrun : stepped.run before = w.run acts :=
    (w.run_append early (.take ⟨.frameStep, some c⟩ :: before)).symm
  have hnew : w.Accounted [] := ⟨[], Accounts.empty⟩
  have hpatient : (w.run acts).Patient := (accounted_run hnew (fun _ => rfl) acts).2
  have hacts : .shutdown ∉ acts := by
    intro h
    rcases List.mem_append.mp h with h | h
    · exact hshutdown (List.mem_append_left _ h)
    · cases h with
      | tail _ h => exact hshutdown (List.mem_append_right _ h)
  have hpaced : (w.run acts).control.Paced :=
    paced_run (paced_new id factory world cartSave firmwareSave audio mic) hacts
  rw [hrun]
  exact answersUnrun_iff stepped hpatient hpaced hcaller

/-- A step that nothing calls off is over after its frame. -/
theorem answered_unrun_iff_of_frame :
    let w : Worker ScriptFactory ScriptMachine := (rehearsal {} (.empty [])).run
      [.take ⟨.bootFirmware, none⟩, .take ⟨.run, none⟩]
    let stepped := w.handle ⟨.frameStep, some 1⟩
    replyTo? 1 (stepped.step (.frame [])).journal = some (.ok ()) ∧
      ¬stepped.AnswersUnrun 1 stepped (.frame []) := by
  intro w stepped
  have hiff := answered_unrun_iff_called_off 0 (⟨{}, false⟩ : ScriptFactory) ⟨.empty [], {}, 0⟩ none none
    (.new 0 {} {} {}) (.new (.empty []) .silence none)
    [.take ⟨.bootFirmware, none⟩, .take ⟨.run, none⟩] [] (by simp) (.frame []) 1 nofun
  exact ⟨by decide, fun h => (hiff.mp h).2.2.2.1 [] rfl⟩

/-- A step and the command to run in one batch: the step is over before any frame. -/
theorem step_answered_before_frame :
    let w : Worker ScriptFactory ScriptMachine := (rehearsal {} (.empty [])).run
      [.take ⟨.bootFirmware, none⟩, .take ⟨.run, none⟩]
    let v := w.run [.take ⟨.frameStep, some 1⟩, .take ⟨.run, none⟩]
    replyTo? 1 v.journal = some (.ok ()) ∧ v.machine.isSome = true ∧ v.frames = 0 := by
  decide

end Worker

end Handheld
