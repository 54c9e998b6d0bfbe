import Handheld.Proofs.Worker.Runs

/-!
# Exiting

A worker that is exiting carries out nothing any more and answers every command with an error. One
thing still gets through: a wish to be stopped is taken at the next poll whatever the status is, and
leaves the worker paused. `exiting_for_good_iff` says that nothing else does; `Done` is what the steps
that keep the status keep besides.
-/

namespace Handheld

namespace Worker

variable {F M : Type}

/-! ## What is outside -/

theorem outside_keeps (w : Worker F M) (o : Outside F) :
    (w.outside o).status = w.status ∧ (w.outside o).frames = w.frames := by
  have hnote : ∀ (kind : SaveKind) (write : Option SaveWrite),
      (w.noteWrite kind write).status = w.status ∧ (w.noteWrite kind write).frames = w.frames := by
    intro kind write
    cases write <;> exact ⟨rfl, rfl⟩
  cases o with
  | flush kind =>
    cases kind with
    | cart => exact hnote .cart _
    | firmware => exact hnote .firmware _
  | _ => exact ⟨rfl, rfl⟩

variable [Machine M]

theorem status_takeStop {w : Worker F M} (h : w.stopRequested = true) :
    w.takeStop.status = .paused := by
  rw [takeStop, if_pos h, status_settle]
  rfl

/-! ## Steps while exiting -/

def NoFrame (e : Event) : Prop := ∀ boot input, e ≠ .called boot (.runFrame input)

/-- Still exiting, and no frame was executed on the way. -/
structure Done (w v : Worker F M) : Prop where
  status : v.status = .exiting
  frames : v.frames = w.frames
  adds : Adds NoFrame w v

omit [Machine M] in
theorem Done.trans {u v w : Worker F M} (huv : Done u v) (hvw : Done v w) : Done u w :=
  ⟨hvw.status, hvw.frames.trans huv.frames, huv.adds.trans hvw.adds⟩

omit [Machine M] in
theorem done_outside {w : Worker F M} (h : w.status = .exiting) (o : Outside F) :
    Done w (w.outside o) where
  status := (w.outside_keeps o).1.trans h
  frames := (w.outside_keeps o).2
  adds := w.adds_outside o (by simp [NoFrame])

theorem frameWith_of_exiting {w : Worker F M} (h : w.status = .exiting)
    (meanwhile : List (Outside F)) : w.frameWith meanwhile = w := by
  simp [frameWith, h, Status.runsFrame]

theorem poll_of_exiting {w : Worker F M} (h : w.status = .exiting) :
    w.poll = w.sampleHotkeys.takeStop := by
  have hsample : w.sampleHotkeys.status = .exiting := h
  simp [poll, pollHotkeys, hsample]

theorem done_poll {w : Worker F M} (h : w.status = .exiting) (hstop : w.stopRequested = false) :
    Done w w.poll := by
  have hpoll : w.poll = w.sampleHotkeys := by
    have hsample : w.sampleHotkeys.stopRequested = false := hstop
    rw [poll_of_exiting h, takeStop, hsample]
    rfl
  rw [hpoll]
  exact ⟨h, rfl, .of_eq rfl⟩

theorem done_shutdown (w : Worker F M) : Done w w.shutdown := by
  let stopped : Worker F M :=
    { w.useIfAny .stop Machine.stop with
      machine := none, active := false, status := .exiting }.disableAudio
  have hframes : stopped.frames = w.frames := by
    obtain ⟨machine, cart, firmware, stopRequested, journal, h⟩ := w.useIfAny_eq .stop Machine.stop
    show (w.useIfAny .stop Machine.stop).frames = w.frames
    rw [h]
  have hadds : Adds NoFrame w stopped :=
    (w.adds_useIfAny .stop Machine.stop (by simp [NoFrame]) (by simp [NoFrame])).trans (.of_eq rfl)
  have hsteps : Adds NoFrame stopped (stopped.answerSteps (.error .exiting)) :=
    stopped.adds_answerSteps _ (by simp [NoFrame])
  obtain ⟨journal, h⟩ := stopped.answerSteps_eq (.error .exiting)
  have hshutdown : w.shutdown = { stopped with waiting := [], journal }.publish := by
    rw [← h]
    rfl
  have hjournal : (stopped.answerSteps (.error .exiting)).journal = w.shutdown.journal := rfl
  refine ⟨?_, ?_, (hadds.trans hsteps).trans (.of_eq hjournal.symm)⟩
  · rw [hshutdown]
    rfl
  · rw [hshutdown]
    exact hframes

variable [Factory F M]

theorem handle_of_exiting {w : Worker F M} (h : w.status = .exiting) (e : Envelope) :
    w.handle e = (w.note (.taken e)).respond e.caller (.error .exiting) := by
  have hnote : (w.note (.taken e)).status = .exiting := h
  simp [handle, hnote]

theorem done_handle {w : Worker F M} (h : w.status = .exiting) (e : Envelope) :
    Done w (w.handle e) := by
  rw [handle_of_exiting h]
  refine ⟨?_, ?_, ?_⟩
  · cases e.caller <;> exact h
  · cases e.caller <;> rfl
  · refine (w.adds_note ?_).trans (adds_respond _ _ _ ?_)
    all_goals simp [NoFrame]

def FindsNoStop (w : Worker F M) (a : Act F) : Prop := a = .poll → w.stopRequested = false

theorem Done.step {w : Worker F M} (h : w.status = .exiting) (a : Act F) (hstop : w.FindsNoStop a) :
    Done w (w.step a) := by
  cases a with
  | take e => exact done_handle h e
  | poll => exact done_poll h (hstop rfl)
  | frame meanwhile =>
    show Done w (w.frameWith meanwhile)
    rw [frameWith_of_exiting h]
    exact ⟨h, rfl, .of_eq rfl⟩
  | outside o => exact done_outside h o
  | shutdown => exact w.done_shutdown

theorem Done.run {w : Worker F M} (h : w.status = .exiting) {acts : List (Act F)}
    (hstop : w.Along FindsNoStop acts) : Done w (w.run acts) := by
  induction acts generalizing w with
  | nil => exact ⟨h, rfl, .of_eq rfl⟩
  | cons a acts ih =>
    obtain ⟨hfirst, hrest⟩ := along_cons.mp hstop
    have hstep : Done w (w.step a) := Done.step h a hfirst
    exact hstep.trans (ih hstep.status hrest)

/-- **Exiting is for good, unless a stop is asked for.** From a worker that is exiting, the status
stays what it is along a run exactly if no poll finds a wish to be stopped. Then no frame is executed
either, and every command is answered with an error and leaves the worker as it is, but for its
journal. -/
theorem exiting_for_good_iff (w : Worker F M) (h : w.status = .exiting) (acts : List (Act F)) :
    ((∀ early, early <+: acts → (w.run early).status = .exiting) ↔ w.Along FindsNoStop acts) ∧
    (w.Along FindsNoStop acts →
      (w.run acts).frames = w.frames ∧ Adds NoFrame w (w.run acts) ∧
      ∀ early e late, acts = early ++ .take e :: late →
        w.run (early ++ [.take e]) =
          ((w.run early).note (.taken e)).respond e.caller (.error .exiting)) := by
  refine ⟨⟨fun hstay early a late hacts ha => ?_, fun hstop early hearly => ?_⟩, fun hstop => ?_⟩
  · subst ha
    have hbefore : (w.run early).status = .exiting := hstay early ⟨_, hacts.symm⟩
    have hafter : (w.run (early ++ [.poll])).status = .exiting :=
      hstay _ ⟨late, by rw [hacts]; simp⟩
    rw [run_concat] at hafter
    -- a poll that finds a wish to be stopped would have left the worker paused
    cases hstop : (w.run early).stopRequested with
    | false => rfl
    | true =>
      have hsample : (w.run early).sampleHotkeys.stopRequested = true := hstop
      have hpaused : ((w.run early).step .poll).status = .paused := by
        show (w.run early).poll.status = .paused
        rw [poll_of_exiting hbefore]
        exact status_takeStop hsample
      rw [hpaused] at hafter
      cases hafter
  · obtain ⟨late, rfl⟩ := hearly
    exact (Done.run h hstop.of_append).status
  · have hdone := Done.run h hstop
    refine ⟨hdone.frames, hdone.adds, fun early e late hacts => ?_⟩
    subst hacts
    rw [run_concat]
    exact handle_of_exiting (Done.run h hstop.of_append).status e

/-- A poll and a command after the exit. -/
theorem exiting_for_good_when_idle :
    let w := (rehearsal {} (.empty [])).run [.take ⟨.exit, none⟩]
    let v := w.run [.poll, .take ⟨.run, some 1⟩]
    w.status = .exiting ∧ v.status = .exiting ∧ v.frames = w.frames ∧
      replyTo? 1 v.journal = some (.error .exiting) := by
  intro w v
  have hstatus : w.status = .exiting := by decide
  have hstop : w.Along FindsNoStop [.poll, .take ⟨.run, some 1⟩] :=
    along_cons.mpr ⟨fun _ => by decide, along_cons.mpr ⟨nofun, along_nil _ _⟩⟩
  obtain ⟨hiff, hquiet⟩ := exiting_for_good_iff w hstatus [.poll, .take ⟨.run, some 1⟩]
  exact ⟨hstatus, hiff.mpr hstop _ (List.prefix_refl _), (hquiet hstop).1, by decide⟩

/-- The machine asks to be stopped in its first frame, and the exit comes right after that frame: the
next pass takes the worker out of its last state, and it runs again. -/
theorem exiting_ends_with_open_stop :
    let exited := (rehearsal { stopAt := 1 } (.empty [])).passes
      [[⟨.bootFirmware, none⟩, ⟨.run, none⟩], [⟨.exit, none⟩]]
    let later := exited.passes [[⟨.run, some 1⟩], []]
    exited.status = .exiting ∧ later.status = .running ∧ later.frames = exited.frames + 1 ∧
      replyTo? 1 later.journal = some (.ok ()) := by
  decide

end Worker

end Handheld
