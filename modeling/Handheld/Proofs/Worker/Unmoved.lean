import Handheld.Proofs.Worker.Steering
import Handheld.Proofs.Worker.Lockstep

/-!
# What no step of a worker moves

A worker does not change its id, the mute policy it shares or whose sound it plays, and when it looks at
the policy again, its sound is muted as that says (`Compliant`). It samples the hotkeys in a poll and in
no other step (`Unmoved`, `edges_step`).
-/

namespace Handheld

namespace Worker

variable {F M : Type} {u v w : Worker F M}

/-- The id, the shared mute policy and whose sound it is are the same, and the sound is muted as it was
or as the policy says. -/
structure Compliant (w v : Worker F M) : Prop where
  id : v.id = w.id
  mute : v.world.mute = w.world.mute
  owner : v.audio.instanceId = w.audio.instanceId
  muted : v.audio.muted = w.audio.muted ∨ v.audio.muted = w.world.mute.isMuted w.audio.instanceId

theorem Compliant.trans (huv : Compliant u v) (hvw : Compliant v w) : Compliant u w where
  id := hvw.id.trans huv.id
  mute := hvw.mute.trans huv.mute
  owner := hvw.owner.trans huv.owner
  muted := by
    rcases hvw.muted with h | h
    · rw [h]
      exact huv.muted
    · rw [h, huv.mute, huv.owner]
      exact .inr rfl

theorem Compliant.of_eq (hid : v.id = w.id) (hmute : v.world.mute = w.world.mute)
    (haudio : v.audio = w.audio) : Compliant w v where
  id := hid
  mute := hmute
  owner := by rw [haudio]
  muted := .inl (by rw [haudio])

theorem Compliant.refl (w : Worker F M) : Compliant w w := .of_eq rfl rfl rfl

/-- Besides, no hotkey is sampled and the input is left as it is. -/
structure Unmoved (w v : Worker F M) : Prop extends Compliant w v where
  edges : v.edges = w.edges
  input : v.input = w.input

theorem Unmoved.trans (huv : Unmoved u v) (hvw : Unmoved v w) : Unmoved u w where
  toCompliant := huv.toCompliant.trans hvw.toCompliant
  edges := hvw.edges.trans huv.edges
  input := hvw.input.trans huv.input

theorem Unmoved.of_eq (hid : v.id = w.id) (hedges : v.edges = w.edges) (hinput : v.input = w.input)
    (hmute : v.world.mute = w.world.mute) (haudio : v.audio = w.audio) : Unmoved w v :=
  ⟨.of_eq hid hmute haudio, hedges, hinput⟩

theorem Unmoved.refl (w : Worker F M) : Unmoved w w := .of_eq rfl rfl rfl rfl rfl

/-! ## Steering -/

theorem unmoved_goLive (w : Worker F M) : Unmoved w w.goLive := ⟨⟨rfl, rfl, rfl, .inr rfl⟩, rfl, rfl⟩

theorem unmoved_pause (w : Worker F M) : Unmoved w w.pause := by
  unfold pause
  dsimp only
  split
  · exact .of_eq rfl rfl rfl rfl rfl
  · split
    · exact .of_eq rfl rfl rfl rfl rfl
    · exact ⟨⟨rfl, rfl, rfl, .inr rfl⟩, rfl, rfl⟩

theorem unmoved_unpause (w : Worker F M) : Unmoved w w.unpause := by
  unfold unpause
  split
  · exact .of_eq rfl rfl rfl rfl rfl
  · dsimp only
    split
    · exact .of_eq rfl rfl rfl rfl rfl
    · exact ⟨⟨rfl, rfl, rfl, .inr rfl⟩, rfl, rfl⟩

theorem unmoved_frameStep (w : Worker F M) : Unmoved w w.frameStep := by
  have hpaused : Unmoved w (if w.pauses.depth = 0 then w.pause else w) := by
    split
    · exact w.unmoved_pause
    · exact .refl w
  exact hpaused.trans (.of_eq rfl rfl rfl rfl rfl)

theorem unmoved_halt (w : Worker F M) : Unmoved w w.halt := ⟨⟨rfl, rfl, rfl, .inl rfl⟩, rfl, rfl⟩

theorem unmoved_exit (w : Worker F M) : Unmoved w w.exit := ⟨⟨rfl, rfl, rfl, .inl rfl⟩, rfl, rfl⟩

theorem unmoved_settle (w : Worker F M) : Unmoved w w.settle := by
  obtain ⟨_, _, _, h⟩ := w.settle_eq
  rw [h]
  exact .of_eq rfl rfl rfl rfl rfl

theorem unmoved_respond (w : Worker F M) (c : Option Caller) (r : Reply) :
    Unmoved w (w.respond c r) := by
  cases c <;> exact .of_eq rfl rfl rfl rfl rfl

theorem unmoved_settleFrame (w : Worker F M) : Unmoved w w.settleFrame := by
  by_cases h : w.status = .frameStep
  · let rested : Worker F M :=
      { w with
        status := if w.waiting.length ≤ 1 then .paused else .frameStep
        waiting := w.waiting.tail }.publish
    have hrested : Unmoved w rested := .of_eq rfl rfl rfl rfl rfl
    rw [settleFrame_of_step h]
    exact hrested.trans (rested.unmoved_respond _ _)
  · rw [settleFrame, if_neg h]
    exact .of_eq rfl rfl rfl rfl rfl

/-! ## Saves -/

theorem unmoved_flush (w : Worker F M) (kind : SaveKind) : Unmoved w (w.outside (.flush kind)) := by
  have hnote : ∀ (kind : SaveKind) (write : Option SaveWrite), Unmoved w (w.noteWrite kind write) := by
    intro kind write
    cases write <;> exact .of_eq rfl rfl rfl rfl rfl
  cases kind with
  | cart => exact (hnote .cart _).trans (.of_eq rfl rfl rfl rfl rfl)
  | firmware => exact (hnote .firmware _).trans (.of_eq rfl rfl rfl rfl rfl)

theorem unmoved_retarget (w : Worker F M) (path : Option Path) : Unmoved w (w.retarget path) :=
  (w.unmoved_flush .cart).trans (.of_eq rfl rfl rfl rfl rfl)

theorem unmoved_writeFile (w : Worker F M) (path : Path) (data : Bytes) :
    Unmoved w (w.writeFile path data).1 := by
  unfold writeFile
  split
  · exact .of_eq rfl rfl rfl rfl rfl
  · split <;> exact .of_eq rfl rfl rfl rfl rfl

/-! ## Calls on the machine -/

theorem unmoved_receiveAll (w : Worker F M) (boot : Nat) (requests : List Request) :
    Unmoved w (w.receiveAll boot requests) := by
  obtain ⟨_, _, _, _, h⟩ := w.receiveAll_eq boot requests
  rw [h]
  exact .of_eq rfl rfl rfl rfl rfl

theorem unmoved_use {α : Type} (w : Worker F M) (i : Installed M) (call : α → Call)
    (act : M → Outcome M α) : Unmoved w (w.use i call act).2 := by
  obtain ⟨_, _, _, _, _, h⟩ := w.use_eq i call act
  rw [h]
  exact .of_eq rfl rfl rfl rfl rfl

theorem unmoved_useIfAny (w : Worker F M) (call : Call) (act : M → Outcome M Unit) :
    Unmoved w (w.useIfAny call act) := by
  obtain ⟨_, _, _, _, _, h⟩ := w.useIfAny_eq call act
  rw [h]
  exact .of_eq rfl rfl rfl rfl rfl

variable [Machine M]

theorem unmoved_stop (w : Worker F M) (external : Bool) : Unmoved w (w.stop external) := by
  cases external with
  | false => exact w.unmoved_halt
  | true => exact (w.unmoved_useIfAny .stop Machine.stop).trans (unmoved_halt _)

theorem unmoved_reset (w : Worker F M) : Unmoved w w.reset.1 := by
  unfold reset
  split
  · exact .refl w
  · next i _ =>
    have hlive := (w.unmoved_use i (fun _ => .reset) Machine.reset).trans (unmoved_goLive _)
    exact hlive.trans (.of_eq rfl rfl rfl rfl rfl)

theorem unmoved_saveState (w : Worker F M) (path : Path) : Unmoved w (w.saveState path).1 := by
  unfold saveState
  split
  · exact .refl w
  · next i _ =>
    have htaken : Unmoved w (w.takeState i).2 := w.unmoved_use i _ _
    unfold takeState at htaken ⊢
    rw [use_answer]
    cases (Machine.saveState i.machine).answer with
    | error e => exact htaken
    | ok data => exact htaken.trans (unmoved_writeFile _ path data)

theorem unmoved_giveState (w : Worker F M) (data : Bytes) : Unmoved w (w.giveState data).1 := by
  unfold giveState
  split
  · exact .refl w
  · next i _ =>
    have hused := w.unmoved_use i (fun _ => .loadState data) (Machine.loadState · data)
    rw [use_answer]
    cases (Machine.loadState i.machine data).answer <;> exact hused

theorem unmoved_loadState (w : Worker F M) (path : Path) : Unmoved w (w.loadState path).1 := by
  unfold loadState
  split
  · exact .refl w
  · next i _ =>
    have hbackup : Unmoved w (if w.active then w.takeBackup i else w) := by
      split
      · have htaken := w.unmoved_use i Call.saveState Machine.saveState
        unfold takeBackup takeState
        rw [use_answer]
        cases (Machine.saveState i.machine).answer <;> exact htaken.trans (.of_eq rfl rfl rfl rfl rfl)
      · exact .refl w
    dsimp only
    split
    · exact hbackup
    · exact hbackup.trans (unmoved_giveState _ _)

theorem unmoved_undoLoad (w : Worker F M) : Unmoved w w.undoLoad.1 := by
  unfold undoLoad
  split
  · exact .refl w
  · exact .refl w
  · next b _ _ =>
    let cleared : Worker F M := { w with backup := none }
    have hcleared : Unmoved w cleared := .of_eq rfl rfl rfl rfl rfl
    have hgiven : Unmoved w (cleared.giveState b.data).1 :=
      hcleared.trans (cleared.unmoved_giveState b.data)
    split
    · next v e hv => rwa [show _ = v from congrArg Prod.fst hv] at hgiven
    · next v hv =>
      rw [show _ = v from congrArg Prod.fst hv] at hgiven
      split
      · exact hgiven.trans (.of_eq rfl rfl rfl rfl rfl)
      · exact hgiven

theorem unmoved_importSave (w : Worker F M) (path : Path) : Unmoved w (w.importSave path).1 := by
  unfold importSave
  split
  · exact .refl w
  · next i _ =>
    split
    · exact .refl w
    · next data _ =>
      have hused := w.unmoved_use i (fun _ => .importSave data) (Machine.importSave · data)
      rw [use_answer]
      cases (Machine.importSave i.machine data).answer <;> exact hused

theorem unmoved_insertCart (w : Worker F M) (paths : List Path) :
    Unmoved w (w.insertCart paths).1 := by
  unfold insertCart
  split
  · exact .refl w
  · next i _ =>
    split
    · exact .refl w
    · next rom _ =>
      have hused := (w.unmoved_retarget (some (cartSavePath rom.path w.id))).trans
        (unmoved_use _ i (fun _ => .insertCart rom) (Machine.insertCart · rom))
      dsimp only
      rw [use_answer]
      cases (Machine.insertCart i.machine rom).answer with
      | error e => exact hused.trans (.of_eq rfl rfl rfl rfl rfl)
      | ok _ => exact hused

theorem unmoved_ejectCart (w : Worker F M) : Unmoved w w.ejectCart :=
  (w.unmoved_useIfAny .ejectCart Machine.ejectCart).trans (unmoved_retarget _ none)

theorem unmoved_install (w : Worker F M) (i : Installed M) : Unmoved w (w.install i) := by
  have hstopped : Unmoved w { w.useIfAny .stop Machine.stop with backup := none } :=
    (w.unmoved_useIfAny .stop Machine.stop).trans (.of_eq rfl rfl rfl rfl rfl)
  exact hstopped.trans (unmoved_use _ i (fun _ => .start) Machine.start)

/-! ## Frames -/

theorem unmoved_beginFrame (w : Worker F M) (i : Installed M) : Unmoved w (w.beginFrame i).2 := by
  let heard := w.mic.nextFrame (w.edges.down .mic)
  have hheard : Unmoved w { w with mic := heard.2 } := .of_eq rfl rfl rfl rfl rfl
  exact hheard.trans (unmoved_use _ i (fun _ => .hearMic heard.1) (Machine.hearMic · heard.1))

theorem unmoved_moveOutput (reads : Nat) (w : Worker F M) : Unmoved w (w.moveOutput reads) := by
  induction reads generalizing w with
  | zero => exact .refl w
  | succ reads ih =>
    unfold moveOutput
    split
    · exact .refl w
    · next i _ =>
      split
      · exact .refl w
      · have hread := w.unmoved_use i (fun out => .readOutput outputChunk out.length)
          (Machine.readOutput · outputChunk)
        dsimp only
        split
        · exact hread
        · refine (hread.trans ?_).trans (ih _)
          exact ⟨⟨rfl, rfl, rfl, .inl rfl⟩, rfl, rfl⟩

theorem unmoved_endFrame (w : Worker F M) (input : FrameInput) : Unmoved w (w.endFrame input) := by
  unfold endFrame
  split
  · exact .refl w
  · next i _ =>
    let ran := (w.use i (fun _ => .runFrame input) (Machine.runFrame · input)).2
    have hmoved : Unmoved ran ran.moveAllOutput := by
      unfold moveAllOutput
      split
      · exact .refl ran
      · exact unmoved_moveOutput _ ran
    exact ((w.unmoved_use i _ _).trans hmoved).trans (.of_eq rfl rfl rfl rfl rfl)

/-! ## Polls and commands -/

omit [Machine M] in
theorem Unmoved.onPress (h : Unmoved w v) (k : Hotkey) {act : Worker F M → Worker F M}
    (hact : ∀ u, Unmoved u (act u)) : Unmoved w (v.onPress k act) := by
  unfold Worker.onPress
  split
  · exact h.trans (hact v)
  · exact h

omit [Machine M] in
theorem unmoved_togglePause (w : Worker F M) : Unmoved w w.togglePause := by
  unfold togglePause
  split
  · exact w.unmoved_unpause
  · exact w.unmoved_pause

theorem unmoved_pressPower (w : Worker F M) : Unmoved w w.pressPower := by
  unfold pressPower
  split
  · exact w.unmoved_stop true
  · exact .refl w

omit [Machine M] in
theorem unmoved_changeVolume (up : Bool) (w : Worker F M) : Unmoved w (w.changeVolume up) :=
  ⟨⟨rfl, rfl, rfl, .inl rfl⟩, rfl, rfl⟩

theorem unmoved_actOnHotkeys (w : Worker F M) : Unmoved w w.actOnHotkeys := by
  have hsteered := ((((Unmoved.refl w).onPress .pause unmoved_togglePause).onPress .reset
    unmoved_reset).onPress .powerButton unmoved_pressPower).onPress .frameStep unmoved_frameStep
  have hfast : ∀ u : Worker F M, Unmoved u u.updateFastForward := fun u => .of_eq rfl rfl rfl rfl rfl
  have hlouder := (hsteered.trans (hfast _)).onPress .volumeUp (unmoved_changeVolume true)
  have hvolume := hlouder.onPress .volumeDown (unmoved_changeVolume false)
  exact hvolume.trans (unmoved_settle _)

theorem unmoved_poll (w : Worker F M) : Unmoved w.sampleHotkeys w.poll := by
  have hpolled : Unmoved w.sampleHotkeys w.pollHotkeys := by
    unfold pollHotkeys
    dsimp only
    split
    · exact .refl _
    · exact unmoved_actOnHotkeys _
  have htaken : ∀ u : Worker F M, Unmoved u u.takeStop := by
    intro u
    let heard : Worker F M := { u with stopRequested := false }
    have hheard : Unmoved u heard := .of_eq rfl rfl rfl rfl rfl
    unfold takeStop
    split
    · exact (hheard.trans (heard.unmoved_stop false)).trans (unmoved_settle _)
    · exact .refl u
  exact hpolled.trans (htaken _)

theorem unmoved_shutdown (w : Worker F M) : Unmoved w w.shutdown := by
  let ended : Worker F M :=
    { w.useIfAny .stop Machine.stop with machine := none, active := false, status := .exiting }.disableAudio
  have hended : Unmoved w ended :=
    (w.unmoved_useIfAny .stop Machine.stop).trans ⟨⟨rfl, rfl, rfl, .inl rfl⟩, rfl, rfl⟩
  obtain ⟨journal, h⟩ := ended.answerSteps_eq (.error .exiting)
  have hanswered : Unmoved ended (ended.answerSteps (.error .exiting)) := by
    rw [h]
    exact .of_eq rfl rfl rfl rfl rfl
  exact (hended.trans hanswered).trans (.of_eq rfl rfl rfl rfl rfl)

variable [Factory F M]

theorem unmoved_boot (w : Worker F M) (rom : Option Rom) (savePath : Option Path) :
    Unmoved w (w.boot rom savePath).1 := by
  have hasked : ∀ b : Boot F M, Unmoved w (w.asked rom savePath b) := by
    intro b
    let told : Worker F M :=
      { (w.retarget savePath).note (.asked w.boots rom) with boots := w.boots + 1, factory := b.factory }
    have htold : Unmoved w told := (w.unmoved_retarget savePath).trans (.of_eq rfl rfl rfl rfl rfl)
    exact htold.trans (told.unmoved_receiveAll w.boots b.requests)
  rw [boot_eq]
  split
  · exact (hasked _).trans (unmoved_install _ _)
  · exact (hasked _).trans (.of_eq rfl rfl rfl rfl rfl)

theorem unmoved_apply (w : Worker F M) (c : Command) : Unmoved w (w.apply c).1 := by
  cases c with
  | run => exact w.unmoved_goLive
  | pause => exact w.unmoved_pause
  | unpause => exact w.unmoved_unpause
  | stop external => exact w.unmoved_stop external
  | frameStep => exact w.unmoved_frameStep
  | reset => exact w.unmoved_reset
  | exit => exact w.unmoved_exit
  | bootRom paths =>
    show Unmoved w (w.bootRom paths).1
    unfold bootRom
    split
    · exact .refl w
    · exact w.unmoved_boot _ _
  | bootFirmware => exact w.unmoved_boot none none
  | insertCart paths => exact w.unmoved_insertCart paths
  | ejectCart => exact w.unmoved_ejectCart
  | saveState path => exact w.unmoved_saveState path
  | loadState path => exact w.unmoved_loadState path
  | undoLoad => exact w.unmoved_undoLoad
  | importSave path => exact w.unmoved_importSave path
  | setCheats on => exact w.unmoved_useIfAny _ _

theorem unmoved_handle (w : Worker F M) (e : Envelope) : Unmoved w (w.handle e) := by
  have htaken : Unmoved w (w.note (.taken e)) := .of_eq rfl rfl rfl rfl rfl
  have happlied := htaken.trans (unmoved_apply _ e.command)
  have hqueued : ∀ (u : Worker F M) (waiting : List Caller), Unmoved u { u with waiting } :=
    fun u waiting => .of_eq rfl rfl rfl rfl rfl
  unfold handle serve
  dsimp only
  split
  · exact htaken.trans (unmoved_respond _ _ _)
  · split
    · exact (happlied.trans (hqueued _ _)).trans (unmoved_settle _)
    · exact (happlied.trans (unmoved_settle _)).trans (unmoved_respond _ _ _)

/-! ## Steps of a run -/

omit [Machine M] [Factory F M] in
theorem edges_outside (w : Worker F M) (o : Outside F) : (w.outside o).edges = w.edges := by
  cases o with
  | flush kind => exact (w.unmoved_flush kind).edges
  | _ => rfl

omit [Machine M] [Factory F M] in
theorem edges_outsideAll (w : Worker F M) (meanwhile : List (Outside F)) :
    (w.outsideAll meanwhile).edges = w.edges := by
  induction meanwhile generalizing w with
  | nil => rfl
  | cons o meanwhile ih => exact (ih (w.outside o)).trans (w.edges_outside o)

theorem edges_step (w : Worker F M) {a : Act F} (ha : a ≠ .poll) : (w.step a).edges = w.edges := by
  cases a with
  | take e => exact (w.unmoved_handle e).edges
  | poll => exact absurd rfl ha
  | frame meanwhile =>
    show (w.frameWith meanwhile).edges = w.edges
    have hframed : (w.framed meanwhile).edges = w.edges := by
      unfold framed
      split
      · rfl
      · next i _ =>
        rw [(unmoved_endFrame _ _).edges, edges_outsideAll, (w.unmoved_beginFrame i).edges]
    rw [frameWith_framed]
    split
    · rw [(unmoved_settleFrame _).edges, hframed]
    · rfl
  | outside o => exact w.edges_outside o
  | shutdown => exact w.unmoved_shutdown.edges

end Worker

end Handheld
