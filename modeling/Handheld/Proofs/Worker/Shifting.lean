import Handheld.Proofs.Worker.Lockstep
import Handheld.Proofs.Worker.Standing

/-!
# What a step does to the standing

Every operation of a worker changes the standing in the ways of `Standing.Step`, and every step of a run
in those it has a license for (`shifts_step`). What a step has no license for it cannot have done.
-/

namespace Handheld

namespace Worker

variable {F M : Type} {may : License → Prop} {u v w : Worker F M}

theorem shifts_note (w : Worker F M) {e : Event} (h : e.Apart) : Shifts may w (w.note e) :=
  .single (.enter h)

/-! ## Calls -/

theorem standing_receive (w : Worker F M) (boot : Nat) (q : Request) :
    (receive boot w q).standing =
      { w.standing.enter (.requested boot q) with
        stopRequested := w.stopRequested || decide (q = .stop) } := by
  cases q <;> simp [receive, standing, Standing.enter, note, installedBoot]

theorem fresh_receiveAll {b : Nat} (h : w.standing.Fresh b) (boot : Nat) (requests : List Request) :
    (w.receiveAll boot requests).standing.Fresh b := by
  induction requests generalizing w with
  | nil => exact h
  | cons q requests ih =>
    refine ih ?_
    rw [standing_receive]
    refine ⟨h.boots, h.boot, fun call hmem => ?_⟩
    rcases List.mem_cons.mp hmem with heq | hmem
    · cases heq
    · exact h.uncalled call hmem

theorem shifts_receiveAll (w : Worker F M) {boot : Nat}
    (h : w.installedBoot = some boot ∨ w.standing.Fresh boot) (requests : List Request) :
    Shifts may w (w.receiveAll boot requests) := by
  induction requests generalizing w with
  | nil => exact .of_eq rfl
  | cons q requests ih =>
    have hstep : Shifts may w (receive boot w q) := by
      refine .single ?_
      rw [standing_receive]
      exact .request q h
    refine hstep.trans (ih _ ?_)
    rcases h with hboot | hfresh
    · exact .inl (by cases q <;> exact hboot)
    · exact .inr (fresh_receiveAll hfresh boot [q])

theorem shifts_use {α : Type} {i : Installed M} (hi : w.machine = some i) (call : α → Call)
    (hcall : ∀ answer, call answer ≠ .start) (act : M → Outcome M α) :
    Shifts may w (w.use i call act).2 := by
  have hboot : w.installedBoot = some i.boot := congrArg (Option.map Installed.boot) hi
  let called : Worker F M :=
    { w with machine := some { i with machine := (act i.machine).machine } }.note
      (.called i.boot (call (act i.machine).answer))
  have hstanding : called.standing =
      w.standing.enter (.called i.boot (call (act i.machine).answer)) := by
    show (⟨some i.boot, _, _, _, _, _, _⟩ : Standing) = _
    rw [← hboot]
    rfl
  have hnote : Shifts may w called := by
    refine .single ?_
    rw [hstanding]
    exact .call hboot (hcall _)
  exact hnote.trans (called.shifts_receiveAll (.inl rfl) (act i.machine).requests)

theorem shifts_useIfAny (w : Worker F M) (call : Call) (hcall : call ≠ .start)
    (act : M → Outcome M Unit) : Shifts may w (w.useIfAny call act) := by
  unfold useIfAny
  split
  · exact .of_eq rfl
  · next i hi => exact shifts_use hi _ (fun _ => hcall) act

/-! ## Calls in the journal -/

def NoCall (e : Event) : Prop := ∀ boot call, e ≠ .called boot call

theorem calls_of_adds (h : Adds NoCall w v) : calls v.journal = calls w.journal := by
  refine h.filterMap_eq fun e he => ?_
  cases e with
  | called boot call => exact absurd rfl (he boot call)
  | _ => rfl

theorem calls_use {α : Type} (w : Worker F M) (i : Installed M) (call : α → Call)
    (act : M → Outcome M α) : calls (w.use i call act).2.journal =
      (i.boot, call (act i.machine).answer) :: calls w.journal := by
  let called : Worker F M :=
    { w with machine := some { i with machine := (act i.machine).machine } }.note
      (.called i.boot (call (act i.machine).answer))
  have hreceived : Adds NoCall called (called.receiveAll i.boot (act i.machine).requests) := by
    refine ⟨_, called.journal_receiveAll i.boot (act i.machine).requests, fun e he => ?_⟩
    obtain ⟨q, -, rfl⟩ := List.mem_map.mp (List.mem_reverse.mp he)
    exact nofun
  exact calls_of_adds hreceived

theorem calls_settle_respond (w : Worker F M) (c : Option Caller) (r : Reply) :
    calls (w.settle.respond c r).journal = calls w.journal := by
  have hanswered : ∀ (d : Caller) (r : Reply) (shown : Shown), NoCall (.answered d r shown) :=
    fun d r shown boot call => nofun
  exact calls_of_adds ((w.adds_settle (hanswered · ·)).trans (adds_respond _ c r (hanswered · r)))

theorem installedBoot_use {α : Type} (w : Worker F M) (i : Installed M) (call : α → Call)
    (act : M → Outcome M α) : (w.use i call act).2.installedBoot = some i.boot :=
  congrArg (Option.map Installed.boot) (w.machine_use i call act)

theorem installedBoot_useIfAny (w : Worker F M) (call : Call) (act : M → Outcome M Unit) :
    (w.useIfAny call act).installedBoot = w.installedBoot := by
  unfold useIfAny
  split
  · rfl
  · next i hi =>
    have hboot : w.installedBoot = some i.boot := congrArg (Option.map Installed.boot) hi
    exact (w.installedBoot_use i (fun _ => call) act).trans hboot.symm

theorem halted_useIfAny (w : Worker F M) (act : M → Outcome M Unit) :
    (w.useIfAny .stop act).standing.Halted := by
  intro b hb
  unfold useIfAny at hb ⊢
  split at hb
  · next hnone =>
    have hgone : w.installedBoot = none := congrArg (Option.map Installed.boot) hnone
    exact absurd (hgone.symm.trans hb) nofun
  · next i _ =>
    obtain rfl := Option.some.inj ((w.installedBoot_use i (fun _ => .stop) act).symm.trans hb)
    show (callsTo i.boot (w.use i (fun _ => .stop) act).2.journal).head? = some .stop
    simp [callsTo, calls_use]

/-! ## Saves -/

theorem shifts_noteWrite (w : Worker F M) (kind : SaveKind) (write : Option SaveWrite) :
    Shifts may w (w.noteWrite kind write) := by
  cases write with
  | none => exact .of_eq rfl
  | some s => exact w.shifts_note trivial

theorem shifts_flushCart (w : Worker F M) : Shifts may w w.flushCart.2 :=
  (w.shifts_noteWrite .cart _).trans (.of_eq rfl)

theorem shifts_flushFirmware (w : Worker F M) : Shifts may w w.flushFirmware.2 :=
  (w.shifts_noteWrite .firmware _).trans (.of_eq rfl)

theorem shifts_setCartPath (w : Worker F M) (path : Option Path) : Shifts may w (w.setCartPath path) := by
  have hnote : Shifts may w (w.note (.pointed path)) := w.shifts_note trivial
  exact hnote.trans (.of_eq rfl)

theorem shifts_retarget (w : Worker F M) (path : Option Path) : Shifts may w (w.retarget path) :=
  w.shifts_flushCart.trans (shifts_setCartPath _ path)

theorem shifts_outside (w : Worker F M) (o : Outside F) (hraise : o = .raiseStop → may .raise) :
    Shifts may w (w.outside o) := by
  cases o with
  | raiseStop => exact .single (.raise _ (hraise rfl))
  | flush kind =>
    cases kind with
    | cart => exact w.shifts_flushCart
    | firmware => exact w.shifts_flushFirmware
  | _ => exact .of_eq rfl

theorem shifts_outsideAll (w : Worker F M) (meanwhile : List (Outside F))
    (hraise : .raiseStop ∈ meanwhile → may .raise) : Shifts may w (w.outsideAll meanwhile) := by
  induction meanwhile generalizing w with
  | nil => exact .of_eq rfl
  | cons o meanwhile ih =>
    have hfirst : Shifts may w (w.outside o) :=
      w.shifts_outside o fun h => hraise (h ▸ List.mem_cons_self)
    exact hfirst.trans (ih (w.outside o) fun h => hraise (List.mem_cons_of_mem o h))

/-! ## Replies -/

theorem shifts_publish (w : Worker F M) (h : may .settle) : Shifts may w w.publish :=
  .single (.publish _ _ h)

theorem shifts_respond (w : Worker F M) (h : may .settle) (c : Option Caller) (r : Reply) :
    Shifts may w (w.respond c r) := by
  cases c with
  | none => exact .of_eq rfl
  | some c => exact .single (.answer _ c r h)

theorem shifts_answerSteps (w : Worker F M) (h : may .settle) (r : Reply) :
    Shifts may w (w.answerSteps r) := by
  suffices ∀ (cs : List Caller) (v : Worker F M),
      Shifts may v (cs.foldl (fun v c => v.answer c r) v) by
    have hqueue : Shifts may w { w with waiting := [] } := .single (.queue _ [] h)
    exact hqueue.trans (this w.waiting { w with waiting := [] })
  intro cs
  induction cs with
  | nil => exact fun v => .of_eq rfl
  | cons c cs ih =>
    intro v
    have hanswer : Shifts may v (v.answer c r) := .single (.answer _ c r h)
    exact hanswer.trans (ih (v.answer c r))

theorem shifts_settle (w : Worker F M) (h : may .settle) : Shifts may w w.settle := by
  unfold settle
  split
  · exact w.shifts_publish h
  all_goals exact (w.shifts_answerSteps h _).trans (shifts_publish _ h)

theorem shifts_settleFrame (w : Worker F M) (h : may .settle) : Shifts may w w.settleFrame := by
  have hpublish : ∀ (status : Status) (waiting : List Caller),
      Shifts may w { w with status, waiting }.publish := by
    intro status waiting
    have hqueue : Shifts may w { w with status, waiting } := .single (.queue _ waiting h)
    exact hqueue.trans (shifts_publish _ h)
  unfold settleFrame
  split
  · split
    · exact hpublish .paused w.waiting
    · exact (hpublish .paused []).trans (shifts_respond _ h (some _) _)
    · exact (hpublish w.status _).trans (shifts_respond _ h (some _) _)
  · exact w.shifts_publish h

/-! ## Control -/

theorem shifts_notify (w : Worker F M) (h : may .tell) (message : String) :
    Shifts may w (w.notify message) :=
  .single (.tell _ message h)

theorem shifts_pause (w : Worker F M) (h : may .tell) : Shifts may w w.pause := by
  unfold pause
  dsimp only
  split
  · exact .of_eq rfl
  · split
    · exact .of_eq rfl
    · refine Shifts.trans (.of_eq ?_) (shifts_notify _ h "Paused")
      rfl

theorem shifts_unpause (w : Worker F M) (h : may .tell) : Shifts may w w.unpause := by
  unfold unpause
  split
  · exact .of_eq rfl
  · dsimp only
    split
    · exact .of_eq rfl
    · refine Shifts.trans (.of_eq ?_) (shifts_notify _ h "Resumed")
      rfl

theorem shifts_frameStep (w : Worker F M) (h : may .tell) : Shifts may w w.frameStep := by
  unfold frameStep
  split
  · exact (w.shifts_pause h).trans (.of_eq rfl)
  · exact .of_eq rfl

theorem shifts_onPress (w : Worker F M) (k : Hotkey) {act : Worker F M → Worker F M}
    (h : ∀ v, Shifts may v (act v)) : Shifts may w (w.onPress k act) := by
  unfold onPress
  split
  · exact h w
  · exact .of_eq rfl

theorem shifts_togglePause (w : Worker F M) (h : may .tell) : Shifts may w w.togglePause := by
  unfold togglePause
  split
  · exact w.shifts_unpause h
  · exact w.shifts_pause h

theorem shifts_changeVolume (up : Bool) (w : Worker F M) (h : may .tell) :
    Shifts may w (w.changeVolume up) := by
  refine Shifts.trans (.of_eq ?_) (shifts_notify _ h _)
  rfl

variable [Machine M]

theorem shifts_stop (w : Worker F M) (external : Bool) : Shifts may w (w.stop external) := by
  cases external with
  | true => exact (w.shifts_useIfAny .stop nofun Machine.stop).trans (.of_eq rfl)
  | false => exact .of_eq rfl

theorem shifts_reset (w : Worker F M) (h : may .tell) : Shifts may w w.reset.1 := by
  unfold reset
  split
  · exact .of_eq rfl
  · next i hi =>
    have hreset : Shifts may w (w.use i (fun _ => .reset) Machine.reset).2 :=
      shifts_use hi _ nofun Machine.reset
    refine (hreset.trans (.of_eq ?_)).trans (shifts_notify _ h "Reset")
    rfl

theorem shifts_pressPower (w : Worker F M) : Shifts may w w.pressPower := by
  unfold pressPower
  split
  · exact w.shifts_stop true
  · exact .of_eq rfl

theorem actOnHotkeys_shifts (w : Worker F M) (h : may .tell) :
    ∃ v, w.actOnHotkeys = v.settle ∧ Shifts may w v := by
  refine ⟨_, rfl, ?_⟩
  refine (shifts_onPress w .pause (shifts_togglePause · h)).trans ?_
  refine (shifts_onPress _ .reset (shifts_reset · h)).trans ?_
  refine (shifts_onPress _ .powerButton shifts_pressPower).trans ?_
  refine (shifts_onPress _ .frameStep (shifts_frameStep · h)).trans ?_
  refine Shifts.trans (.of_eq (v := updateFastForward _) rfl) ?_
  refine (shifts_onPress _ .volumeUp (shifts_changeVolume true · h)).trans ?_
  exact shifts_onPress _ .volumeDown (shifts_changeVolume false · h)

theorem shifts_pollHotkeys (w : Worker F M) (htell : may .tell) (hsettle : may .settle) :
    Shifts may w w.pollHotkeys := by
  have hsample : Shifts may w w.sampleHotkeys := .of_eq rfl
  unfold pollHotkeys
  dsimp only
  split
  · exact hsample
  · obtain ⟨v, heq, hv⟩ := w.sampleHotkeys.actOnHotkeys_shifts htell
    rw [heq]
    exact (hsample.trans hv).trans (v.shifts_settle hsettle)

theorem shifts_takeStop (w : Worker F M) (hlower : may .lower) (hsettle : may .settle) :
    Shifts may w w.takeStop := by
  unfold takeStop
  split
  · have hlowered : Shifts may w ({ w with stopRequested := false }.stop false) :=
      .single (.lower _ hlower)
    exact hlowered.trans (shifts_settle _ hsettle)
  · exact .of_eq rfl

/-! ## Frames -/

theorem shifts_beginFrame {i : Installed M} (hi : w.machine = some i) :
    Shifts may w (w.beginFrame i).2 := by
  let heard := w.mic.nextFrame (w.edges.down .mic)
  let listening : Worker F M := { w with mic := heard.2 }
  have hlistening : Shifts may w listening := .of_eq rfl
  have hmachine : listening.machine = some i := hi
  exact hlistening.trans
    (shifts_use hmachine (fun _ => .hearMic heard.1) nofun (Machine.hearMic · heard.1))

theorem shifts_moveOutput (reads : Nat) (w : Worker F M) : Shifts may w (w.moveOutput reads) := by
  induction reads generalizing w with
  | zero => exact .of_eq rfl
  | succ reads ih =>
    unfold moveOutput
    split
    · exact .of_eq rfl
    · next i hi =>
      split
      · exact .of_eq rfl
      · have hread : Shifts may w (w.use i (fun out => .readOutput outputChunk out.length)
            (Machine.readOutput · outputChunk)).2 := shifts_use hi _ nofun _
        dsimp only
        split
        · exact hread
        · refine (hread.trans (.of_eq ?_)).trans (ih _)
          rfl

theorem shifts_endFrame (w : Worker F M) (input : FrameInput) : Shifts may w (w.endFrame input) := by
  unfold endFrame
  split
  · exact .of_eq rfl
  · next i hi =>
    let ran := (w.use i (fun _ => .runFrame input) (Machine.runFrame · input)).2
    have hran : Shifts may w ran := shifts_use hi _ nofun _
    have hmoved : Shifts may ran ran.moveAllOutput := by
      unfold moveAllOutput
      split
      · exact .of_eq rfl
      · exact ran.shifts_moveOutput _
    exact (hran.trans hmoved).trans (.of_eq rfl)

theorem shifts_framed (w : Worker F M) (meanwhile : List (Outside F))
    (hraise : .raiseStop ∈ meanwhile → may .raise) : Shifts may w (w.framed meanwhile) := by
  unfold framed
  split
  · exact .of_eq rfl
  · next i hi =>
    refine (shifts_beginFrame hi).trans ?_
    exact (shifts_outsideAll _ meanwhile hraise).trans (shifts_endFrame _ _)

theorem shifts_frameWith (w : Worker F M) (meanwhile : List (Outside F)) (hsettle : may .settle)
    (hraise : .raiseStop ∈ meanwhile → may .raise) : Shifts may w (w.frameWith meanwhile) := by
  rw [frameWith_framed]
  split
  · exact (w.shifts_framed meanwhile hraise).trans (shifts_settleFrame _ hsettle)
  · exact .of_eq rfl

theorem shifts_shutdown (w : Worker F M) (hvacate : may .vacate) (hsettle : may .settle) :
    Shifts may w w.shutdown := by
  let stopped : Worker F M :=
    { w.useIfAny .stop Machine.stop with
      machine := none, active := false, status := .exiting }.disableAudio
  have hvacated : Shifts may (w.useIfAny .stop Machine.stop) stopped :=
    .single (.vacate _ hvacate (w.halted_useIfAny Machine.stop))
  have hstopped : Shifts may w stopped := (w.shifts_useIfAny .stop nofun Machine.stop).trans hvacated
  exact (hstopped.trans (stopped.shifts_answerSteps hsettle _)).trans (shifts_publish _ hsettle)

/-! ## Cartridges and savestates -/

theorem shifts_insertCart (w : Worker F M) (paths : List Path) :
    Shifts may w (w.insertCart paths).1 := by
  unfold insertCart
  split
  · exact .of_eq rfl
  · next i hi =>
    split
    · exact .of_eq rfl
    · next rom _ =>
      let aimed := w.retarget (some (cartSavePath rom.path w.id))
      have haimed : aimed.machine = some i := (w.machine_retarget _).trans hi
      have hused : Shifts may w
          (aimed.use i (fun _ => .insertCart rom) (Machine.insertCart · rom)).2 :=
        (w.shifts_retarget _).trans (shifts_use haimed _ nofun _)
      dsimp only
      split
      · next v hv => rwa [show _ = v from congrArg Prod.snd hv] at hused
      · next e v hv =>
        rw [show _ = v from congrArg Prod.snd hv] at hused
        exact hused.trans (v.shifts_setCartPath _)

theorem shifts_ejectCart (w : Worker F M) : Shifts may w w.ejectCart :=
  (w.shifts_useIfAny .ejectCart nofun Machine.ejectCart).trans (shifts_retarget _ none)

omit [Machine M] in
theorem shifts_writeFile (w : Worker F M) (path : Path) (data : Bytes) :
    Shifts may w (w.writeFile path data).1 := by
  unfold writeFile
  split
  · exact .of_eq rfl
  · split <;> exact .of_eq rfl

theorem shifts_takeState {i : Installed M} (hi : w.machine = some i) :
    Shifts may w (w.takeState i).2 :=
  shifts_use hi Call.saveState nofun Machine.saveState

theorem shifts_saveState (w : Worker F M) (path : Path) : Shifts may w (w.saveState path).1 := by
  unfold saveState
  split
  · exact .of_eq rfl
  · next i hi =>
    have htaken : Shifts may w (w.takeState i).2 := shifts_takeState hi
    split
    · next v hv => rwa [hv] at htaken
    · next data v hv =>
      rw [hv] at htaken
      exact htaken.trans (v.shifts_writeFile path data)

theorem shifts_giveState (w : Worker F M) (data : Bytes) : Shifts may w (w.giveState data).1 := by
  unfold giveState
  split
  · exact .of_eq rfl
  · next i hi =>
    have hused : Shifts may w (w.use i (fun _ => .loadState data) (Machine.loadState · data)).2 :=
      shifts_use hi _ nofun _
    split
    · next v hv => rwa [hv] at hused
    · next v hv => rwa [hv] at hused

theorem shifts_takeBackup {i : Installed M} (hi : w.machine = some i) (h : may .keep) :
    Shifts may w (w.takeBackup i) := by
  have htaken : Shifts may w (w.takeState i).2 := shifts_takeState hi
  unfold takeBackup
  split
  · next data v hv =>
    rw [hv] at htaken
    exact htaken.trans (.single (.keep _ _ h))
  · next v hv =>
    rw [hv] at htaken
    exact htaken.trans (.single (.keep _ none h))

theorem shifts_loadState (w : Worker F M) (path : Path) (h : w.active = true → may .keep) :
    Shifts may w (w.loadState path).1 := by
  unfold loadState
  split
  · exact .of_eq rfl
  · next i hi =>
    have hbackup : Shifts may w (if w.active then w.takeBackup i else w) := by
      split
      · next hactive => exact shifts_takeBackup hi (h hactive)
      · exact .of_eq rfl
    dsimp only
    split
    · exact hbackup
    · exact hbackup.trans (shifts_giveState _ _)

theorem shifts_undoLoad (w : Worker F M) (h : may .forget) : Shifts may w w.undoLoad.1 := by
  rcases w.undoLoad_cases with ⟨e, heq, -⟩ | ⟨b, -, heq⟩
  · rw [heq]
    exact .of_eq rfl
  · let cleared : Worker F M := { w with backup := none }
    have hcleared : Shifts may w cleared := .single (.forget _ h)
    have hgiven : Shifts may w (cleared.giveState b.data).1 :=
      hcleared.trans (cleared.shifts_giveState b.data)
    rcases heq with ⟨heq, -⟩ | ⟨heq, -⟩
    · rw [heq]
      exact hgiven
    · rw [heq]
      exact hgiven.trans (shifts_setCartPath _ _)

theorem shifts_importSave (w : Worker F M) (path : Path) : Shifts may w (w.importSave path).1 := by
  unfold importSave
  split
  · exact .of_eq rfl
  · next i hi =>
    split
    · exact .of_eq rfl
    · next data _ =>
      have hused : Shifts may w
          (w.use i (fun _ => .importSave data) (Machine.importSave · data)).2 := shifts_use hi _ nofun _
      split
      · next v hv => rwa [hv] at hused
      · next v hv => rwa [hv] at hused

/-! ## Boots -/

omit [Machine M] in
/-- A call on the machine that was there does not count as one on the next. -/
theorem fresh_useIfAny {b : Nat} (h : w.standing.Fresh b) (call : Call) (act : M → Outcome M Unit) :
    (w.useIfAny call act).standing.Fresh b := by
  unfold useIfAny
  split
  · exact h
  · next i hi =>
    have hboot : w.installedBoot = some i.boot := congrArg (Option.map Installed.boot) hi
    let called : Worker F M :=
      { w with machine := some { i with machine := (act i.machine).machine } }.note
        (.called i.boot call)
    have hcalled : called.standing.Fresh b := by
      refine ⟨h.boots, ?_, fun other hmem => ?_⟩
      · show some i.boot ≠ some b
        rw [← hboot]
        exact h.boot
      · rcases List.mem_cons.mp hmem with heq | hmem
        · have hsame : b = i.boot := (Event.called.inj heq).1
          exact h.boot (hsame ▸ hboot)
        · exact h.uncalled other hmem
    exact fresh_receiveAll hcalled i.boot (act i.machine).requests

theorem shifts_install {i : Installed M} (h : w.standing.Fresh i.boot) :
    Shifts may w (w.install i) := by
  let stopped := w.useIfAny .stop Machine.stop
  let cleared : Worker F M := { stopped with backup := none }
  let started : Worker F M :=
    { cleared with machine := some { i with machine := (Machine.start i.machine).machine } }.note
      (.called i.boot .start)
  have hfresh : stopped.standing.Fresh i.boot := fresh_useIfAny h .stop Machine.stop
  have hstopped : Shifts may w stopped := w.shifts_useIfAny .stop nofun Machine.stop
  have hstarted : Shifts may stopped started :=
    .single (.start hfresh (w.halted_useIfAny Machine.stop))
  exact (hstopped.trans hstarted).trans
    (started.shifts_receiveAll (.inl rfl) (Machine.start i.machine).requests)

omit [Machine M] in
theorem boots_retarget (w : Worker F M) (path : Option Path) : (w.retarget path).boots = w.boots := by
  obtain ⟨journal, h⟩ := w.noteWrite_eq .cart (w.cart.checkFlush w.world.files).written
  show (w.noteWrite .cart _).boots = w.boots
  rw [h]

omit [Machine M] in
theorem shifts_asked (hw : w.standing.Numbered) (rom : Option Rom) (savePath : Option Path)
    (b : Boot F M) :
    Shifts may w (w.asked rom savePath b) ∧ (w.asked rom savePath b).standing.Fresh w.boots := by
  let aimed := w.retarget savePath
  let told : Worker F M :=
    { aimed.note (.asked w.boots rom) with boots := w.boots + 1, factory := b.factory }
  have haimed : Shifts may w aimed := w.shifts_retarget savePath
  have hboots : aimed.boots = w.boots := w.boots_retarget savePath
  have htold : told.standing =
      { aimed.standing.enter (.asked aimed.boots rom) with boots := aimed.boots + 1 } := by
    rw [hboots]
    rfl
  have hask : Shifts may aimed told := by
    refine .single ?_
    rw [htold]
    exact .ask rom
  have hnumbered : aimed.standing.Numbered := hw.steps (haimed hw)
  have hfresh : told.standing.Fresh w.boots := by
    refine ⟨rfl, fun hboot => ?_, fun call hmem => ?_⟩
    · have hlt : w.boots < aimed.boots := hnumbered.boot _ hboot
      omega
    · have hcalled : .called w.boots call ∈ aimed.journal := by simpa [told, standing, note] using hmem
      have hlt : w.boots < aimed.boots := hnumbered.called _ call hcalled
      omega
  exact ⟨(haimed.trans hask).trans (told.shifts_receiveAll (.inr hfresh) b.requests),
    fresh_receiveAll hfresh w.boots b.requests⟩

variable [Factory F M]

theorem shifts_boot (w : Worker F M) (rom : Option Rom) (savePath : Option Path) :
    Shifts may w (w.boot rom savePath).1 := by
  intro hw
  let asked := w.asked rom savePath (askFactory w.factory rom)
  obtain ⟨hasked, hfresh⟩ :
      Shifts may w asked ∧ asked.standing.Fresh w.boots := shifts_asked hw rom savePath _
  rw [boot_eq]
  split
  · next m _ =>
    have hinstalled : Shifts may asked (asked.install ⟨w.boots, m⟩) := shifts_install hfresh
    exact (hasked.trans hinstalled) hw
  · exact (hasked.trans (shifts_setCartPath _ _)) hw

theorem shifts_bootRom (w : Worker F M) (paths : List Path) : Shifts may w (w.bootRom paths).1 := by
  unfold bootRom
  split
  · exact .of_eq rfl
  · exact w.shifts_boot _ _

/-! ## Steps and runs -/

theorem shifts_apply (w : Worker F M) (c : Command) (htell : may .tell)
    (hkeep : (∃ path, c = .loadState path) → w.active = true → may .keep)
    (hforget : c = .undoLoad → may .forget) : Shifts may w (w.apply c).1 := by
  cases c with
  | run => exact .of_eq rfl
  | pause => exact w.shifts_pause htell
  | unpause => exact w.shifts_unpause htell
  | stop external => exact w.shifts_stop external
  | frameStep => exact w.shifts_frameStep htell
  | reset => exact w.shifts_reset htell
  | exit => exact .of_eq rfl
  | bootRom paths => exact w.shifts_bootRom paths
  | bootFirmware => exact w.shifts_boot none none
  | insertCart paths => exact w.shifts_insertCart paths
  | ejectCart => exact w.shifts_ejectCart
  | saveState path => exact w.shifts_saveState path
  | loadState path => exact w.shifts_loadState path (hkeep ⟨path, rfl⟩)
  | undoLoad => exact w.shifts_undoLoad (hforget rfl)
  | importSave path => exact w.shifts_importSave path
  | setCheats on => exact w.shifts_useIfAny (.setCheats on) nofun _

theorem shifts_serve (w : Worker F M) (e : Envelope) (htell : may .tell) (hsettle : may .settle)
    (hkeep : (∃ path, e.command = .loadState path) → w.active = true → may .keep)
    (hforget : e.command = .undoLoad → may .forget) : Shifts may w (w.serve e) := by
  let applied := (w.apply e.command).1
  have happlied : Shifts may w applied := w.shifts_apply e.command htell hkeep hforget
  unfold serve
  dsimp only
  split
  · have hqueued : Shifts may applied { applied with waiting := applied.waiting ++ e.caller.toList } :=
      .single (.queue _ _ hsettle)
    exact (happlied.trans hqueued).trans (shifts_settle _ hsettle)
  · exact (happlied.trans (applied.shifts_settle hsettle)).trans (shifts_respond _ hsettle _ _)

theorem handle_of_awake {e : Envelope} (hawake : w.status ≠ .exiting) (he : e.command ≠ .frameStep) :
    w.handle e =
      ((w.note (.taken e)).apply e.command).1.settle.respond e.caller (w.outcome e) := by
  have hnote : (w.note (.taken e)).status ≠ .exiting := hawake
  unfold handle serve outcome
  dsimp only
  rw [if_neg hnote, if_neg he, if_neg hawake]

theorem shifts_handle (w : Worker F M) (e : Envelope) (htell : may .tell) (hsettle : may .settle)
    (hkeep : w.Loads (.take e) → w.active = true → may .keep)
    (hforget : w.Undoes (.take e) → may .forget) : Shifts may w (w.handle e) := by
  let taken := w.note (.taken e)
  have htaken : Shifts may w taken := w.shifts_note trivial
  unfold handle
  dsimp only
  split
  · exact htaken.trans (shifts_respond _ hsettle _ _)
  · next hawake =>
    obtain ⟨command, caller⟩ := e
    refine htaken.trans (taken.shifts_serve ⟨command, caller⟩ htell hsettle ?_ ?_)
    · rintro ⟨path, hpath⟩ hactive
      obtain rfl : command = .loadState path := hpath
      exact hkeep ⟨hawake, path, caller, rfl⟩ hactive
    · intro hundo
      obtain rfl : command = .undoLoad := hundo
      exact hforget ⟨hawake, caller, rfl⟩

theorem shifts_step (w : Worker F M) (a : Act F) : Shifts (w.Licenses a) w (w.step a) := by
  cases a with
  | take e =>
    exact w.shifts_handle e (.inr ⟨e, rfl⟩) nofun (fun hloads hactive => ⟨hloads, hactive⟩)
      fun hundoes => hundoes
  | poll =>
    exact (w.shifts_pollHotkeys (.inl rfl) nofun).trans (w.pollHotkeys.shifts_takeStop rfl nofun)
  | frame meanwhile => exact w.shifts_frameWith meanwhile nofun fun hraise => hraise
  | outside o => exact w.shifts_outside o fun hraise => hraise
  | shutdown => exact w.shifts_shutdown rfl nofun

theorem shifts_run (w : Worker F M) {acts : List (Act F)}
    (h : w.Along (fun v a => ∀ l, v.Licenses a l → may l) acts) : Shifts may w (w.run acts) := by
  induction acts generalizing w with
  | nil => exact .of_eq rfl
  | cons a acts ih =>
    obtain ⟨hfirst, hrest⟩ := along_cons.mp h
    exact ((w.shifts_step a).mono hfirst).trans (ih (w.step a) hrest)

theorem numbered_run (hw : w.standing.Numbered) (acts : List (Act F)) :
    (w.run acts).standing.Numbered := by
  have hrun : Shifts (fun _ => True) w (w.run acts) := w.shifts_run fun _ _ _ _ _ _ => trivial
  exact hw.steps (hrun hw)

end Worker

end Handheld
