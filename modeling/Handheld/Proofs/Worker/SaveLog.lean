import Handheld.Proofs.Save.Session
import Handheld.Proofs.Worker.Runs
import Mathlib.Logic.Relation

/-!
# The cartridge save and the journal

Whatever a worker does, its cartridge store and its journal move together: `SaveLog.Step` lists the
ways they can, and `moves_step` says that every step of a run is a sequence of them. What is to be
shown of the store along a run is shown of these four ways. The proposition `tidy` in them asks that
the save is pointed elsewhere only while nothing is pending; `Tidy` says when a command complies.
-/

namespace Handheld

/-- The cartridge store of a worker and its journal. -/
structure SaveLog where
  store : SaveStore
  journal : List Event

/-- An event that tells of no change of the cartridge store. -/
def Event.Elsewhere : Event → Prop
  | .requested _ (.saveCart _ _ _) => False
  | .wrote .cart _ => False
  | .pointed _ => False
  | _ => True

/-- How a cartridge store changes, with the event that tells of it. -/
inductive SaveLog.Step (tidy : Prop) : SaveLog → SaveLog → Prop
  | other {s : SaveStore} {journal : List Event} {e : Event} (h : e.Elsewhere) :
    Step tidy ⟨s, journal⟩ ⟨s, e :: journal⟩
  | request {s : SaveStore} {journal : List Event} (boot now : Nat) (image : Bytes)
      (offset length : Nat) :
    Step tidy ⟨s, journal⟩
      ⟨s.request now image offset length, .requested boot (.saveCart image offset length) :: journal⟩
  | write {s : SaveStore} {journal : List Event} {write : SaveWrite}
      (h : s.nextWrite = some write) :
    Step tidy ⟨s, journal⟩ ⟨s.commit write, .wrote .cart write :: journal⟩
  | point {s : SaveStore} {journal : List Event} {path : Option Path}
      (h : tidy → s.pending = true → s.path = path) :
    Step tidy ⟨s, journal⟩ ⟨s.setPath path, .pointed path :: journal⟩

namespace Worker

variable {F M : Type}

def saveLog (w : Worker F M) : SaveLog := ⟨w.cart, w.journal⟩

/-- The store and the journal of the second worker come from those of the first. -/
def Moves (tidy : Prop) (w v : Worker F M) : Prop :=
  Relation.ReflTransGen (SaveLog.Step tidy) w.saveLog v.saveLog

variable {tidy : Prop} {u v w : Worker F M}

theorem Moves.trans (huv : Moves tidy u v) (hvw : Moves tidy v w) : Moves tidy u w :=
  Relation.ReflTransGen.trans huv hvw

theorem Moves.of_eq (h : v.saveLog = w.saveLog) : Moves tidy w v := by
  rw [Moves, h]

theorem Moves.of_adds (h : Adds Event.Elsewhere w v) (hcart : v.cart = w.cart) : Moves tidy w v := by
  obtain ⟨added, hjournal, hadded⟩ := h
  rw [Moves, saveLog, saveLog, hcart, hjournal]
  clear hjournal
  induction added with
  | nil => exact .refl
  | cons e added ih =>
    exact (ih fun e he => hadded e (List.mem_cons_of_mem _ he)).tail
      (.other (hadded e List.mem_cons_self))

theorem moves_note (w : Worker F M) {e : Event} (h : e.Elsewhere) : Moves tidy w (w.note e) :=
  .of_adds (w.adds_note h) rfl

/-! ## Calls -/

theorem moves_receive (w : Worker F M) (boot : Nat) (q : Request) :
    Moves tidy w (receive boot w q) := by
  cases q with
  | saveCart image offset length => exact .single (.request boot w.world.now image offset length)
  | saveFirmware image offset length =>
    exact .of_adds (w.adds_note trivial) rfl
  | stop => exact .of_adds (w.adds_note trivial) rfl

theorem moves_receiveAll (w : Worker F M) (boot : Nat) (requests : List Request) :
    Moves tidy w (w.receiveAll boot requests) := by
  induction requests generalizing w with
  | nil => exact .of_eq rfl
  | cons q requests ih => exact (w.moves_receive boot q).trans (ih (receive boot w q))

theorem path_receiveAll (w : Worker F M) (boot : Nat) (requests : List Request) :
    (w.receiveAll boot requests).cart.path = w.cart.path := by
  induction requests generalizing w with
  | nil => rfl
  | cons q requests ih =>
    refine (ih (receive boot w q)).trans ?_
    cases q <;> rfl

theorem moves_use {α : Type} (w : Worker F M) (i : Installed M) (call : α → Call)
    (act : M → Outcome M α) : Moves tidy w (w.use i call act).2 := by
  let called : Worker F M :=
    { w with machine := some { i with machine := (act i.machine).machine } }.note
      (.called i.boot (call (act i.machine).answer))
  have hcall : Moves tidy w called := .of_adds (w.adds_note trivial) rfl
  exact hcall.trans (called.moves_receiveAll i.boot (act i.machine).requests)

theorem path_use {α : Type} (w : Worker F M) (i : Installed M) (call : α → Call)
    (act : M → Outcome M α) : (w.use i call act).2.cart.path = w.cart.path :=
  path_receiveAll _ i.boot (act i.machine).requests

theorem moves_useIfAny (w : Worker F M) (call : Call) (act : M → Outcome M Unit) :
    Moves tidy w (w.useIfAny call act) := by
  unfold useIfAny
  split
  · exact .of_eq rfl
  · exact w.moves_use _ _ act

/-! ## Writes and paths -/

theorem flushCart_cases (w : Worker F M) :
    w.flushCart.2.saveLog = w.saveLog ∨
    ∃ write, w.cart.nextWrite = some write ∧
      w.flushCart.2.saveLog = ⟨w.cart.commit write, .wrote .cart write :: w.journal⟩ := by
  have hlog : w.flushCart.2.saveLog =
      ⟨(w.cart.checkFlush w.world.files).store,
        (w.noteWrite .cart (w.cart.checkFlush w.world.files).written).journal⟩ := rfl
  rcases SaveStore.checkFlush_cases w.cart w.world.files with ⟨-, h⟩ | ⟨write, hwrite, h⟩
  · left
    rw [hlog, h]
    rfl
  · rcases SaveStore.attempt_cases w.cart write w.world.files with ⟨hs, -, hw⟩ | ⟨hs, -, hw⟩
    · right
      refine ⟨write, hwrite, ?_⟩
      rw [hlog, h, hs, hw]
      rfl
    · left
      rw [hlog, h, hs, hw]
      rfl

theorem moves_flushCart (w : Worker F M) : Moves tidy w w.flushCart.2 := by
  rcases w.flushCart_cases with h | ⟨write, hwrite, h⟩
  · exact .of_eq h
  · rw [Moves, h]
    exact .single (.write hwrite)

theorem moves_flushFirmware (w : Worker F M) : Moves tidy w w.flushFirmware.2 := by
  have hwrite : Moves tidy w
      (w.noteWrite .firmware (w.firmware.checkFlush w.world.files).written) := by
    cases (w.firmware.checkFlush w.world.files).written with
    | none => exact .of_eq rfl
    | some write => exact w.moves_note trivial
  exact hwrite.trans (.of_eq rfl)

theorem moves_setCartPath (w : Worker F M) {path : Option Path}
    (h : tidy → w.cart.pending = true → w.cart.path = path) : Moves tidy w (w.setCartPath path) :=
  .single (.point h)

theorem moves_setCartPath_of_idle (w : Worker F M) (path : Option Path)
    (h : tidy → w.cart.pending = false) : Moves tidy w (w.setCartPath path) := by
  refine w.moves_setCartPath fun ht hpending => ?_
  rw [h ht] at hpending
  cases hpending

theorem moves_retarget (w : Worker F M) (path : Option Path) (h : tidy → w.flushCart.1 = true) :
    Moves tidy w (w.retarget path) := by
  refine w.moves_flushCart.trans (moves_setCartPath_of_idle _ path fun ht => ?_)
  exact (SaveStore.done_checkFlush w.cart w.world.files).mp (h ht)

/-! ## Control -/

theorem moves_notify (w : Worker F M) (message : String) : Moves tidy w (w.notify message) :=
  .of_adds (w.adds_note trivial) rfl

theorem moves_respond (w : Worker F M) (c : Option Caller) (r : Reply) :
    Moves tidy w (w.respond c r) := by
  cases c with
  | none => exact .of_eq rfl
  | some c => exact w.moves_note trivial

theorem moves_answerSteps (w : Worker F M) (r : Reply) : Moves tidy w (w.answerSteps r) := by
  obtain ⟨journal, h⟩ := w.answerSteps_eq r
  exact .of_adds (w.adds_answerSteps r fun _ _ => trivial) (by rw [h])

theorem moves_settle (w : Worker F M) : Moves tidy w w.settle := by
  unfold settle
  split
  · exact .of_eq rfl
  all_goals exact (w.moves_answerSteps _).trans (.of_eq rfl)

theorem moves_settleFrame (w : Worker F M) : Moves tidy w w.settleFrame := by
  unfold settleFrame
  split
  · split
    · exact .of_eq rfl
    all_goals
      refine Moves.trans (.of_eq ?_) (moves_note _ trivial)
      rfl
  · exact .of_eq rfl

theorem moves_pause (w : Worker F M) : Moves tidy w w.pause := by
  unfold pause
  dsimp only
  split
  · exact .of_eq rfl
  · split
    · exact .of_eq rfl
    · refine Moves.trans (.of_eq ?_) (moves_notify _ "Paused")
      rfl

theorem moves_unpause (w : Worker F M) : Moves tidy w w.unpause := by
  unfold unpause
  split
  · exact .of_eq rfl
  · dsimp only
    split
    · exact .of_eq rfl
    · refine Moves.trans (.of_eq ?_) (moves_notify _ "Resumed")
      rfl

theorem moves_frameStep (w : Worker F M) : Moves tidy w w.frameStep := by
  unfold frameStep
  split
  · exact w.moves_pause.trans (.of_eq rfl)
  · exact .of_eq rfl

variable [Machine M]

theorem moves_stop (w : Worker F M) (external : Bool) : Moves tidy w (w.stop external) := by
  cases external with
  | true => exact (w.moves_useIfAny .stop Machine.stop).trans (.of_eq rfl)
  | false => exact .of_eq rfl

theorem moves_reset (w : Worker F M) : Moves tidy w w.reset.1 := by
  unfold reset
  split
  · exact .of_eq rfl
  · next i _ =>
    refine (w.moves_use i (fun _ => .reset) Machine.reset).trans ?_
    refine Moves.trans (.of_eq ?_) (moves_notify _ "Reset")
    rfl

/-! ## Passes -/

omit [Machine M] in
theorem moves_onPress (w : Worker F M) (k : Hotkey) {act : Worker F M → Worker F M}
    (h : ∀ v, Moves tidy v (act v)) : Moves tidy w (w.onPress k act) := by
  unfold onPress
  split
  · exact h w
  · exact .of_eq rfl

omit [Machine M] in
theorem moves_togglePause (w : Worker F M) : Moves tidy w w.togglePause := by
  unfold togglePause
  split
  · exact w.moves_unpause
  · exact w.moves_pause

omit [Machine M] in
theorem moves_changeVolume (up : Bool) (w : Worker F M) : Moves tidy w (w.changeVolume up) := by
  refine Moves.trans (.of_eq ?_) (moves_notify _ _)
  rfl

theorem moves_pressPower (w : Worker F M) : Moves tidy w w.pressPower := by
  unfold pressPower
  split
  · exact w.moves_stop true
  · exact .of_eq rfl

theorem moves_actOnHotkeys (w : Worker F M) : Moves tidy w w.actOnHotkeys := by
  refine (moves_onPress w .pause moves_togglePause).trans ?_
  refine (moves_onPress _ .reset moves_reset).trans ?_
  refine (moves_onPress _ .powerButton moves_pressPower).trans ?_
  refine (moves_onPress _ .frameStep moves_frameStep).trans ?_
  refine Moves.trans (.of_eq (v := updateFastForward _) rfl) ?_
  refine (moves_onPress _ .volumeUp (moves_changeVolume true)).trans ?_
  refine (moves_onPress _ .volumeDown (moves_changeVolume false)).trans ?_
  exact moves_settle _

theorem moves_poll (w : Worker F M) : Moves tidy w w.poll := by
  have hhotkeys : Moves tidy w w.pollHotkeys := by
    have hsample : Moves tidy w w.sampleHotkeys := .of_eq rfl
    unfold pollHotkeys
    dsimp only
    split
    · exact hsample
    · exact hsample.trans w.sampleHotkeys.moves_actOnHotkeys
  have hstop : Moves tidy w.pollHotkeys w.pollHotkeys.takeStop := by
    unfold takeStop
    split
    · refine Moves.trans (.of_eq ?_) (moves_settle _)
      rfl
    · exact .of_eq rfl
  exact hhotkeys.trans hstop

theorem moves_beginFrame (w : Worker F M) (i : Installed M) :
    Moves tidy w (w.beginFrame i).2 := by
  let heard := w.mic.nextFrame (w.edges.down .mic)
  have hheard : Moves tidy w { w with mic := heard.2 } := .of_eq rfl
  exact hheard.trans (moves_use _ i (fun _ => .hearMic heard.1) (Machine.hearMic · heard.1))

theorem moves_moveOutput (reads : Nat) (w : Worker F M) : Moves tidy w (w.moveOutput reads) := by
  induction reads generalizing w with
  | zero => exact .of_eq rfl
  | succ reads ih =>
    unfold moveOutput
    split
    · exact .of_eq rfl
    · next i _ =>
      split
      · exact .of_eq rfl
      · have hread : Moves tidy w (w.use i (fun out => .readOutput outputChunk out.length)
            (Machine.readOutput · outputChunk)).2 := w.moves_use i _ _
        dsimp only
        split
        · exact hread
        · refine (hread.trans (.of_eq ?_)).trans (ih _)
          rfl

theorem moves_endFrame (w : Worker F M) (input : FrameInput) : Moves tidy w (w.endFrame input) := by
  unfold endFrame
  split
  · exact .of_eq rfl
  · next i _ =>
    let ran := (w.use i (fun _ => .runFrame input) (Machine.runFrame · input)).2
    have hran : Moves tidy w ran := w.moves_use i _ _
    have hmoved : Moves tidy ran ran.moveAllOutput := by
      unfold moveAllOutput
      split
      · exact .of_eq rfl
      · exact ran.moves_moveOutput _
    exact (hran.trans hmoved).trans (.of_eq rfl)

omit [Machine M] in
theorem moves_outside (w : Worker F M) (o : Outside F) : Moves tidy w (w.outside o) := by
  cases o with
  | flush kind =>
    cases kind with
    | cart => exact w.moves_flushCart
    | firmware => exact w.moves_flushFirmware
  | _ => exact .of_eq rfl

omit [Machine M] in
theorem moves_outsideAll (w : Worker F M) (meanwhile : List (Outside F)) :
    Moves tidy w (w.outsideAll meanwhile) := by
  induction meanwhile generalizing w with
  | nil => exact .of_eq rfl
  | cons o meanwhile ih => exact (w.moves_outside o).trans (ih (w.outside o))

theorem moves_frameWith (w : Worker F M) (meanwhile : List (Outside F)) :
    Moves tidy w (w.frameWith meanwhile) := by
  unfold frameWith
  split
  · split
    · exact w.moves_settleFrame
    · next i _ =>
      refine (w.moves_beginFrame i).trans ((moves_outsideAll _ meanwhile).trans ?_)
      exact (moves_endFrame _ _).trans (moves_settleFrame _)
  · exact .of_eq rfl

theorem moves_shutdown (w : Worker F M) : Moves tidy w w.shutdown := by
  let stopped : Worker F M :=
    { w.useIfAny .stop Machine.stop with
      machine := none, active := false, status := .exiting }.disableAudio
  have hstopped : Moves tidy w stopped :=
    (w.moves_useIfAny .stop Machine.stop).trans (.of_eq rfl)
  exact (hstopped.trans (stopped.moves_answerSteps (.error .exiting))).trans (.of_eq rfl)

/-! ## Commands -/

theorem moves_install (w : Worker F M) (i : Installed M) : Moves tidy w (w.install i) := by
  let cleared : Worker F M := { w.useIfAny .stop Machine.stop with backup := none }
  have hcleared : Moves tidy w cleared := (w.moves_useIfAny .stop Machine.stop).trans (.of_eq rfl)
  exact hcleared.trans (cleared.moves_use i (fun _ => .start) Machine.start)

theorem moves_insertCart (w : Worker F M) (paths : List Path) (hflush : tidy → w.flushCart.1 = true)
    (hback : tidy → (w.insertCart paths).2 ≠ .ok () →
      (w.insertCart paths).1.cart.pending = false) :
    Moves tidy w (w.insertCart paths).1 := by
  unfold insertCart at hback ⊢
  split
  · exact .of_eq rfl
  · next i hi =>
    rw [hi] at hback
    split
    · exact .of_eq rfl
    · next rom hrom =>
      rw [hrom] at hback
      let aimed := w.retarget (some (cartSavePath rom.path w.id))
      let used := aimed.use i (fun _ => .insertCart rom) (Machine.insertCart · rom)
      have hused : Moves tidy w used.2 :=
        (w.moves_retarget _ hflush).trans (aimed.moves_use i _ _)
      dsimp only at hback ⊢
      split
      · next v hv =>
        rwa [show used.2 = v from congrArg Prod.snd hv] at hused
      · next e v hv =>
        rw [show used.2 = v from congrArg Prod.snd hv] at hused
        rw [hv] at hback
        -- the path is set back, with whatever the machine has requested meanwhile
        exact hused.trans (v.moves_setCartPath_of_idle _ fun ht => hback ht (by simp))

theorem moves_ejectCart (w : Worker F M)
    (hflush : tidy → (w.useIfAny .ejectCart Machine.ejectCart).flushCart.1 = true) :
    Moves tidy w w.ejectCart :=
  (w.moves_useIfAny .ejectCart Machine.ejectCart).trans (moves_retarget _ none hflush)

omit [Machine M] in
theorem moves_writeFile (w : Worker F M) (path : Path) (data : Bytes) :
    Moves tidy w (w.writeFile path data).1 := by
  unfold writeFile
  split
  · exact .of_eq rfl
  · split <;> exact .of_eq rfl

theorem moves_saveState (w : Worker F M) (path : Path) : Moves tidy w (w.saveState path).1 := by
  unfold saveState
  split
  · exact .of_eq rfl
  · next i _ =>
    have htaken : Moves tidy w (w.takeState i).2 := w.moves_use i Call.saveState Machine.saveState
    split
    · next v hv => rwa [hv] at htaken
    · next data v hv =>
      rw [hv] at htaken
      exact htaken.trans (v.moves_writeFile path data)

theorem moves_giveState (w : Worker F M) (data : Bytes) : Moves tidy w (w.giveState data).1 := by
  unfold giveState
  split
  · exact .of_eq rfl
  · next i _ =>
    have hused : Moves tidy w (w.use i (fun _ => .loadState data) (Machine.loadState · data)).2 :=
      w.moves_use i _ _
    split
    · next v hv => rwa [hv] at hused
    · next v hv => rwa [hv] at hused

theorem moves_loadState (w : Worker F M) (path : Path) : Moves tidy w (w.loadState path).1 := by
  unfold loadState
  split
  · exact .of_eq rfl
  · next i _ =>
    have hbackup : Moves tidy w (if w.active then w.takeBackup i else w) := by
      split
      · have htaken : Moves tidy w (w.takeState i).2 :=
          w.moves_use i Call.saveState Machine.saveState
        unfold takeBackup
        split
        · next data v hv =>
          rw [hv] at htaken
          exact htaken.trans (.of_eq rfl)
        · next v hv =>
          rw [hv] at htaken
          exact htaken.trans (.of_eq rfl)
      · exact .of_eq rfl
    dsimp only
    split
    · exact hbackup
    · exact hbackup.trans (moves_giveState _ _)

theorem path_giveState (w : Worker F M) (data : Bytes) :
    (w.giveState data).1.cart.path = w.cart.path := by
  unfold giveState
  split
  · rfl
  · next i _ =>
    have hused : (w.use i (fun _ => .loadState data) (Machine.loadState · data)).2.cart.path =
        w.cart.path := w.path_use i _ _
    split
    · next v hv => rwa [hv] at hused
    · next v hv => rwa [hv] at hused

theorem undoLoad_cases (w : Worker F M) :
    (∃ e, w.undoLoad = (w, .error e) ∧ (w.machine = none ∨ w.backup = none)) ∨
    ∃ b, w.backup = some b ∧
      let given := { w with backup := none }.giveState b.data
      ((w.undoLoad = given ∧ (given.2 = .ok () → b.savePath = none)) ∨
        w.undoLoad = (given.1.setCartPath b.savePath, .ok ()) ∧ b.savePath.isSome = true) := by
  unfold undoLoad
  split
  · next hmachine => exact .inl ⟨_, rfl, .inl hmachine⟩
  · next hbackup => exact .inl ⟨_, rfl, .inr hbackup⟩
  · next b _ hbackup =>
    refine .inr ⟨b, hbackup, ?_⟩
    split
    · next v e hv => exact .inl ⟨hv.symm, fun hok => by rw [hv] at hok; cases hok⟩
    · next v hv =>
      rw [hv]
      by_cases hsome : b.savePath.isSome = true
      · exact .inr ⟨if_pos hsome, hsome⟩
      · exact .inl ⟨if_neg hsome, fun _ => by simpa using hsome⟩

theorem moves_undoLoad (w : Worker F M)
    (h : tidy → w.undoLoad.1.cart.pending = true → w.undoLoad.1.cart.path = w.cart.path) :
    Moves tidy w w.undoLoad.1 := by
  rcases w.undoLoad_cases with ⟨e, heq, -⟩ | ⟨b, -, heq⟩
  · rw [heq]
    exact .of_eq rfl
  · let cleared : Worker F M := { w with backup := none }
    have hcleared : Moves tidy w cleared := .of_eq rfl
    have hgiven : Moves tidy w (cleared.giveState b.data).1 :=
      hcleared.trans (cleared.moves_giveState b.data)
    rcases heq with ⟨heq, -⟩ | ⟨heq, -⟩
    · rw [heq]
      exact hgiven
    · rw [heq] at h ⊢
      refine hgiven.trans (moves_setCartPath _ fun ht hpending => ?_)
      exact (cleared.path_giveState b.data).trans (h ht hpending).symm

theorem moves_importSave (w : Worker F M) (path : Path) : Moves tidy w (w.importSave path).1 := by
  unfold importSave
  split
  · exact .of_eq rfl
  · next i _ =>
    split
    · exact .of_eq rfl
    · next data _ =>
      have hused : Moves tidy w
          (w.use i (fun _ => .importSave data) (Machine.importSave · data)).2 := w.moves_use i _ _
      split
      · next v hv => rwa [hv] at hused
      · next v hv => rwa [hv] at hused

variable [Factory F M]

theorem moves_boot (w : Worker F M) (rom : Option Rom) (savePath : Option Path)
    (hflush : tidy → w.flushCart.1 = true)
    (hback : tidy → (w.boot rom savePath).2 ≠ .ok () →
      (w.boot rom savePath).1.cart.pending = false) :
    Moves tidy w (w.boot rom savePath).1 := by
  let asked : Worker F M :=
    { (w.retarget savePath).note (.asked w.boots rom) with boots := w.boots + 1 }
  let b : Boot F M := askFactory asked.factory rom
  let made := { asked with factory := b.factory }.receiveAll w.boots b.requests
  have hmade : Moves tidy w made := by
    have hasked : Moves tidy (w.retarget savePath) { asked with factory := b.factory } :=
      .of_adds (adds_note _ trivial) rfl
    exact ((w.moves_retarget savePath hflush).trans hasked).trans (moves_receiveAll _ _ _)
  unfold boot at hback ⊢
  dsimp only at hback ⊢
  split
  · exact hmade.trans (made.moves_install _)
  · next e he =>
    rw [he] at hback
    -- setting the path back does not touch what is pending, so that `hback` speaks of `made`
    exact hmade.trans (made.moves_setCartPath_of_idle _ fun ht => hback ht (by simp))

/-- A command that points the cartridge save elsewhere finds nothing pending: what was pending is
written before a boot, an insertion or an ejection, nothing is requested by what then fails, and an
undo goes back to where the save is. -/
def Tidy (w : Worker F M) (c : Command) : Prop :=
  match c with
  | .bootRom _ | .bootFirmware | .insertCart _ =>
    w.flushCart.1 = true ∧ ((w.apply c).2 ≠ .ok () → (w.apply c).1.cart.pending = false)
  | .ejectCart => (w.useIfAny .ejectCart Machine.ejectCart).flushCart.1 = true
  | .undoLoad => (w.apply c).1.cart.pending = true → (w.apply c).1.cart.path = w.cart.path
  | _ => True

theorem moves_apply (w : Worker F M) (c : Command) (h : tidy → w.Tidy c) :
    Moves tidy w (w.apply c).1 := by
  cases c with
  | run => exact .of_eq rfl
  | pause => exact w.moves_pause
  | unpause => exact w.moves_unpause
  | stop external => exact w.moves_stop external
  | frameStep => exact w.moves_frameStep
  | reset => exact w.moves_reset
  | exit => exact .of_eq rfl
  | bootRom paths =>
    show Moves tidy w (w.bootRom paths).1
    have hback := fun ht => (h ht).2
    change tidy → (w.bootRom paths).2 ≠ .ok () → (w.bootRom paths).1.cart.pending = false at hback
    unfold bootRom at hback ⊢
    split
    · exact .of_eq rfl
    · next rom hrom =>
      rw [hrom] at hback
      exact w.moves_boot _ _ (fun ht => (h ht).1) hback
  | bootFirmware => exact w.moves_boot none none (fun ht => (h ht).1) fun ht => (h ht).2
  | insertCart paths => exact w.moves_insertCart paths (fun ht => (h ht).1) fun ht => (h ht).2
  | ejectCart => exact w.moves_ejectCart h
  | saveState path => exact w.moves_saveState path
  | loadState path => exact w.moves_loadState path
  | undoLoad => exact w.moves_undoLoad h
  | importSave path => exact w.moves_importSave path
  | setCheats on => exact w.moves_useIfAny _ _

theorem moves_handle (w : Worker F M) (e : Envelope)
    (h : tidy → (w.note (.taken e)).status ≠ .exiting → (w.note (.taken e)).Tidy e.command) :
    Moves tidy w (w.handle e) := by
  let taken := w.note (.taken e)
  have htaken : Moves tidy w taken := w.moves_note trivial
  have hserve : taken.status ≠ .exiting → Moves tidy taken (taken.serve e) := by
    intro hstatus
    have happlied := taken.moves_apply e.command fun ht => h ht hstatus
    unfold serve
    dsimp only
    split
    · refine (happlied.trans (.of_eq ?_)).trans (moves_settle _)
      rfl
    · exact (happlied.trans (moves_settle _)).trans (moves_respond _ _ _)
  unfold handle
  dsimp only
  split
  · exact htaken.trans (moves_respond _ _ _)
  · next hstatus => exact htaken.trans (hserve hstatus)

/-- Commands that are carried out are tidy. -/
def TidyStep (w : Worker F M) (a : Act F) : Prop :=
  ∀ e, a = .take e → w.status ≠ .exiting → (w.note (.taken e)).Tidy e.command

theorem moves_step (w : Worker F M) (a : Act F) (h : tidy → w.TidyStep a) :
    Moves tidy w (w.step a) := by
  cases a with
  | take e => exact w.moves_handle e fun ht => h ht e rfl
  | poll => exact w.moves_poll
  | frame meanwhile => exact w.moves_frameWith meanwhile
  | outside o => exact w.moves_outside o
  | shutdown => exact w.moves_shutdown

theorem moves_run (w : Worker F M) (acts : List (Act F))
    (h : tidy → w.Along TidyStep acts) : Moves tidy w (w.run acts) := by
  induction acts generalizing w with
  | nil => exact .of_eq rfl
  | cons a acts ih =>
    have hstep : Moves tidy w (w.step a) := w.moves_step a fun ht => (along_cons.mp (h ht)).1
    exact hstep.trans (ih (w.step a) fun ht => (along_cons.mp (h ht)).2)

end Worker

end Handheld
