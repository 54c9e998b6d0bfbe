import Handheld.Proofs.Worker.Batching
import Handheld.Worker.Report

/-!
# Workers in step

What a worker does does not depend on who waits for it or on its journal, as long as nobody is answered.
`InStep` lists the small steps that everything else is made of, and a relation between workers that are
the same otherwise is kept by commands, hotkeys, frames and what happens outside as soon as it is kept by
these (`InStep.apply`, `InStep.actOnHotkeys`, `InStep.endFrame`, `InStep.outside`). A property of one worker
that these keep is `Stable`; it is such a relation between workers of which the first one has the property
(`Holds`, `Stable.inStep`).
-/

namespace Handheld

/-- An event that commands and hotkeys enter, but for requests, writes and paths. -/
def Event.Plain : Event → Prop
  | .asked _ _ => True
  | .called _ call => call.isPerFrame = false
  | .notified _ => True
  | _ => False

namespace Worker

variable {F M : Type} {u v w : Worker F M}

theorem use_answer {α : Type} (w : Worker F M) (i : Installed M) (call : α → Call)
    (act : M → Outcome M α) : w.use i call act = ((act i.machine).answer, (w.use i call act).2) := rfl

theorem undoLoad_of_backup [Machine M] {i : Installed M} {b : Backup} (hi : w.machine = some i)
    (hb : w.backup = some b) : w.undoLoad =
      match { w with backup := none }.giveState b.data with
      | (w, .error e) => (w, .error e)
      | (w, .ok ()) => if b.savePath.isSome then (w.setCartPath b.savePath, .ok ()) else (w, .ok ()) := by
  unfold undoLoad
  split
  · next hnone =>
    rw [hi] at hnone
    cases hnone
  · next hnone =>
    rw [hb] at hnone
    cases hnone
  · next hsome =>
    rw [hb] at hsome
    cases hsome
    rfl

/-- The worker with other callers waiting and another journal. -/
def recast (w : Worker F M) (waiting : List Caller) (journal : List Event) : Worker F M :=
  { w with waiting, journal }

theorem recast_receive (w : Worker F M) (waiting : List Caller) (journal : List Event) (boot : Nat)
    (q : Request) : receive boot (w.recast waiting journal) q =
      (receive boot w q).recast waiting (.requested boot q :: journal) := by
  cases q <;> rfl

/-- What a write that is made now enters into the journal. -/
def writes (w : Worker F M) (kind : SaveKind) : List Event :=
  match kind with
  | .cart => (w.cart.checkFlush w.world.files).written.toList.map (.wrote .cart)
  | .firmware => (w.firmware.checkFlush w.world.files).written.toList.map (.wrote .firmware)

theorem noteWrite_recast (w : Worker F M) (waiting : List Caller) (journal : List Event)
    (kind : SaveKind) (write : Option SaveWrite) :
    (w.recast waiting journal).noteWrite kind write =
      (w.noteWrite kind write).recast waiting (write.toList.map (.wrote kind) ++ journal) := by
  cases write <;> rfl

theorem journal_flush (w : Worker F M) (kind : SaveKind) :
    (w.outside (.flush kind)).journal = w.writes kind ++ w.journal := by
  have hnote : ∀ write : Option SaveWrite, (w.noteWrite kind write).journal =
      write.toList.map (.wrote kind) ++ w.journal := by
    intro write
    cases write <;> rfl
  cases kind <;> exact hnote _

theorem recast_flush (w : Worker F M) (waiting : List Caller) (journal : List Event)
    (kind : SaveKind) : (w.recast waiting journal).outside (.flush kind) =
      (w.outside (.flush kind)).recast waiting (w.writes kind ++ journal) := by
  cases kind with
  | cart =>
    let r := w.cart.checkFlush w.world.files
    exact congrArg (fun u => { u with cart := r.store, world.files := r.files })
      (w.noteWrite_recast waiting journal .cart r.written)
  | firmware =>
    let r := w.firmware.checkFlush w.world.files
    exact congrArg (fun u => { u with firmware := r.store, world.files := r.files })
      (w.noteWrite_recast waiting journal .firmware r.written)

structure Unsaved (w v : Worker F M) : Prop where
  cart : v.cart = w.cart
  firmware : v.firmware = w.firmware
  files : v.world.files = w.world.files
  journal : v.journal = w.journal

/-- A relation between workers that are the same but for callers and journal, kept by small steps. -/
structure InStep (R : Worker F M → Worker F M → Prop) : Prop where
  recast {w v : Worker F M} : R w v → ∃ waiting journal, v = w.recast waiting journal
  free {w v w' v' : Worker F M} {waiting : List Caller} :
    R w v → Unsaved w w' → v' = w'.recast waiting v.journal → R w' v'
  note {w v : Worker F M} {e : Event} : R w v → e.Plain → R (w.note e) (v.note e)
  receive {w v : Worker F M} : R w v → ∀ boot q, R (receive boot w q) (receive boot v q)
  flush {w v : Worker F M} : R w v → ∀ kind, R (w.outside (.flush kind)) (v.outside (.flush kind))

/-- Besides, kept by what commands do to the path of the cartridge save and to files. -/
structure InStep.Aiming (R : Worker F M → Worker F M → Prop) : Prop extends InStep R where
  point {w v : Worker F M} : R w v → ∀ path, R (w.setCartPath path) (v.setCartPath path)
  disk {w v : Worker F M} : R w v → ∀ files, R (w.outside (.disk files)) (v.outside (.disk files))

/-! ## Properties of one worker -/

/-- A property of saves, files and journal that small steps keep. -/
structure Stable (I : Worker F M → Prop) : Prop where
  free {w w' : Worker F M} : I w → Unsaved w w' → I w'
  note {w : Worker F M} {e : Event} : I w → e.Plain → I (w.note e)
  receive {w : Worker F M} : I w → ∀ boot q, I (receive boot w q)
  flush {w : Worker F M} : I w → ∀ kind, I (w.outside (.flush kind))

/-- The first worker has a property, and the second one is in step with it. -/
def Holds (I : Worker F M → Prop) (w v : Worker F M) : Prop :=
  I w ∧ ∃ waiting journal, v = w.recast waiting journal

theorem Holds.of_self {I : Worker F M → Prop} (h : I w) : Holds I w w := ⟨h, w.waiting, w.journal, rfl⟩

theorem Stable.inStep {I : Worker F M → Prop} (hI : Stable I) : InStep (Holds I) where
  recast := And.right
  free := by
    rintro w v w' v' waiting ⟨h, _, journal, rfl⟩ hunsaved hv
    exact ⟨hI.free h hunsaved, waiting, journal, hv⟩
  note := by
    rintro w v e ⟨h, waiting, journal, rfl⟩ he
    exact ⟨hI.note h he, waiting, e :: journal, rfl⟩
  receive := by
    rintro w v ⟨h, waiting, journal, rfl⟩ boot q
    exact ⟨hI.receive h boot q, waiting, _, w.recast_receive waiting journal boot q⟩
  flush := by
    rintro w v ⟨h, waiting, journal, rfl⟩ kind
    exact ⟨hI.flush h kind, waiting, _, w.recast_flush waiting journal kind⟩

/-- Besides, what commands do to the path of the cartridge save and to files keeps it. -/
structure Stable.Aiming (I : Worker F M → Prop) : Prop extends Stable I where
  point {w : Worker F M} : I w → ∀ path, I (w.setCartPath path)
  disk {w : Worker F M} : I w → ∀ files, I (w.outside (.disk files))

theorem Stable.Aiming.inStep {I : Worker F M → Prop} (hI : Stable.Aiming I) :
    InStep.Aiming (Holds I) where
  toInStep := hI.toStable.inStep
  point := by
    rintro w v ⟨h, waiting, journal, rfl⟩ path
    exact ⟨hI.point h path, waiting, .pointed path :: journal, rfl⟩
  disk := by
    rintro w v ⟨h, waiting, journal, rfl⟩ files
    exact ⟨hI.disk h files, waiting, journal, rfl⟩

namespace InStep

variable {R : Worker F M → Worker F M → Prop}

/-! ## Calls on the machine -/

theorem receiveAll (hR : InStep R) (h : R w v) (boot : Nat) (requests : List Request) :
    R (w.receiveAll boot requests) (v.receiveAll boot requests) := by
  induction requests generalizing w v with
  | nil => exact h
  | cons q requests ih => exact ih (hR.receive h boot q)

theorem use_of_note (hR : InStep R) (h : R w v) {α : Type} (i : Installed M) (call : α → Call)
    (act : M → Outcome M α)
    (hnote : ∀ {w v : Worker F M}, R w v → R (w.note (.called i.boot (call (act i.machine).answer)))
      (v.note (.called i.boot (call (act i.machine).answer)))) :
    R (w.use i call act).2 (v.use i call act).2 := by
  obtain ⟨waiting, journal, rfl⟩ := hR.recast h
  let used : Worker F M := { w with machine := some { i with machine := (act i.machine).machine } }
  have hused : R used (used.recast waiting journal) := hR.free h ⟨rfl, rfl, rfl, rfl⟩ rfl
  exact hR.receiveAll (hnote hused) i.boot (act i.machine).requests

theorem use (hR : InStep R) (h : R w v) {α : Type} (i : Installed M) (call : α → Call)
    (act : M → Outcome M α) (hcall : ∀ answer, (call answer).isPerFrame = false) :
    R (w.use i call act).2 (v.use i call act).2 :=
  hR.use_of_note h i call act fun hnoted => hR.note hnoted (hcall _)

theorem machine_eq (hR : InStep R) (h : R w v) : v.machine = w.machine := by
  obtain ⟨waiting, journal, rfl⟩ := hR.recast h
  rfl

theorem useIfAny (hR : InStep R) (h : R w v) (call : Call) (act : M → Outcome M Unit)
    (hcall : call.isPerFrame = false) : R (w.useIfAny call act) (v.useIfAny call act) := by
  unfold Worker.useIfAny
  rw [hR.machine_eq h]
  split
  · exact h
  · exact hR.use h _ _ act fun _ => hcall

/-! ## Steering -/

theorem notify (hR : InStep R) (h : R w v) (message : String) :
    R (w.notify message) (v.notify message) := by
  have hnote := hR.note h (e := .notified message) trivial
  obtain ⟨waiting, journal, rfl⟩ := hR.recast h
  exact hR.free hnote ⟨rfl, rfl, rfl, rfl⟩ rfl

theorem pause (hR : InStep R) (h : R w v) : R w.pause v.pause := by
  obtain ⟨waiting, journal, rfl⟩ := hR.recast h
  rcases hpush : w.pauses.push w.status with ⟨first, pauses⟩
  have hother : (w.recast waiting journal).pauses.push (w.recast waiting journal).status =
      (first, pauses) := hpush
  unfold Worker.pause
  rw [hpush, hother]
  cases first with
  | false => exact hR.free h ⟨rfl, rfl, rfl, rfl⟩ rfl
  | true =>
    by_cases hstatus : w.status = .paused
    · have hpaused : (w.recast waiting journal).status = .paused := hstatus
      simp only [hstatus, hpaused, Bool.not_true, Bool.false_eq_true, if_false, if_true]
      exact hR.free h ⟨rfl, rfl, rfl, rfl⟩ rfl
    · have hawake : (w.recast waiting journal).status ≠ .paused := hstatus
      simp only [Bool.not_true, Bool.false_eq_true, if_false, if_neg hstatus, if_neg hawake]
      refine hR.notify ?_ "Paused"
      exact hR.free h ⟨rfl, rfl, rfl, rfl⟩ rfl

theorem unpause (hR : InStep R) (h : R w v) : R w.unpause v.unpause := by
  obtain ⟨waiting, journal, rfl⟩ := hR.recast h
  rcases hpop : w.pauses.pop with ⟨restored, pauses⟩
  have hother : (w.recast waiting journal).pauses.pop = (restored, pauses) := hpop
  unfold Worker.unpause
  rw [hpop, hother]
  cases restored with
  | none => exact hR.free h ⟨rfl, rfl, rfl, rfl⟩ rfl
  | some status =>
    by_cases hstatus : status = .paused
    · simp only [hstatus, if_true]
      exact hR.free h ⟨rfl, rfl, rfl, rfl⟩ rfl
    · simp only [if_neg hstatus]
      refine hR.notify ?_ "Resumed"
      exact hR.free h ⟨rfl, rfl, rfl, rfl⟩ rfl

theorem goLive (hR : InStep R) (h : R w v) : R w.goLive v.goLive := by
  obtain ⟨waiting, journal, rfl⟩ := hR.recast h
  exact hR.free h ⟨rfl, rfl, rfl, rfl⟩ rfl

theorem halt (hR : InStep R) (h : R w v) : R w.halt v.halt := by
  obtain ⟨waiting, journal, rfl⟩ := hR.recast h
  exact hR.free h ⟨rfl, rfl, rfl, rfl⟩ rfl

theorem exit (hR : InStep R) (h : R w v) : R w.exit v.exit := by
  obtain ⟨waiting, journal, rfl⟩ := hR.recast h
  exact hR.free h ⟨rfl, rfl, rfl, rfl⟩ rfl

theorem setStatus (hR : InStep R) (h : R w v) (status : Status) :
    R { w with status } { v with status } := by
  obtain ⟨waiting, journal, rfl⟩ := hR.recast h
  exact hR.free h ⟨rfl, rfl, rfl, rfl⟩ rfl

theorem control_eq (hR : InStep R) (h : R w v) : v.control = w.control := by
  obtain ⟨waiting, journal, rfl⟩ := hR.recast h
  rfl

theorem frameStep (hR : InStep R) (h : R w v) : R w.frameStep v.frameStep := by
  have hdepth : v.pauses.depth = w.pauses.depth := congrArg (·.pauses.depth) (hR.control_eq h)
  unfold Worker.frameStep
  rw [hdepth]
  split
  · exact hR.setStatus (hR.pause h) .frameStep
  · exact hR.setStatus h .frameStep

variable [Machine M]

theorem stop (hR : InStep R) (h : R w v) (external : Bool) : R (w.stop external) (v.stop external) := by
  cases external with
  | false => exact hR.halt h
  | true => exact hR.halt (hR.useIfAny h .stop Machine.stop rfl)

theorem reset (hR : InStep R) (h : R w v) : R w.reset.1 v.reset.1 := by
  unfold Worker.reset
  rw [hR.machine_eq h]
  split
  · exact h
  · next i _ =>
    exact hR.notify (hR.goLive (hR.use h i (fun _ => .reset) Machine.reset fun _ => rfl)) "Reset"

/-! ## Hotkeys -/

omit [Machine M] in
theorem onPress (hR : InStep R) (h : R w v) (k : Hotkey) {act : Worker F M → Worker F M}
    (hact : ∀ {w v : Worker F M}, R w v → R (act w) (act v)) : R (w.onPress k act) (v.onPress k act) := by
  have hedges : v.edges = w.edges := by
    obtain ⟨waiting, journal, rfl⟩ := hR.recast h
    rfl
  unfold Worker.onPress
  rw [hedges]
  split
  · exact hact h
  · exact h

omit [Machine M] in
theorem togglePause (hR : InStep R) (h : R w v) : R w.togglePause v.togglePause := by
  have hstatus : v.status = w.status := congrArg Control.status (hR.control_eq h)
  unfold Worker.togglePause
  rw [hstatus]
  split
  · exact hR.unpause h
  · exact hR.pause h

omit [Machine M] in
theorem changeVolume (hR : InStep R) (h : R w v) (up : Bool) :
    R (w.changeVolume up) (v.changeVolume up) := by
  obtain ⟨waiting, journal, rfl⟩ := hR.recast h
  refine hR.notify ?_ _
  exact hR.free h ⟨rfl, rfl, rfl, rfl⟩ rfl

theorem pressPower (hR : InStep R) (h : R w v) : R w.pressPower v.pressPower := by
  have hactive : v.active = w.active := congrArg Control.active (hR.control_eq h)
  unfold Worker.pressPower
  rw [hactive]
  split
  · exact hR.stop h true
  · exact h

theorem actOnHotkeys (hR : InStep R) (h : R w v) : ∃ w' v' : Worker F M, R w' v' ∧
    w.actOnHotkeys = w'.settle ∧ v.actOnHotkeys = v'.settle := by
  have hsteered := hR.onPress (hR.onPress (hR.onPress (hR.onPress h .pause hR.togglePause) .reset
    hR.reset) .powerButton hR.pressPower) .frameStep hR.frameStep
  have hfast : ∀ {w v : Worker F M}, R w v → R w.updateFastForward v.updateFastForward := by
    intro w v h
    obtain ⟨waiting, journal, rfl⟩ := hR.recast h
    exact hR.free h ⟨rfl, rfl, rfl, rfl⟩ rfl
  have hvolume := hR.onPress (hR.onPress (hfast hsteered) .volumeUp fun h => hR.changeVolume h true)
    .volumeDown fun h => hR.changeVolume h false
  exact ⟨_, _, hvolume, rfl, rfl⟩

/-! ## Saves and files -/

omit [Machine M] in
theorem flushCart (hR : InStep R) (h : R w v) : R w.flushCart.2 v.flushCart.2 := hR.flush h .cart

omit [Machine M] in
theorem retarget (hR : Aiming R) (h : R w v) (path : Option Path) :
    R (w.retarget path) (v.retarget path) := hR.point (hR.flushCart h) path

omit [Machine M] in
theorem writeFile (hR : Aiming R) (h : R w v) (path : Path) (data : Bytes) :
    R (w.writeFile path data).1 (v.writeFile path data).1 := by
  obtain ⟨waiting, journal, rfl⟩ := hR.recast h
  have hdisk : ∀ files, R { w with world.files := files }
      { w.recast waiting journal with world.files := files } := hR.disk h
  unfold Worker.writeFile
  rcases hparents : w.world.files.createParents path with ⟨files, e | _⟩
  · have hother : (w.recast waiting journal).world.files.createParents path = (files, .error e) :=
      hparents
    rw [hother]
    exact hdisk files
  · have hother : (w.recast waiting journal).world.files.createParents path = (files, .ok ()) :=
      hparents
    rw [hother]
    dsimp only
    cases files.write path data with
    | error e => exact hdisk files
    | ok files => exact hdisk files

/-! ## Commands -/

theorem takeState (hR : InStep R) (h : R w v) (i : Installed M) :
    R (w.takeState i).2 (v.takeState i).2 := hR.use h i Call.saveState Machine.saveState fun _ => rfl

theorem saveState (hR : Aiming R) (h : R w v) (path : Path) :
    R (w.saveState path).1 (v.saveState path).1 := by
  unfold Worker.saveState
  rw [hR.machine_eq h]
  split
  · exact h
  · next i _ =>
    have htaken := hR.takeState h i
    unfold Worker.takeState at htaken ⊢
    rw [use_answer w, use_answer v]
    cases (Machine.saveState i.machine).answer with
    | error e => exact htaken
    | ok data => exact writeFile hR htaken path data

theorem giveState (hR : InStep R) (h : R w v) (data : Bytes) :
    R (w.giveState data).1 (v.giveState data).1 ∧ (v.giveState data).2 = (w.giveState data).2 := by
  unfold Worker.giveState
  rw [hR.machine_eq h]
  split
  · exact ⟨h, rfl⟩
  · next i _ =>
    have hused := hR.use h i (fun _ => .loadState data) (Machine.loadState · data) fun _ => rfl
    rw [use_answer w, use_answer v]
    cases (Machine.loadState i.machine data).answer with
    | error e => exact ⟨hused, rfl⟩
    | ok _ => exact ⟨hused, rfl⟩

omit [Machine M] in
theorem setBackup (hR : InStep R) (h : R w v) (backup : Option Backup) :
    R { w with backup } { v with backup } := by
  obtain ⟨waiting, journal, rfl⟩ := hR.recast h
  exact hR.free h ⟨rfl, rfl, rfl, rfl⟩ rfl

omit [Machine M] in
theorem cart_eq (hR : InStep R) (h : R w v) : v.cart = w.cart := by
  obtain ⟨waiting, journal, rfl⟩ := hR.recast h
  rfl

omit [Machine M] in
theorem files_eq (hR : InStep R) (h : R w v) : v.world.files = w.world.files := by
  obtain ⟨waiting, journal, rfl⟩ := hR.recast h
  rfl

theorem takeBackup (hR : InStep R) (h : R w v) (i : Installed M) :
    R (w.takeBackup i) (v.takeBackup i) := by
  have hkept : ∀ {w v : Worker F M}, R w v → ∀ data,
      R { w with backup := some ⟨data, w.cart.path⟩ } { v with backup := some ⟨data, v.cart.path⟩ } := by
    intro w v h data
    obtain ⟨waiting, journal, rfl⟩ := hR.recast h
    exact hR.free h ⟨rfl, rfl, rfl, rfl⟩ rfl
  have htaken := hR.takeState h i
  unfold Worker.takeBackup
  unfold Worker.takeState at htaken ⊢
  rw [use_answer w, use_answer v]
  cases (Machine.saveState i.machine).answer with
  | error e => exact hR.setBackup htaken none
  | ok data => exact hkept htaken data

theorem loadState (hR : InStep R) (h : R w v) (path : Path) :
    R (w.loadState path).1 (v.loadState path).1 := by
  have hactive : v.active = w.active := congrArg Control.active (hR.control_eq h)
  unfold Worker.loadState
  rw [hR.machine_eq h, hactive]
  split
  · exact h
  · next i _ =>
    have hbackup : R (if w.active then w.takeBackup i else w) (if w.active then v.takeBackup i else v) := by
      split
      · exact hR.takeBackup h i
      · exact h
    dsimp only
    rw [hR.files_eq hbackup]
    split
    · exact hbackup
    · exact (hR.giveState hbackup _).1

omit [Machine M] in
theorem backup_eq (hR : InStep R) (h : R w v) : v.backup = w.backup := by
  obtain ⟨waiting, journal, rfl⟩ := hR.recast h
  rfl

theorem undoLoad (hR : Aiming R) (h : R w v) : R w.undoLoad.1 v.undoLoad.1 := by
  have hmachine := hR.machine_eq h
  have hbackup := hR.backup_eq h
  cases hi : w.machine with
  | none =>
    rw [hi] at hmachine
    simpa [Worker.undoLoad, hi, hmachine] using h
  | some i =>
    rw [hi] at hmachine
    cases hb : w.backup with
    | none =>
      rw [hb] at hbackup
      simpa [Worker.undoLoad, hi, hb, hmachine, hbackup] using h
    | some b =>
      rw [hb] at hbackup
      obtain ⟨hgiven, hreply⟩ := hR.giveState (hR.setBackup h none) b.data
      rw [undoLoad_of_backup hi hb, undoLoad_of_backup hmachine hbackup]
      rcases hw : { w with backup := none }.giveState b.data with ⟨w', e | _⟩
      all_goals
        rcases hv : { v with backup := none }.giveState b.data with ⟨v', reply⟩
        rw [hw, hv] at hgiven hreply ⊢
        cases hreply
      · exact hgiven
      · dsimp only
        split
        · exact hR.point hgiven _
        · exact hgiven

theorem importSave (hR : InStep R) (h : R w v) (path : Path) :
    R (w.importSave path).1 (v.importSave path).1 := by
  unfold Worker.importSave
  rw [hR.machine_eq h, hR.files_eq h]
  split
  · exact h
  · next i _ =>
    split
    · exact h
    · next data _ =>
      have hused := hR.use h i (fun _ => .importSave data) (Machine.importSave · data) fun _ => rfl
      rw [use_answer w, use_answer v]
      cases (Machine.importSave i.machine data).answer with
      | error e => exact hused
      | ok _ => exact hused

theorem insertCart (hR : Aiming R) (h : R w v) (paths : List Path) :
    R (w.insertCart paths).1 (v.insertCart paths).1 := by
  have hid : v.id = w.id := by
    obtain ⟨waiting, journal, rfl⟩ := hR.recast h
    rfl
  unfold Worker.insertCart
  rw [hR.machine_eq h, hR.files_eq h, hR.cart_eq h, hid]
  split
  · exact h
  · next i _ =>
    split
    · exact h
    · next rom _ =>
      have hused := hR.use (retarget hR h (some (cartSavePath rom.path w.id))) i
        (fun _ => .insertCart rom) (Machine.insertCart · rom) fun _ => rfl
      dsimp only
      rw [use_answer (w.retarget _), use_answer (v.retarget _)]
      cases (Machine.insertCart i.machine rom).answer with
      | error e => exact hR.point hused w.cart.path
      | ok _ => exact hused

theorem ejectCart (hR : Aiming R) (h : R w v) : R w.ejectCart v.ejectCart :=
  retarget hR (hR.useIfAny h .ejectCart Machine.ejectCart rfl) none

theorem install (hR : InStep R) (h : R w v) (i : Installed M) : R (w.install i) (v.install i) :=
  hR.use (hR.setBackup (hR.useIfAny h .stop Machine.stop rfl) none) i (fun _ => .start) Machine.start
    fun _ => rfl

variable [Factory F M]

theorem boot (hR : Aiming R) (h : R w v) (rom : Option Rom) (savePath : Option Path) :
    R (w.boot rom savePath).1 (v.boot rom savePath).1 := by
  have htold : ∀ {w v : Worker F M}, R w v → ∀ boots factory,
      R { w with boots, factory } { v with boots, factory } := by
    intro w v h boots factory
    obtain ⟨waiting, journal, rfl⟩ := hR.recast h
    exact hR.free h ⟨rfl, rfl, rfl, rfl⟩ rfl
  have hfactory : v.factory = w.factory := by
    obtain ⟨waiting, journal, rfl⟩ := hR.recast h
    rfl
  have hboots : v.boots = w.boots := by
    obtain ⟨waiting, journal, rfl⟩ := hR.recast h
    rfl
  have hasked : ∀ b : Boot F M, R (w.asked rom savePath b) (v.asked rom savePath b) := by
    intro b
    have hnoted := hR.note (retarget hR h savePath) (e := .asked w.boots rom) trivial
    unfold asked
    rw [hboots]
    exact hR.receiveAll (htold hnoted _ _) w.boots b.requests
  rw [boot_eq, boot_eq, hfactory, hboots, hR.cart_eq h]
  split
  · exact hR.install (hasked _) _
  · exact hR.point (hasked _) _

theorem bootRom (hR : Aiming R) (h : R w v) (paths : List Path) :
    R (w.bootRom paths).1 (v.bootRom paths).1 := by
  have hid : v.id = w.id := by
    obtain ⟨waiting, journal, rfl⟩ := hR.recast h
    rfl
  unfold Worker.bootRom
  rw [hR.files_eq h, hid]
  split
  · exact h
  · exact boot hR h _ _

theorem apply (hR : Aiming R) (h : R w v) (c : Command) : R (w.apply c).1 (v.apply c).1 := by
  cases c with
  | run => exact hR.goLive h
  | pause => exact hR.pause h
  | unpause => exact hR.unpause h
  | stop external => exact hR.stop h external
  | frameStep => exact hR.frameStep h
  | reset => exact hR.reset h
  | exit => exact hR.exit h
  | bootRom paths => exact bootRom hR h paths
  | bootFirmware => exact boot hR h none none
  | insertCart paths => exact insertCart hR h paths
  | ejectCart => exact ejectCart hR h
  | saveState path => exact saveState hR h path
  | loadState path => exact hR.loadState h path
  | undoLoad => exact undoLoad hR h
  | importSave path => exact hR.importSave h path
  | setCheats on => exact hR.useIfAny h (.setCheats on) (Machine.setCheats · on) rfl

end InStep

end Worker

end Handheld
