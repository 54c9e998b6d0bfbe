import Handheld.Proofs.Worker.Pausing

/-!
# Commands and the frames between them

What a stream of commands makes of a worker does not depend on where frames fall between the commands
(`control_independent_of_frames`). A frame only ends a step, so runs are compared by `Control.rested`,
and every command does the same to a step and to the pause it ends in (`Control.rested_obey`). Besides
its control, what a command does depends on whether there is a machine. Frames never change that; but
whether a boot succeeds depends on files, factory and save, so that workers without a machine have to
agree on these (`Alike`). Each run is compared with the one that takes its commands and does nothing
else (`twins_run`).
-/

namespace Handheld

namespace Control

variable {c : Control}

theorem rested_of_ne (h : c.status ≠ .frameStep) : c.rested = c := by
  unfold rested
  rw [if_neg h]

theorem rested_of_step (h : c.status = .frameStep) : c.rested = { c with status := .paused } := by
  unfold rested
  rw [if_pos h]

theorem rested_rested (c : Control) : c.rested.rested = c.rested := by
  by_cases h : c.status = .frameStep
  · rw [rested_of_step h]
    rfl
  · rw [rested_of_ne h, rested_of_ne h]

theorem exiting_rested : c.rested.status = .exiting ↔ c.status = .exiting := by
  by_cases h : c.status = .frameStep
  · rw [rested_of_step h, h]
    simp
  · rw [rested_of_ne h]

/-- A command does the same to a step and to the pause it ends in: a step is taken from a pause, and a
pause on top of that keeps no status. -/
theorem Paced.rested_obey (h : Paced c) (booted : Bool) (command : Command) :
    (c.rested.obey booted command).rested = (c.obey booted command).rested := by
  by_cases hstep : c.status = .frameStep
  · have hpositive := h.stepping hstep
    have hdepth : c.pauses.depth ≠ 0 := by omega
    rw [rested_of_step hstep]
    cases command with
    | pause => simp [Control.obey, Control.pause, Control.rested, hdepth, hstep]
    | unpause =>
      by_cases hone : c.pauses.depth = 1
      · simp [Control.obey, Control.unpause, hone]
      · simp [Control.obey, Control.unpause, Control.rested, hone, hstep]
    | frameStep => simp [Control.obey, Control.frameStep, hdepth]
    | reset => cases booted <;> simp [Control.obey, Control.goLive, Control.rested, hstep, notify]
    | run => rfl
    | stop _ => rfl
    | exit => rfl
    | _ => simp [Control.obey, Control.rested, hstep]
  · rw [rested_of_ne hstep]

end Control

/-! ## What a boot depends on -/

namespace SaveStore

def undated (s : SaveStore) : SaveStore := { s with lastRequest := none }

theorem undated_checkFlush (s : SaveStore) (t : FileTree) :
    (s.checkFlush t).files = (s.undated.checkFlush t).files ∧
    (s.checkFlush t).store.undated = (s.undated.checkFlush t).store := by
  have hnext : s.undated.nextWrite = s.nextWrite := rfl
  unfold checkFlush
  rw [hnext]
  split
  · exact ⟨rfl, rfl⟩
  · next write _ =>
    unfold attempt
    split <;> exact ⟨rfl, rfl⟩

end SaveStore

/-- What the outcome of a boot depends on while there is no machine. -/
structure Ground (F : Type) where
  id : Nat
  factory : F
  files : FileTree
  cart : SaveStore

/-- Files, saves or the factory change. -/
def Outside.ShiftsGround {F : Type} : Outside F → Prop
  | .flush _ => True
  | .disk _ => True
  | .factory _ => True
  | _ => False

/-- Without a machine there is nothing to carry out. -/
def Command.NeedsMachine : Command → Prop
  | .reset => True
  | .insertCart _ => True
  | .saveState _ => True
  | .loadState _ => True
  | .undoLoad => True
  | .importSave _ => True
  | .setCheats _ => True
  | _ => False

/-- The commands taken, in the same order. -/
def commands {F : Type} (acts : List (Act F)) : List Command :=
  acts.filterMap fun a =>
    match a with
    | .take e => some e.command
    | _ => none

namespace Worker

variable {F M : Type} {u v w : Worker F M}

def ground (w : Worker F M) : Ground F := ⟨w.id, w.factory, w.world.files, w.cart.undated⟩

/-- Both workers have a machine, or neither has and boots do the same to both. -/
structure Alike (w v : Worker F M) : Prop where
  booted : w.machine.isSome = v.machine.isSome
  ground : w.machine.isSome = false → w.ground = v.ground

theorem Alike.of_eq (hmachine : w.machine = v.machine) (hground : w.ground = v.ground) : Alike w v where
  booted := by rw [hmachine]
  ground := fun _ => hground

theorem Alike.of_booted (hw : w.machine.isSome = true) (hv : v.machine.isSome = true) : Alike w v where
  booted := by rw [hw, hv]
  ground := fun hnone => by simp [hw] at hnone

theorem Alike.refl (w : Worker F M) : Alike w w := .of_eq rfl rfl

theorem Alike.symm (h : Alike w v) : Alike v w where
  booted := h.booted.symm
  ground := fun hnone => (h.ground (h.booted.trans hnone)).symm

theorem Alike.trans (huv : Alike u v) (hvw : Alike v w) : Alike u w where
  booted := huv.booted.trans hvw.booted
  ground := fun hnone => (huv.ground hnone).trans (hvw.ground (huv.booted.symm.trans hnone))

theorem alike_settle (w : Worker F M) : Alike w w.settle := by
  obtain ⟨_, _, _, h⟩ := w.settle_eq
  rw [h]
  exact .of_eq rfl rfl

theorem alike_settleFrame (w : Worker F M) : Alike w w.settleFrame := by
  unfold settleFrame
  split
  · split <;> exact .of_eq rfl rfl
  · exact .of_eq rfl rfl

theorem alike_respond (w : Worker F M) (c : Option Caller) (r : Reply) : Alike w (w.respond c r) := by
  cases c <;> exact .of_eq rfl rfl

theorem noteWrite_eq (w : Worker F M) (kind : SaveKind) (write : Option SaveWrite) :
    ∃ journal, w.noteWrite kind write = { w with journal } := by
  cases write with
  | none => exact ⟨w.journal, rfl⟩
  | some s => exact ⟨_, rfl⟩

theorem machine_outside (w : Worker F M) (o : Outside F) : (w.outside o).machine = w.machine := by
  cases o with
  | flush kind =>
    cases kind with
    | cart =>
      obtain ⟨journal, h⟩ := w.noteWrite_eq .cart (w.cart.checkFlush w.world.files).written
      show (w.noteWrite .cart _).machine = w.machine
      rw [h]
    | firmware =>
      obtain ⟨journal, h⟩ := w.noteWrite_eq .firmware (w.firmware.checkFlush w.world.files).written
      show (w.noteWrite .firmware _).machine = w.machine
      rw [h]
  | _ => rfl

theorem alike_outside (w : Worker F M) {o : Outside F}
    (h : o.ShiftsGround → w.machine.isSome = true) : Alike w (w.outside o) := by
  have hbooted : w.machine.isSome = true → Alike w (w.outside o) := by
    intro hw
    exact .of_booted hw (by rw [machine_outside, hw])
  cases o with
  | flush kind => exact hbooted (h trivial)
  | disk files => exact hbooted (h trivial)
  | factory factory => exact hbooted (h trivial)
  | _ => exact .of_eq rfl rfl

theorem alike_pause (w : Worker F M) : Alike w w.pause := by
  obtain ⟨_, _, _, _, _, h⟩ := w.pause_eq
  rw [h]
  exact .of_eq rfl rfl

theorem alike_unpause (w : Worker F M) : Alike w w.unpause := by
  obtain ⟨_, _, _, _, _, h⟩ := w.unpause_eq
  rw [h]
  exact .of_eq rfl rfl

theorem alike_frameStep (w : Worker F M) : Alike w w.frameStep := by
  obtain ⟨_, _, _, _, _, h⟩ := w.frameStep_eq
  rw [h]
  exact .of_eq rfl rfl

/-! ## Twins -/

/-- The same control, but for a step that is still to run, and the same prospects. -/
structure Twins (w v : Worker F M) : Prop extends Alike w v where
  rested : w.control.rested = v.control.rested

theorem Twins.symm (h : Twins w v) : Twins v w := ⟨h.toAlike.symm, h.rested.symm⟩

theorem Twins.trans (huv : Twins u v) (hvw : Twins v w) : Twins u w :=
  ⟨huv.toAlike.trans hvw.toAlike, huv.rested.trans hvw.rested⟩

/-- No hotkey goes down, no wish to be stopped is found, no messages are read, and files, factory and
saves are left alone until there is a machine. Input, sound, time and wishes may come and go. -/
def Undisturbed (w : Worker F M) : Act F → Prop
  | .take _ => True
  | .poll => (∀ k, w.sampleHotkeys.edges.pressed k = false) ∧ w.stopRequested = false
  | .frame meanwhile => ∀ o ∈ meanwhile, o ≠ .readNotices
  | .outside o => o ≠ .readNotices ∧ (o.ShiftsGround → w.machine.isSome = true)
  | .shutdown => False

theorem Twins.of_control (h : Alike w v) (hcontrol : v.control = w.control) : Twins w v :=
  ⟨h, by rw [hcontrol]⟩

theorem twins_settle (w : Worker F M) : Twins w w.settle :=
  .of_control w.alike_settle w.control_settle

theorem stopRequested_settle (w : Worker F M) : w.settle.stopRequested = w.stopRequested := by
  obtain ⟨_, _, _, h⟩ := w.settle_eq
  rw [h]

theorem twins_settleFrame (w : Worker F M) : Twins w w.settleFrame := by
  refine ⟨w.alike_settleFrame, ?_⟩
  rw [control_settleFrame]
  split
  · rw [Control.rested_rested]
  · rfl

theorem twins_outside (w : Worker F M) {o : Outside F} (hunread : o ≠ .readNotices)
    (hground : o.ShiftsGround → w.machine.isSome = true) : Twins w (w.outside o) :=
  .of_control (w.alike_outside hground) (w.aside_outside hunread).control

theorem unpressed_of_none_down (w : Worker F M) (h : w.input.hotkeysDown = {}) (k : Hotkey) :
    w.sampleHotkeys.edges.pressed k = false := by
  have hfresh : w.sampleHotkeys.edges.fresh = {} := by
    show w.input.hotkeysDown.minus w.edges.held = {}
    rw [h]
    simp [Hotkeys.minus]
  show w.sampleHotkeys.edges.fresh.contains k = false
  rw [hfresh]
  cases k <;> rfl

section Passes

variable [Machine M]

theorem actOnHotkeys_of_unpressed (h : ∀ k, w.edges.pressed k = false) :
    w.actOnHotkeys = w.updateFastForward.settle := by
  have hfast : ∀ k, w.updateFastForward.edges.pressed k = false := h
  simp [actOnHotkeys, onPress, h, hfast]

theorem poll_of_unpressed (hkeys : ∀ k, w.sampleHotkeys.edges.pressed k = false)
    (hstop : w.stopRequested = false) :
    w.poll = if w.status = .exiting then w.sampleHotkeys
      else w.sampleHotkeys.updateFastForward.settle := by
  have hpolled : w.pollHotkeys = if w.status = .exiting then w.sampleHotkeys
      else w.sampleHotkeys.updateFastForward.settle := by
    unfold pollHotkeys
    dsimp only
    rw [actOnHotkeys_of_unpressed hkeys]
    rfl
  have hnone : w.pollHotkeys.stopRequested = false := by
    rw [hpolled]
    split
    · exact hstop
    · exact (stopRequested_settle _).trans hstop
  show w.pollHotkeys.takeStop = _
  unfold takeStop
  rw [hnone, ← hpolled]
  rfl

theorem twins_poll (hkeys : ∀ k, w.sampleHotkeys.edges.pressed k = false)
    (hstop : w.stopRequested = false) : Twins w w.poll := by
  have hsample : Twins w w.sampleHotkeys := .of_control (.of_eq rfl rfl) rfl
  have hfast : Twins w w.sampleHotkeys.updateFastForward := .of_control (.of_eq rfl rfl) rfl
  rw [poll_of_unpressed hkeys hstop]
  split
  · exact hsample
  · exact hfast.trans (twins_settle _)

theorem twins_frameWith (w : Worker F M) {meanwhile : List (Outside F)}
    (hunread : ∀ o ∈ meanwhile, o ≠ .readNotices) : Twins w (w.frameWith meanwhile) := by
  cases hw : w.machine with
  | none =>
    unfold frameWith
    rw [hw]
    split
    · exact w.twins_settleFrame
    · exact .of_control (.refl w) rfl
  | some i =>
    have hsome : w.machine.isSome = true := by rw [hw, Option.isSome_some]
    rcases w.frameWith_eq meanwhile with ⟨-, h⟩ | ⟨v, h, hkeeps, notices, hcontrol, hnotices⟩
    · rw [h]
      exact .of_control (.refl w) rfl
    · have hsame : v.control = w.control := by
        rw [hcontrol, hnotices hunread]
        rfl
      have htwins : Twins w v := .of_control (.of_booted hsome (hkeeps.booted hsome)) hsame
      rw [h]
      exact htwins.trans v.twins_settleFrame

end Passes

/-! ## Boots from the same ground -/

theorem machine_retarget (w : Worker F M) (path : Option Path) :
    (w.retarget path).machine = w.machine := by
  obtain ⟨journal, h⟩ := w.noteWrite_eq .cart (w.cart.checkFlush w.world.files).written
  show (w.noteWrite .cart _).machine = w.machine
  rw [h]

theorem ground_retarget (w : Worker F M) (path : Option Path) :
    (w.retarget path).ground =
      { w.ground with
        files := (w.ground.cart.checkFlush w.ground.files).files
        cart := (w.ground.cart.checkFlush w.ground.files).store.setPath path } := by
  obtain ⟨hfiles, hstore⟩ := w.cart.undated_checkFlush w.world.files
  obtain ⟨journal, h⟩ := w.noteWrite_eq .cart (w.cart.checkFlush w.world.files).written
  show (⟨(w.noteWrite .cart _).id, (w.noteWrite .cart _).factory,
    (w.cart.checkFlush w.world.files).files,
    (w.cart.checkFlush w.world.files).store.undated.setPath path⟩ : Ground F) = _
  rw [h, hfiles, hstore]
  rfl

theorem ground_setCartPath (w : Worker F M) (path : Option Path) :
    (w.setCartPath path).ground = { w.ground with cart := w.ground.cart.setPath path } := rfl

theorem ground_receiveAll (h : w.ground = v.ground) (number : Nat) (other : Nat)
    (requests : List Request) :
    (w.receiveAll number requests).ground = (v.receiveAll other requests).ground := by
  induction requests generalizing w v with
  | nil => exact h
  | cons q requests ih =>
    refine ih ?_
    cases q with
    | saveCart image offset length =>
      -- the times of the requests may differ
      have hcart : ∀ (u : Worker F M) (boot : Nat),
          (receive boot u (.saveCart image offset length)).ground =
            { u.ground with cart := (u.ground.cart.request 0 image offset length).undated } :=
        fun _ _ => rfl
      rw [hcart, hcart, h]
    | saveFirmware image offset length => exact h
    | stop => exact h

/-- The worker that has asked its factory for a machine, before it turns out whether there is one. -/
def asked (w : Worker F M) (rom : Option Rom) (savePath : Option Path) (b : Boot F M) : Worker F M :=
  { (w.retarget savePath).note (.asked w.boots rom) with
    boots := w.boots + 1, factory := b.factory }.receiveAll w.boots b.requests

theorem machine_asked (w : Worker F M) (rom : Option Rom) (savePath : Option Path) (b : Boot F M) :
    (w.asked rom savePath b).machine = w.machine := by
  let told : Worker F M :=
    { (w.retarget savePath).note (.asked w.boots rom) with
      boots := w.boots + 1, factory := b.factory }
  obtain ⟨cart, firmware, stopRequested, journal, h⟩ := told.receiveAll_eq w.boots b.requests
  show (told.receiveAll w.boots b.requests).machine = w.machine
  rw [h]
  exact w.machine_retarget savePath

theorem ground_asked (h : w.ground = v.ground) (rom : Option Rom) (savePath : Option Path)
    (b : Boot F M) : (w.asked rom savePath b).ground = (v.asked rom savePath b).ground := by
  refine ground_receiveAll ?_ w.boots v.boots b.requests
  show { (w.retarget savePath).ground with factory := b.factory } =
    { (v.retarget savePath).ground with factory := b.factory }
  rw [ground_retarget, ground_retarget, h]

section Commands

variable [Machine M] [Factory F M]

omit [Factory F M] in
theorem isSome_install (w : Worker F M) (i : Installed M) : (w.install i).machine.isSome = true :=
  isSome_use _ i _ _

theorem boot_eq (w : Worker F M) (rom : Option Rom) (savePath : Option Path) :
    w.boot rom savePath =
      match (askFactory w.factory rom : Boot F M).machine with
      | .ok m =>
        ((w.asked rom savePath (askFactory w.factory rom)).install ⟨w.boots, m⟩, .ok ())
      | .error e =>
        ((w.asked rom savePath (askFactory w.factory rom)).setCartPath w.cart.path,
          .error (.machine e)) := by
  have hfactory : ((w.retarget savePath).note (.asked w.boots rom)).factory = w.factory :=
    congrArg Ground.factory (w.ground_retarget savePath)
  unfold boot
  dsimp only
  rw [hfactory]
  rfl

theorem boot_cases (w : Worker F M) (rom : Option Rom) (savePath : Option Path) :
    let b : Boot F M := askFactory w.factory rom
    (∃ m, b.machine = .ok m ∧ (w.boot rom savePath).1.machine.isSome = true) ∨
    ∃ e, b.machine = .error e ∧
      (w.boot rom savePath).1 = (w.asked rom savePath b).setCartPath w.cart.path := by
  dsimp only
  rw [boot_eq]
  split
  · next m hm => exact .inl ⟨m, hm, isSome_install _ _⟩
  · next e he => exact .inr ⟨e, he, rfl⟩

theorem alike_boot (hw : w.machine = none) (hv : v.machine = none) (h : w.ground = v.ground)
    (rom : Option Rom) (savePath : Option Path) :
    Alike (w.boot rom savePath).1 (v.boot rom savePath).1 := by
  have hfactory : w.factory = v.factory := congrArg Ground.factory h
  have hpath : w.cart.path = v.cart.path := congrArg (fun g => g.cart.path) h
  rcases w.boot_cases rom savePath with ⟨m, hm, hbooted⟩ | ⟨e, he, hfailed⟩
  · rcases v.boot_cases rom savePath with ⟨-, -, hother⟩ | ⟨e, he, -⟩
    · exact .of_booted hbooted hother
    · rw [← hfactory, hm] at he
      cases he
  · rcases v.boot_cases rom savePath with ⟨m, hm, -⟩ | ⟨-, -, hother⟩
    · rw [← hfactory, he] at hm
      cases hm
    · rw [hfailed, hother, ← hfactory, ← hpath]
      refine .of_eq ?_ ?_
      · show (w.asked rom savePath _).machine = (v.asked rom savePath _).machine
        rw [machine_asked, machine_asked, hw, hv]
      · rw [ground_setCartPath, ground_setCartPath, ground_asked h]

theorem alike_bootRom (hw : w.machine = none) (hv : v.machine = none) (h : w.ground = v.ground)
    (paths : List Path) : Alike (w.bootRom paths).1 (v.bootRom paths).1 := by
  have hfiles : w.world.files = v.world.files := congrArg Ground.files h
  have hid : w.id = v.id := congrArg Ground.id h
  unfold bootRom
  rw [← hfiles, ← hid]
  split
  · exact .of_eq (hw.trans hv.symm) h
  · exact alike_boot hw hv h _ _

/-! ## One command -/

theorem apply_of_needsMachine {c : Command} (hc : c.NeedsMachine) (hw : w.machine = none) :
    (w.apply c).1 = w := by
  cases c with
  | reset => simp [apply, reset, hw]
  | insertCart paths => simp [apply, insertCart, hw]
  | saveState path => simp [apply, saveState, hw]
  | loadState path => simp [apply, loadState, hw]
  | undoLoad => simp [apply, undoLoad, hw]
  | importSave path => simp [apply, importSave, hw]
  | setCheats on => simp [apply, useIfAny, hw]
  | _ => exact hc.elim

theorem Alike.apply (h : Alike w v) (c : Command) : Alike (w.apply c).1 (v.apply c).1 := by
  cases hw : w.machine with
  | some i =>
    -- no command loses a machine, and with one on both sides nothing else matters
    have hsome : w.machine.isSome = true := by rw [hw, Option.isSome_some]
    have hother : v.machine.isSome = true := h.booted.symm.trans hsome
    exact .of_booted ((w.keeps_apply c).booted hsome) ((v.keeps_apply c).booted hother)
  | none =>
    have hnone : w.machine.isSome = false := by rw [hw, Option.isSome_none]
    have hv : v.machine = none := by simpa [hnone] using h.booted.symm
    have hground := h.ground hnone
    have hsame : ∀ {w' v' : Worker F M}, Alike w w' → Alike v v' → Alike w' v' :=
      fun hww hvv => hww.symm.trans (h.trans hvv)
    have hcall : ∀ (call : Call) (act : M → Outcome M Unit), w.useIfAny call act = w ∧
        v.useIfAny call act = v := by
      intro call act
      simp [useIfAny, hw, hv]
    have hidle : c.NeedsMachine → Alike (w.apply c).1 (v.apply c).1 := by
      intro hc
      rw [apply_of_needsMachine hc hw, apply_of_needsMachine hc hv]
      exact h
    cases c with
    | run => exact hsame (.of_eq rfl rfl) (.of_eq rfl rfl)
    | pause => exact hsame w.alike_pause v.alike_pause
    | unpause => exact hsame w.alike_unpause v.alike_unpause
    | stop external =>
      obtain ⟨hstop, hother⟩ := hcall .stop Machine.stop
      have halt : ∀ u : Worker F M, u.useIfAny .stop Machine.stop = u →
          Alike u (u.stop external) := by
        intro u hu
        unfold stop
        rw [hu, ite_self]
        exact .of_eq rfl rfl
      exact hsame (halt w hstop) (halt v hother)
    | frameStep => exact hsame w.alike_frameStep v.alike_frameStep
    | exit => exact hsame (.of_eq rfl rfl) (.of_eq rfl rfl)
    | bootRom paths => exact alike_bootRom hw hv hground paths
    | bootFirmware => exact alike_boot hw hv hground none none
    | ejectCart =>
      obtain ⟨heject, hother⟩ := hcall .ejectCart Machine.ejectCart
      show Alike w.ejectCart v.ejectCart
      unfold ejectCart
      rw [heject, hother]
      refine .of_eq ?_ ?_
      · rw [machine_retarget, machine_retarget, hw, hv]
      · rw [ground_retarget, ground_retarget, hground]
    | reset => exact hidle trivial
    | insertCart paths => exact hidle trivial
    | saveState path => exact hidle trivial
    | loadState path => exact hidle trivial
    | undoLoad => exact hidle trivial
    | importSave path => exact hidle trivial
    | setCheats on => exact hidle trivial

theorem alike_handle (h : Alike w v) {e f : Envelope} (hcommand : e.command = f.command)
    (hstatus : w.status = .exiting ↔ v.status = .exiting) : Alike (w.handle e) (v.handle f) := by
  have hserve : ∀ (u : Worker F M) (g : Envelope), Alike (u.apply g.command).1 (u.serve g) := by
    intro u g
    unfold serve
    dsimp only
    split
    · refine Alike.trans ?_ (alike_settle _)
      exact .of_eq rfl rfl
    · exact (alike_settle _).trans (alike_respond _ _ _)
  have hnoted : Alike (w.note (.taken e)) (v.note (.taken f)) := ⟨h.booted, h.ground⟩
  unfold handle
  dsimp only
  by_cases hw : w.status = .exiting
  · have hwnote : (w.note (.taken e)).status = .exiting := hw
    have hvnote : (v.note (.taken f)).status = .exiting := hstatus.mp hw
    rw [if_pos hwnote, if_pos hvnote]
    exact (alike_respond _ _ _).symm.trans (hnoted.trans (alike_respond _ _ _))
  · have hwnote : (w.note (.taken e)).status ≠ .exiting := hw
    have hvnote : (v.note (.taken f)).status ≠ .exiting := fun hv => hw (hstatus.mpr hv)
    rw [if_neg hwnote, if_neg hvnote]
    have happlied := hnoted.apply e.command
    refine (hserve _ e).symm.trans (happlied.trans ?_)
    rw [hcommand]
    exact hserve _ f

theorem Twins.handle (h : Twins w v) (hw : w.control.Paced) (hv : v.control.Paced) {e f : Envelope}
    (hcommand : e.command = f.command) : Twins (w.handle e) (v.handle f) := by
  have hstatus : w.status = .exiting ↔ v.status = .exiting := by
    have hrested := congrArg Control.status h.rested
    have hexiting : w.control.rested.status = .exiting ↔ w.status = .exiting :=
      Control.exiting_rested
    rw [hrested] at hexiting
    exact hexiting.symm.trans Control.exiting_rested
  refine ⟨alike_handle h.toAlike hcommand hstatus, ?_⟩
  by_cases hexiting : w.status = .exiting
  · rw [control_handle_of_exiting hexiting, control_handle_of_exiting (hstatus.mp hexiting)]
    exact h.rested
  · have hother : v.status ≠ .exiting := fun hvexiting => hexiting (hstatus.mpr hvexiting)
    rw [control_handle hexiting, control_handle hother, ← hw.rested_obey, ← hv.rested_obey,
      h.rested, h.booted, hcommand]

/-! ## Runs -/

theorem twins_step {a : Act F} (ha : ∀ e, a ≠ .take e) (h : w.Undisturbed a) :
    Twins w (w.step a) := by
  cases a with
  | take e => exact absurd rfl (ha e)
  | poll => exact twins_poll h.1 h.2
  | frame meanwhile => exact w.twins_frameWith h
  | outside o => exact w.twins_outside h.1 h.2
  | shutdown => exact h.elim

/-- The run that takes the same commands and does nothing else ends in a twin. -/
theorem twins_run (h : Twins w v) (hw : w.control.Paced) (hv : v.control.Paced) {acts : List (Act F)}
    (hacts : w.Along Undisturbed acts) :
    Twins (w.run acts) (v.run ((commands acts).map fun c => .take ⟨c, none⟩)) := by
  induction acts generalizing w v with
  | nil => exact h
  | cons a acts ih =>
    obtain ⟨ha, hrest⟩ := along_cons.mp hacts
    have hshutdown : a ≠ .shutdown := by
      rintro rfl
      exact ha
    have hpaced : (w.step a).control.Paced := paced_step hw hshutdown
    -- a command moves both workers, and anything else only the first of them
    by_cases htake : ∃ e, a = .take e
    · obtain ⟨e, rfl⟩ := htake
      have hother : (v.step (.take ⟨e.command, none⟩)).control.Paced := paced_step hv nofun
      exact ih (h.handle hw hv rfl) hpaced hother hrest
    · have hnone : ∀ e, a ≠ .take e := fun e he => htake ⟨e, he⟩
      have hself : Twins w (w.step a) := twins_step hnone ha
      have hcommands : commands (a :: acts) = commands acts := by
        cases a with
        | take e => exact absurd rfl (hnone e)
        | _ => rfl
      rw [hcommands]
      exact ih (hself.symm.trans h) hpaced hv hrest

end Commands

/-- **What commands do does not depend on the frames between them.** Take two runs that go on from the
same point of a run of a worker and are undisturbed: no hotkey goes down, no wish to be stopped is found,
and what a first boot depends on is left to the worker. If they take the same commands in the same order,
for whomever, in whatever passes and with whatever frames in between, then pauses, activity, sound and
messages are the same in the end, and so is the status, a step that is still to run being read as
paused. -/
theorem control_independent_of_frames [Machine M] [Factory F M] (id : Nat) (factory : F)
    (world : World) (cartSave firmwareSave : Option Path) (audio : Pipeline) (mic : MicInput)
    (early : List (Act F)) (hearly : .shutdown ∉ early) (acts others : List (Act F)) :
    let w : Worker F M := .new id factory world cartSave firmwareSave audio mic
    let v := w.run early
    v.Along Undisturbed acts → v.Along Undisturbed others → commands acts = commands others →
      (v.run acts).control.rested = (v.run others).control.rested := by
  intro w v hacts hothers hsame
  have hpaced : v.control.Paced :=
    paced_run (paced_new id factory world cartSave firmwareSave audio mic) hearly
  have hself : Twins v v := .of_control (.refl v) rfl
  have hfirst := twins_run hself hpaced hpaced hacts
  have hsecond := twins_run hself hpaced hpaced hothers
  rw [hsame] at hfirst
  exact hfirst.rested.trans hsecond.rested.symm

/-- A step that is still to run after one pass, and the same step over after four. -/
theorem control_of_step_to_run_or_over :
    let w : Worker ScriptFactory ScriptMachine := rehearsal {} (.empty [])
    let atOnce := w.passes [[⟨.bootFirmware, none⟩, ⟨.run, none⟩, ⟨.frameStep, some 1⟩,
      ⟨.pause, none⟩, ⟨.unpause, none⟩]]
    let spread := w.passes [[⟨.bootFirmware, none⟩, ⟨.run, none⟩], [⟨.frameStep, some 1⟩],
      [⟨.pause, none⟩], [⟨.unpause, none⟩]]
    atOnce.status = .frameStep ∧ atOnce.frames = 0 ∧ spread.status = .paused ∧ spread.frames = 2 ∧
      atOnce.control.rested = spread.control.rested := by
  intro w atOnce spread
  let first : List (Act ScriptFactory) :=
    [.poll, .frame [], .take ⟨.bootFirmware, none⟩, .take ⟨.run, none⟩]
  let acts : List (Act ScriptFactory) :=
    first ++ [.take ⟨.frameStep, some 1⟩, .take ⟨.pause, none⟩, .take ⟨.unpause, none⟩]
  let others : List (Act ScriptFactory) :=
    first ++ [.poll, .frame [], .take ⟨.frameStep, some 1⟩, .poll, .frame [],
      .take ⟨.pause, none⟩, .poll, .frame [], .take ⟨.unpause, none⟩]
  have hatOnce : atOnce = w.run acts := w.passes_eq_run _
  have hspread : spread = w.run others := w.passes_eq_run _
  have hpoll : ∀ v : Worker ScriptFactory ScriptMachine, v.input.hotkeysDown = {} →
      v.stopRequested = false → v.Undisturbed .poll :=
    fun v hkeys hstop => ⟨v.unpressed_of_none_down hkeys, hstop⟩
  have hframe : ∀ v : Worker ScriptFactory ScriptMachine, v.Undisturbed (.frame []) := by
    intro v o ho
    cases ho
  have hpass : ∀ {v : Worker ScriptFactory ScriptMachine} {late : List (Act ScriptFactory)},
      v.input.hotkeysDown = {} → v.stopRequested = false →
      (v.run [.poll, .frame []]).Along Undisturbed late →
      v.Along Undisturbed (.poll :: .frame [] :: late) :=
    fun hkeys hstop hlate => along_cons.mpr ⟨hpoll _ hkeys hstop, along_cons.mpr ⟨hframe _, hlate⟩⟩
  have htake : ∀ {v : Worker ScriptFactory ScriptMachine} {e : Envelope}
      {late : List (Act ScriptFactory)}, (v.handle e).Along Undisturbed late →
      v.Along Undisturbed (.take e :: late) :=
    fun hlate => along_cons.mpr ⟨trivial, hlate⟩
  have hacts : w.Along Undisturbed acts :=
    hpass (by decide) (by decide) <| htake <| htake <| htake <| htake <| htake <| along_nil _ _
  have hothers : w.Along Undisturbed others :=
    hpass (by decide) (by decide) <| htake <| htake <| hpass (by decide) (by decide) <| htake <|
      hpass (by decide) (by decide) <| htake <| hpass (by decide) (by decide) <| htake <|
      along_nil _ _
  have hsame := control_independent_of_frames 0 (⟨{}, false⟩ : ScriptFactory) ⟨.empty [], {}, 0⟩ none
    none (.new 0 {} {} {}) (.new (.empty []) .silence none) [] (by simp) acts others hacts hothers rfl
  rw [hatOnce, hspread]
  exact ⟨by decide, by decide, by decide, by decide, hsame⟩

end Worker

end Handheld
