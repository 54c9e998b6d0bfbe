import Handheld.Proofs.Worker.Runs

/-!
# The control of a worker

Status, pauses, activity, sound and messages are what is steered from outside: `Control`, with what
commands and hotkeys make of it. Everything else a worker does leaves its control alone (`Aside`), and
nothing but settling and replying concerns its callers (`Keeps`).
-/

namespace Handheld

/-- What is steered from outside. -/
structure Control where
  status : Status
  pauses : PauseStack
  active : Bool
  /-- Sound is let out. -/
  sounding : Bool
  notices : List String
deriving DecidableEq

namespace Control

def notify (c : Control) (message : String) : Control :=
  { c with
    notices := (if c.notices.length = noticeLimit then c.notices.drop 1 else c.notices) ++ [message] }

def goLive (c : Control) : Control :=
  { c with status := .running, pauses := c.pauses.clear, active := true, sounding := true }

def pause (c : Control) : Control :=
  if c.pauses.depth = 0 then
    let paused := { c with pauses := ⟨1, c.status⟩ }
    if c.status = .paused then paused
    else { paused with status := .paused, sounding := false }.notify "Paused"
  else { c with pauses := { c.pauses with depth := c.pauses.depth + 1 } }

def unpause (c : Control) : Control :=
  if c.pauses.depth = 1 then
    let resumed := { c with status := c.pauses.saved, pauses := c.pauses.clear }
    if c.pauses.saved = .paused then resumed else { resumed with sounding := true }.notify "Resumed"
  else { c with pauses := { c.pauses with depth := c.pauses.depth - 1 } }

def frameStep (c : Control) : Control :=
  { (if c.pauses.depth = 0 then c.pause else c) with status := .frameStep }

def halt (c : Control) : Control := { c with status := .paused, active := false, sounding := false }

def exit (c : Control) : Control :=
  { c with status := .exiting, pauses := c.pauses.clear, sounding := false }

def obey (booted : Bool) (c : Control) : Command → Control
  | .run => c.goLive
  | .pause => c.pause
  | .unpause => c.unpause
  | .stop _ => c.halt
  | .frameStep => c.frameStep
  | .reset => if booted then c.goLive.notify "Reset" else c
  | .exit => c.exit
  | _ => c

def press (booted : Bool) (c : Control) : Hotkey → Control
  | .pause => c.obey booted (if c.status = .paused then .unpause else .pause)
  | .reset => c.obey booted .reset
  | .powerButton => if c.active then c.obey booted (.stop true) else c
  | .frameStep => c.obey booted .frameStep
  | _ => c

/-- A step that is still to run, read as the pause it ends in. -/
def rested (c : Control) : Control :=
  { c with status := if c.status = .frameStep then .paused else c.status }

theorem depth_pause (c : Control) : c.pause.pauses.depth = c.pauses.depth + 1 := by
  unfold pause
  by_cases hdepth : c.pauses.depth = 0
  · by_cases hstatus : c.status = .paused <;> simp [notify, hdepth, hstatus]
  · simp [hdepth]

theorem depth_unpause (c : Control) : c.unpause.pauses.depth = c.pauses.depth - 1 := by
  unfold unpause
  by_cases hdepth : c.pauses.depth = 1
  · by_cases hsaved : c.pauses.saved = .paused <;> simp [notify, PauseStack.clear, hdepth, hsaved]
  · simp [hdepth]

theorem depth_frameStep (c : Control) : c.frameStep.pauses.depth = max 1 c.pauses.depth := by
  unfold frameStep
  by_cases hdepth : c.pauses.depth = 0
  · rw [if_pos hdepth]
    refine c.depth_pause.trans ?_
    omega
  · rw [if_neg hdepth]
    show c.pauses.depth = _
    omega

end Control

/-- The hotkeys that steer, in the order in which a worker looks at them. -/
def Hotkey.steering : List Hotkey := [.pause, .reset, .powerButton, .frameStep]

/-- An event that tells of no command taken and of no reply. -/
def Event.Silent : Event → Prop
  | .taken _ => False
  | .answered _ _ _ => False
  | _ => True

namespace Worker

variable {F M : Type}

def control (w : Worker F M) : Control :=
  ⟨w.status, w.pauses, w.active, w.audio.enabled, w.notices⟩

/-- Whoever waited still does, nobody was taken on or answered, and no machine was lost. -/
structure Keeps (w v : Worker F M) : Prop where
  waiting : v.waiting = w.waiting
  adds : Adds Event.Silent w v
  booted : w.machine.isSome = true → v.machine.isSome = true

/-- Besides, the control is what it was. -/
structure Aside (w v : Worker F M) : Prop extends Keeps w v where
  control : v.control = w.control

variable {u v w : Worker F M}

theorem Keeps.trans (huv : Keeps u v) (hvw : Keeps v w) : Keeps u w where
  waiting := hvw.waiting.trans huv.waiting
  adds := huv.adds.trans hvw.adds
  booted := fun h => hvw.booted (huv.booted h)

theorem Aside.trans (huv : Aside u v) (hvw : Aside v w) : Aside u w where
  toKeeps := huv.toKeeps.trans hvw.toKeeps
  control := hvw.control.trans huv.control

theorem Keeps.of_eq (hwaiting : v.waiting = w.waiting) (hjournal : v.journal = w.journal)
    (hmachine : v.machine = w.machine) : Keeps w v where
  waiting := hwaiting
  adds := .of_eq hjournal
  booted := fun h => by rw [hmachine, h]

theorem Aside.of_eq (hcontrol : v.control = w.control) (hwaiting : v.waiting = w.waiting)
    (hjournal : v.journal = w.journal) (hmachine : v.machine = w.machine) : Aside w v where
  toKeeps := .of_eq hwaiting hjournal hmachine
  control := hcontrol

theorem Aside.refl (w : Worker F M) : Aside w w := .of_eq rfl rfl rfl rfl

theorem aside_note (w : Worker F M) {e : Event} (h : e.Silent) : Aside w (w.note e) where
  waiting := rfl
  adds := w.adds_note h
  booted := fun hw => hw
  control := rfl

/-! ## Calls on the machine -/

theorem aside_receiveAll (w : Worker F M) (boot : Nat) (requests : List Request) :
    Aside w (w.receiveAll boot requests) := by
  have hadds : Adds Event.Silent w (w.receiveAll boot requests) := by
    refine ⟨_, w.journal_receiveAll boot requests, fun e he => ?_⟩
    obtain ⟨q, -, rfl⟩ := List.mem_map.mp (List.mem_reverse.mp he)
    trivial
  obtain ⟨cart, firmware, stopRequested, journal, h⟩ := w.receiveAll_eq boot requests
  refine ⟨⟨by rw [h], hadds, fun hw => ?_⟩, ?_⟩
  · rw [h]
    exact hw
  · rw [h]
    rfl

theorem machine_use {α : Type} (w : Worker F M) (i : Installed M) (call : α → Call)
    (act : M → Outcome M α) :
    (w.use i call act).2.machine = some { i with machine := (act i.machine).machine } := by
  obtain ⟨cart, firmware, stopRequested, journal, h⟩ := receiveAll_eq
    ({ w with machine := some { i with machine := (act i.machine).machine } }.note
      (.called i.boot (call (act i.machine).answer))) i.boot (act i.machine).requests
  show (receiveAll _ i.boot (act i.machine).requests).machine = _
  rw [h]
  rfl

theorem isSome_use {α : Type} (w : Worker F M) (i : Installed M) (call : α → Call)
    (act : M → Outcome M α) : (w.use i call act).2.machine.isSome = true := by
  rw [machine_use, Option.isSome_some]

theorem aside_use {α : Type} (w : Worker F M) (i : Installed M) (call : α → Call)
    (act : M → Outcome M α) : Aside w (w.use i call act).2 := by
  obtain ⟨machine, cart, firmware, stopRequested, journal, h⟩ := w.use_eq i call act
  have hadds : Adds Event.Silent w (w.use i call act).2 :=
    w.adds_use i call act trivial fun _ => trivial
  refine ⟨⟨by rw [h], hadds, fun _ => w.isSome_use i call act⟩, ?_⟩
  rw [h]
  rfl

theorem aside_useIfAny (w : Worker F M) (call : Call) (act : M → Outcome M Unit) :
    Aside w (w.useIfAny call act) := by
  unfold useIfAny
  split
  · exact .refl w
  · exact w.aside_use _ _ act

theorem isSome_useIfAny (w : Worker F M) (call : Call) (act : M → Outcome M Unit) :
    (w.useIfAny call act).machine.isSome = w.machine.isSome := by
  unfold useIfAny
  split
  · rfl
  · next i hi => rw [isSome_use, hi, Option.isSome_some]

/-! ## Saves -/

theorem aside_noteWrite (w : Worker F M) (kind : SaveKind) (write : Option SaveWrite) :
    Aside w (w.noteWrite kind write) := by
  cases write with
  | none => exact .refl w
  | some s => exact w.aside_note trivial

theorem aside_flushCart (w : Worker F M) : Aside w w.flushCart.2 :=
  (w.aside_noteWrite .cart _).trans (.of_eq rfl rfl rfl rfl)

theorem aside_flushFirmware (w : Worker F M) : Aside w w.flushFirmware.2 :=
  (w.aside_noteWrite .firmware _).trans (.of_eq rfl rfl rfl rfl)

theorem aside_setCartPath (w : Worker F M) (path : Option Path) : Aside w (w.setCartPath path) := by
  have hnote : Aside w (w.note (.pointed path)) := w.aside_note trivial
  exact hnote.trans (.of_eq rfl rfl rfl rfl)

theorem aside_retarget (w : Worker F M) (path : Option Path) : Aside w (w.retarget path) :=
  w.aside_flushCart.trans (aside_setCartPath _ path)

variable [Machine M]

/-! ## Frames and what is outside -/

omit [Machine M] in
theorem aside_outside (w : Worker F M) {o : Outside F} (h : o ≠ .readNotices) :
    Aside w (w.outside o) := by
  cases o with
  | flush kind =>
    cases kind with
    | cart => exact w.aside_flushCart
    | firmware => exact w.aside_flushFirmware
  | readNotices => exact absurd rfl h
  | _ => exact .of_eq rfl rfl rfl rfl

omit [Machine M] in
theorem keeps_outside (w : Worker F M) (o : Outside F) : Keeps w (w.outside o) ∧
    ∃ notices, (w.outside o).control = { w.control with notices } ∧
      (o ≠ .readNotices → notices = w.notices) := by
  by_cases h : o = .readNotices
  · subst h
    exact ⟨.of_eq rfl rfl rfl, [], rfl, fun hne => absurd rfl hne⟩
  · have haside : Aside w (w.outside o) := w.aside_outside h
    exact ⟨haside.toKeeps, w.notices, haside.control, fun _ => rfl⟩

omit [Machine M] in
theorem keeps_outsideAll (w : Worker F M) (meanwhile : List (Outside F)) :
    Keeps w (w.outsideAll meanwhile) ∧
    ∃ notices, (w.outsideAll meanwhile).control = { w.control with notices } ∧
      ((∀ o ∈ meanwhile, o ≠ .readNotices) → notices = w.notices) := by
  induction meanwhile generalizing w with
  | nil => exact ⟨.of_eq rfl rfl rfl, w.notices, rfl, fun _ => rfl⟩
  | cons o meanwhile ih =>
    obtain ⟨hfirst, first, hfirstControl, hfirstUnread⟩ := w.keeps_outside o
    obtain ⟨hrest, rest, hrestControl, hrestUnread⟩ := ih (w.outside o)
    have hnotices : (w.outside o).notices = first := congrArg Control.notices hfirstControl
    refine ⟨hfirst.trans hrest, rest, hrestControl.trans ?_, fun hunread => ?_⟩
    · rw [hfirstControl]
    · rw [hrestUnread fun p hp => hunread p (List.mem_cons_of_mem o hp), hnotices]
      exact hfirstUnread (hunread o List.mem_cons_self)

theorem aside_beginFrame (w : Worker F M) (i : Installed M) : Aside w (w.beginFrame i).2 := by
  let heard := w.mic.nextFrame (w.edges.down .mic)
  have hheard : Aside w { w with mic := heard.2 } := .of_eq rfl rfl rfl rfl
  exact hheard.trans (aside_use _ i (fun _ => .hearMic heard.1) (Machine.hearMic · heard.1))

theorem aside_moveOutput (reads : Nat) (w : Worker F M) : Aside w (w.moveOutput reads) := by
  induction reads generalizing w with
  | zero => exact .refl w
  | succ reads ih =>
    unfold moveOutput
    split
    · exact .refl w
    · next i _ =>
      split
      · exact .refl w
      · have hread : Aside w (w.use i (fun out => .readOutput outputChunk out.length)
            (Machine.readOutput · outputChunk)).2 := w.aside_use i _ _
        dsimp only
        split
        · exact hread
        · refine (hread.trans ?_).trans (ih _)
          exact .of_eq rfl rfl rfl rfl

theorem aside_endFrame (w : Worker F M) (input : FrameInput) : Aside w (w.endFrame input) := by
  unfold endFrame
  split
  · exact .refl w
  · next i _ =>
    let ran := (w.use i (fun _ => .runFrame input) (Machine.runFrame · input)).2
    have hran : Aside w ran := w.aside_use i _ _
    have hmoved : Aside ran ran.moveAllOutput := by
      unfold moveAllOutput
      split
      · exact .refl ran
      · exact aside_moveOutput _ ran
    exact (hran.trans hmoved).trans (.of_eq rfl rfl rfl rfl)

/-! ## Cartridges, savestates and boots -/

theorem aside_install (w : Worker F M) (i : Installed M) : Aside w (w.install i) := by
  let cleared : Worker F M := { w.useIfAny .stop Machine.stop with backup := none }
  have hcleared : Aside w cleared :=
    (w.aside_useIfAny .stop Machine.stop).trans (.of_eq rfl rfl rfl rfl)
  exact hcleared.trans (cleared.aside_use i (fun _ => .start) Machine.start)

theorem aside_insertCart (w : Worker F M) (paths : List Path) : Aside w (w.insertCart paths).1 := by
  unfold insertCart
  split
  · exact .refl w
  · next i _ =>
    split
    · exact .refl w
    · next rom _ =>
      let aimed := w.retarget (some (cartSavePath rom.path w.id))
      have hused : Aside w
          (aimed.use i (fun _ => .insertCart rom) (Machine.insertCart · rom)).2 :=
        (w.aside_retarget _).trans (aimed.aside_use i _ _)
      dsimp only
      split
      · next v hv => rwa [show _ = v from congrArg Prod.snd hv] at hused
      · next e v hv =>
        rw [show _ = v from congrArg Prod.snd hv] at hused
        exact hused.trans (v.aside_setCartPath _)

theorem aside_ejectCart (w : Worker F M) : Aside w w.ejectCart :=
  (w.aside_useIfAny .ejectCart Machine.ejectCart).trans (aside_retarget _ none)

omit [Machine M] in
theorem aside_writeFile (w : Worker F M) (path : Path) (data : Bytes) :
    Aside w (w.writeFile path data).1 := by
  unfold writeFile
  split
  · exact .of_eq rfl rfl rfl rfl
  · split <;> exact .of_eq rfl rfl rfl rfl

theorem aside_takeState (w : Worker F M) (i : Installed M) : Aside w (w.takeState i).2 :=
  w.aside_use i Call.saveState Machine.saveState

theorem aside_saveState (w : Worker F M) (path : Path) : Aside w (w.saveState path).1 := by
  unfold saveState
  split
  · exact .refl w
  · next i _ =>
    have htaken : Aside w (w.takeState i).2 := w.aside_takeState i
    split
    · next v hv => rwa [hv] at htaken
    · next data v hv =>
      rw [hv] at htaken
      exact htaken.trans (v.aside_writeFile path data)

theorem aside_giveState (w : Worker F M) (data : Bytes) : Aside w (w.giveState data).1 := by
  unfold giveState
  split
  · exact .refl w
  · next i _ =>
    have hused : Aside w (w.use i (fun _ => .loadState data) (Machine.loadState · data)).2 :=
      w.aside_use i _ _
    split
    · next v hv => rwa [hv] at hused
    · next v hv => rwa [hv] at hused

theorem aside_takeBackup (w : Worker F M) (i : Installed M) : Aside w (w.takeBackup i) := by
  have htaken : Aside w (w.takeState i).2 := w.aside_takeState i
  unfold takeBackup
  split
  · next data v hv =>
    rw [hv] at htaken
    exact htaken.trans (.of_eq rfl rfl rfl rfl)
  · next v hv =>
    rw [hv] at htaken
    exact htaken.trans (.of_eq rfl rfl rfl rfl)

theorem aside_loadState (w : Worker F M) (path : Path) : Aside w (w.loadState path).1 := by
  unfold loadState
  split
  · exact .refl w
  · next i _ =>
    have hbackup : Aside w (if w.active then w.takeBackup i else w) := by
      split
      · exact w.aside_takeBackup i
      · exact .refl w
    dsimp only
    split
    · exact hbackup
    · exact hbackup.trans (aside_giveState _ _)

theorem aside_undoLoad (w : Worker F M) : Aside w w.undoLoad.1 := by
  unfold undoLoad
  split
  · exact .refl w
  · exact .refl w
  · next b _ _ =>
    let cleared : Worker F M := { w with backup := none }
    have hcleared : Aside w cleared := .of_eq rfl rfl rfl rfl
    have hgiven : Aside w (cleared.giveState b.data).1 :=
      hcleared.trans (cleared.aside_giveState b.data)
    split
    · next v e hv => rwa [show _ = v from congrArg Prod.fst hv] at hgiven
    · next v hv =>
      rw [show _ = v from congrArg Prod.fst hv] at hgiven
      split
      · exact hgiven.trans (v.aside_setCartPath _)
      · exact hgiven

theorem aside_importSave (w : Worker F M) (path : Path) : Aside w (w.importSave path).1 := by
  unfold importSave
  split
  · exact .refl w
  · next i _ =>
    split
    · exact .refl w
    · next data _ =>
      have hused : Aside w (w.use i (fun _ => .importSave data) (Machine.importSave · data)).2 :=
        w.aside_use i _ _
      split
      · next v hv => rwa [hv] at hused
      · next v hv => rwa [hv] at hused

variable [Factory F M]

theorem aside_boot (w : Worker F M) (rom : Option Rom) (savePath : Option Path) :
    Aside w (w.boot rom savePath).1 := by
  let asked : Worker F M :=
    { (w.retarget savePath).note (.asked w.boots rom) with boots := w.boots + 1 }
  let b : Boot F M := askFactory asked.factory rom
  let made := { asked with factory := b.factory }.receiveAll w.boots b.requests
  have hasked : Aside w asked := by
    have hnote : Aside w ((w.retarget savePath).note (.asked w.boots rom)) :=
      (w.aside_retarget savePath).trans (aside_note _ trivial)
    exact hnote.trans (.of_eq rfl rfl rfl rfl)
  have hmade : Aside w made := by
    have hfactory : Aside w { asked with factory := b.factory } :=
      hasked.trans (.of_eq rfl rfl rfl rfl)
    exact hfactory.trans (aside_receiveAll _ _ _)
  unfold boot
  dsimp only
  split
  · exact hmade.trans (made.aside_install _)
  · exact hmade.trans (made.aside_setCartPath _)

theorem aside_bootRom (w : Worker F M) (paths : List Path) : Aside w (w.bootRom paths).1 := by
  unfold bootRom
  split
  · exact .refl w
  · exact w.aside_boot _ _

end Worker

end Handheld
