import Handheld.Proofs.Worker.Batching
import Handheld.Proofs.Worker.Pausing
import Handheld.Proofs.Worker.Showing
import Handheld.Proofs.Worker.Unmoved
import Handheld.Worker.Thread

/-!
# Whose pauses are outstanding

A worker counts its pauses and does not know whose they are; the commands it has taken tell (`tally`). A
release takes a pause of whoever releases, if there is one, and else somebody else's. While no hotkey is
down and nobody asks it to exit, a worker has as many pauses as its tally (`Booked`): taking a command
moves both alike (`Booked.handle`), and nothing else moves either (`Idles`).
-/

namespace Handheld

/-- Whose pauses are outstanding: those that go with the focus of the window, and those of all others. -/
structure Tally where
  /-- Pauses that others have asked for and not released. -/
  asked : Nat := 0
  /-- Pauses there are that do not go with the focus. A frame step leaves one as well. -/
  held : Nat := 0
  /-- Pauses there are that go with the focus. -/
  own : Nat := 0
  /-- Pauses of others that were released with the focus. -/
  lost : Nat := 0
deriving DecidableEq

namespace Tally

def depth (l : Tally) : Nat := l.held + l.own

/-- Others release a pause, theirs rather than that of the focus. -/
def release (l : Tally) : Tally :=
  { l with
    asked := l.asked - 1
    held := l.held - 1
    own := if l.held = 0 then l.own - 1 else l.own }

/-- A pause is released with the focus, its own rather than another. -/
def giveBack (l : Tally) : Tally :=
  if l.own = 0 then
    { l with held := l.held - 1, lost := if l.held = 0 then l.lost else l.lost + 1 }
  else { l with own := l.own - 1 }

/-- What a command makes of the pauses, with a machine or without one. -/
def take (l : Tally) (booted : Bool) (e : Envelope) : Tally :=
  match e.command with
  | .run => {}
  | .reset => if booted then {} else l
  | .pause =>
    if e.caller = some WorkerThread.keeper then { l with own := l.own + 1 }
    else { l with asked := l.asked + 1, held := l.held + 1 }
  | .unpause => if e.caller = some WorkerThread.keeper then l.giveBack else l.release
  | .frameStep => if l.depth = 0 then { l with held := 1 } else l
  | _ => l

theorem depth_release (l : Tally) : l.release.depth = l.depth - 1 := by
  unfold release depth
  dsimp only
  split <;> omega

theorem depth_frameStep (l : Tally) :
    (if l.depth = 0 then { l with held := 1 } else l).depth = max 1 l.depth := by
  unfold depth
  split
  · dsimp only
    omega
  · omega

theorem depth_giveBack (l : Tally) : l.giveBack.depth = l.depth - 1 := by
  unfold giveBack depth
  split
  · dsimp only
    omega
  · dsimp only
    omega

end Tally

def isBooted (events : List Event) : Bool :=
  events.any fun e =>
    match e with
    | .called _ .start => true
    | _ => false

/-- Whose pauses are outstanding after some events, newest first. -/
def tally : List Event → Tally
  | [] => {}
  | .taken e :: rest => (tally rest).take (isBooted rest) e
  | _ :: rest => tally rest

def Event.Untaken : Event → Prop
  | .taken _ => False
  | _ => True

theorem tally_append_of_untaken {added : List Event} (h : ∀ e ∈ added, e.Untaken)
    (events : List Event) : tally (added ++ events) = tally events := by
  induction added with
  | nil => rfl
  | cons e added ih =>
    obtain ⟨he, hadded⟩ := List.forall_mem_cons.mp h
    cases e with
    | taken => exact he.elim
    | _ => exact ih hadded

namespace Control

variable {c d : Control}

theorem depth_obey_take {l : Tally} (h : c.pauses.depth = l.depth) (booted : Bool) {e : Envelope}
    (he : e.command ≠ .exit) : (c.obey booted e.command).pauses.depth = (l.take booted e).depth := by
  unfold Tally.take
  cases hcommand : e.command with
  | run => rfl
  | pause =>
    refine c.depth_pause.trans ?_
    rw [h]
    dsimp only
    split <;> simp only [Tally.depth] <;> omega
  | unpause =>
    refine c.depth_unpause.trans ?_
    rw [h]
    dsimp only
    split
    · exact l.depth_giveBack.symm
    · exact l.depth_release.symm
  | frameStep =>
    refine c.depth_frameStep.trans ?_
    rw [h]
    exact l.depth_frameStep.symm
  | reset =>
    cases booted with
    | true => rfl
    | false => exact h
  | exit => exact absurd hcommand he
  | _ => exact h

theorem Step.idle (h : Step (fun _ => False) c d) :
    d.pauses = c.pauses ∧ (c.status ≠ .exiting → d.status ≠ .exiting) := by
  cases h with
  | obey booted hawake hnone => exact hnone.elim
  | halt => exact ⟨rfl, nofun⟩
  | rest =>
    refine ⟨rfl, fun hawake => ?_⟩
    show (if c.status = .frameStep then Status.paused else c.status) ≠ .exiting
    split
    · nofun
    · exact hawake
  | tell notices => exact ⟨rfl, id⟩

theorem idle_steps (h : Relation.ReflTransGen (Step fun _ => False) c d) :
    d.pauses = c.pauses ∧ (c.status ≠ .exiting → d.status ≠ .exiting) := by
  induction h with
  | refl => exact ⟨rfl, id⟩
  | tail _ hstep ih => exact ⟨hstep.idle.1.trans ih.1, fun hawake => hstep.idle.2 (ih.2 hawake)⟩

end Control

theorem Standing.isSome_boot_steps {may : License → Prop} {s t : Standing} (hvacate : ¬may .vacate)
    (h : s.boot.isSome = isBooted s.journal) (hsteps : Relation.ReflTransGen (Step may) s t) :
    t.boot.isSome = isBooted t.journal := by
  induction hsteps with
  | refl => exact h
  | tail _ hstep ih =>
    cases hstep with
    | @enter e he =>
      cases e with
      | called => exact he.elim
      | _ => exact ih
    | @call b call _ hcall =>
      cases call with
      | start => exact absurd rfl hcall
      | _ => exact ih
    | vacate hmay => exact absurd hmay hvacate
    | start => rfl
    | _ => exact ih

namespace Worker

variable {F M : Type} {u v w : Worker F M}

/-! ## Between commands -/

/-- No command is taken, no pause is moved, the machine is not let go and the input is left alone. -/
structure Idles (w v : Worker F M) : Prop where
  steers : Steers (fun _ => False) w v
  shifts : Shifts (· ≠ .vacate) w v
  input : v.input = w.input
  adds : Adds Event.Untaken w v
  /-- What is published is what the worker is in. -/
  shown : w.shown = w.mirror → v.shown = v.mirror

theorem mirror_of_control (hcontrol : v.control = w.control) (hshown : v.shown = w.shown)
    (h : w.shown = w.mirror) : v.shown = v.mirror := by
  have hmirror : v.mirror = w.mirror :=
    congrArg (fun c : Control => (⟨c.status, c.pauses.depth, c.active⟩ : Shown)) hcontrol
  rw [hshown, h, hmirror]

theorem shown_of_shifts {may : License → Prop} (hsettle : ¬may .settle) (hw : w.standing.Numbered)
    (h : Shifts may w v) : v.shown = w.shown := (Standing.unsettled_steps hsettle (h hw)).1

theorem untaken_of_silent (h : Adds Event.Silent w v) : Adds Event.Untaken w v := by
  obtain ⟨added, hjournal, hsilent⟩ := h
  refine ⟨added, hjournal, fun e he => ?_⟩
  have := hsilent e he
  cases e with
  | taken => exact this.elim
  | _ => trivial

theorem Idles.of_eq (hcontrol : v.control = w.control) (hstanding : v.standing = w.standing)
    (hinput : v.input = w.input) : Idles w v where
  steers := .of_eq hcontrol
  shifts := .of_eq hstanding
  input := hinput
  adds := .of_eq (congrArg Standing.journal hstanding)
  shown := mirror_of_control hcontrol (congrArg Standing.shown hstanding)

theorem untaken_settle (w : Worker F M) : Adds Event.Untaken w w.settle :=
  w.adds_settle fun _ _ _ => trivial

theorem untaken_respond (w : Worker F M) (c : Option Caller) (r : Reply) :
    Adds Event.Untaken w (w.respond c r) := w.adds_respond c r fun _ _ => trivial

variable [Machine M]

theorem idles_poll (hw : w.control.Paced) (hstill : w.input.hotkeysDown = {}) : Idles w w.poll where
  steers := by
    have hkeys : Steers (fun _ => False) w w.pollHotkeys := by
      refine steers_pollHotkeys hw fun k hk => ?_
      rw [List.mem_filter, w.unpressed_of_none_down hstill] at hk
      exact absurd hk.2 Bool.false_ne_true
    exact Relation.ReflTransGen.trans hkeys w.pollHotkeys.steers_takeStop
  shifts :=
    (w.shifts_pollHotkeys (by nofun) (by nofun)).trans (w.pollHotkeys.shifts_takeStop (by nofun) (by nofun))
  input := w.unmoved_poll.input
  adds := by
    have hkeys : Adds Event.Untaken w w.pollHotkeys := by
      unfold pollHotkeys
      dsimp only
      rw [actOnHotkeys_of_unpressed (w.unpressed_of_none_down hstill)]
      split
      · exact .of_eq rfl
      · exact untaken_settle _
    refine hkeys.trans ?_
    show Adds Event.Untaken w.pollHotkeys w.pollHotkeys.takeStop
    unfold takeStop
    split
    · exact untaken_settle _
    · exact .of_eq rfl
  shown := by
    intro hshown
    have hkeys : w.pollHotkeys.shown = w.pollHotkeys.mirror := by
      unfold pollHotkeys
      dsimp only
      rw [actOnHotkeys_of_unpressed (w.unpressed_of_none_down hstill)]
      split
      · exact hshown
      · exact (settled_settle _).shown
    show w.pollHotkeys.takeStop.shown = w.pollHotkeys.takeStop.mirror
    unfold takeStop
    split
    · exact (settled_settle _).shown
    · exact hkeys

theorem idles_beginFrame (hw : w.standing.Numbered) {i : Installed M} (hi : w.machine = some i) :
    Idles w (w.beginFrame i).2 where
  steers := .of_eq (w.aside_beginFrame i).control
  shifts := shifts_beginFrame hi
  input := (w.unmoved_beginFrame i).input
  adds := untaken_of_silent (w.aside_beginFrame i).adds
  shown := by
    have hquiet : Shifts (fun _ => False) w (w.beginFrame i).2 := shifts_beginFrame hi
    exact mirror_of_control (w.aside_beginFrame i).control (shown_of_shifts not_false hw hquiet)

theorem idles_endFrame (hw : w.standing.Numbered) (input : FrameInput) : Idles w (w.endFrame input) where
  steers := .of_eq (w.aside_endFrame input).control
  shifts := w.shifts_endFrame input
  input := (w.unmoved_endFrame input).input
  adds := untaken_of_silent (w.aside_endFrame input).adds
  shown := by
    have hquiet : Shifts (fun _ => False) w (w.endFrame input) := w.shifts_endFrame input
    exact mirror_of_control (w.aside_endFrame input).control (shown_of_shifts not_false hw hquiet)

omit [Machine M] in
theorem idles_settleFrame (w : Worker F M) : Idles w w.settleFrame where
  steers := by
    rw [Steers, control_settleFrame]
    split
    · exact .single (.rest w.control)
    · exact .refl
  shifts := w.shifts_settleFrame nofun
  input := w.unmoved_settleFrame.input
  adds := by
    by_cases h : w.status = .frameStep
    · rw [settleFrame_of_step h]
      exact (Adds.of_eq rfl).trans (untaken_respond _ _ _)
    · rw [settleFrame, if_neg h]
      exact .of_eq rfl
  shown := by
    intro _
    by_cases h : w.status = .frameStep
    · rw [settleFrame_of_step h]
      cases w.waiting.head? <;> rfl
    · rw [settleFrame, if_neg h]
      rfl

/-! ## What the tally says -/

/-- There are as many pauses as the tally says, and neither a hotkey nor an exit has a say in it. -/
structure Booked (w : Worker F M) : Prop where
  numbered : w.standing.Numbered
  paced : w.control.Paced
  awake : w.status ≠ .exiting
  still : w.input.hotkeysDown = {}
  machine : w.machine.isSome = isBooted w.journal
  depth : w.pauses.depth = (tally w.journal).depth
  shown : w.shown = w.mirror

omit [Machine M] in
theorem booked_new (id : Nat) (factory : F) (world : World) (cartSave firmwareSave : Option Path)
    (audio : Pipeline) (mic : MicInput) :
    (new id factory world cartSave firmwareSave audio mic : Worker F M).Booked where
  numbered := numbered_new id factory world cartSave firmwareSave audio mic
  paced := paced_new id factory world cartSave firmwareSave audio mic
  awake := nofun
  still := by
    show InputState.hotkeysDown {} = {}
    decide
  machine := rfl
  depth := rfl
  shown := rfl

omit [Machine M] in
theorem isSome_machine_shifts {may : License → Prop} (hvacate : ¬may .vacate) (hw : w.Booked)
    (h : Shifts may w v) : v.machine.isSome = isBooted v.journal := by
  have hboot : ∀ u : Worker F M, u.standing.boot.isSome = u.machine.isSome := fun u => Option.isSome_map
  have hstart : w.standing.boot.isSome = isBooted w.standing.journal := (hboot w).trans hw.machine
  exact (hboot v).symm.trans (Standing.isSome_boot_steps hvacate hstart (h hw.numbered))

omit [Machine M] in
theorem Booked.idles (h : w.Booked) (hidles : Idles w v) : v.Booked := by
  obtain ⟨hpauses, hawake⟩ := Control.idle_steps hidles.steers
  obtain ⟨added, hjournal, huntaken⟩ := hidles.adds
  exact {
    numbered := h.numbered.steps (hidles.shifts h.numbered)
    paced := h.paced.steps hidles.steers
    awake := hawake h.awake
    still := hidles.input ▸ h.still
    machine := isSome_machine_shifts (fun hne => hne rfl) h hidles.shifts
    depth := by
      rw [hjournal, tally_append_of_untaken huntaken, ← h.depth]
      exact congrArg PauseStack.depth hpauses
    shown := hidles.shown h.shown }

omit [Machine M] in
/-- What is outside has no say in it, unless it presses hotkeys. -/
theorem Booked.outside (h : w.Booked) {o : Outside F}
    (ho : ∀ input, o = .input input → input.hotkeysDown = {}) : (w.outside o).Booked := by
  have hshifts : Shifts (· ≠ .vacate) w (w.outside o) := w.shifts_outside o fun _ => nofun
  obtain ⟨hkeeps, notices, hcontrol, -⟩ := w.keeps_outside o
  obtain ⟨added, hjournal, huntaken⟩ := untaken_of_silent hkeeps.adds
  exact {
    numbered := h.numbered.steps (hshifts h.numbered)
    paced := by
      rw [hcontrol]
      exact h.paced.notices notices
    awake := fun hexiting => h.awake ((congrArg Control.status hcontrol).symm.trans hexiting)
    still := by
      cases o with
      | input input => exact ho input rfl
      | flush kind => cases kind <;> exact (w.unmoved_flush _).input ▸ h.still
      | _ => exact h.still
    machine := isSome_machine_shifts (fun hne => hne rfl) h hshifts
    depth := by
      rw [hjournal, tally_append_of_untaken huntaken, ← h.depth]
      exact congrArg (fun c : Control => c.pauses.depth) hcontrol
    shown := by
      have hmirror : (w.outside o).mirror = w.mirror :=
        congrArg (fun c : Control => (⟨c.status, c.pauses.depth, c.active⟩ : Shown)) hcontrol
      have hquiet : Shifts (· ≠ .settle) w (w.outside o) := w.shifts_outside o fun _ => nofun
      rw [shown_of_shifts (fun hmay => hmay rfl) h.numbered hquiet, h.shown, hmirror] }

variable [Factory F M]

theorem journal_handle (w : Worker F M) (e : Envelope) : ∃ later, (w.handle e).journal =
    later ++ .taken e :: w.journal ∧ ∀ event ∈ later, event.Untaken := by
  let noted := w.note (.taken e)
  suffices Adds Event.Untaken noted (w.handle e) from this
  have happlied : Adds Event.Untaken noted (noted.apply e.command).1 :=
    untaken_of_silent (noted.keeps_apply e.command).adds
  unfold handle serve
  dsimp only
  split
  · exact untaken_respond _ _ _
  · split
    · refine happlied.trans (Adds.trans ?_ (untaken_settle _))
      exact .of_eq rfl
    · exact (happlied.trans (untaken_settle _)).trans (untaken_respond _ _ _)

/-- **A command that is taken** changes the pauses as it changes the tally. -/
theorem Booked.handle (h : w.Booked) {e : Envelope} (he : e.command ≠ .exit) : (w.handle e).Booked := by
  have hshifts : Shifts (· ≠ .vacate) w (w.handle e) :=
    w.shifts_handle e (by nofun) (by nofun) (fun _ _ => by nofun) fun _ => by nofun
  have hcontrol := control_handle h.awake e
  obtain ⟨later, hjournal, huntaken⟩ := w.journal_handle e
  exact {
    numbered := h.numbered.steps (hshifts h.numbered)
    paced := by
      rw [hcontrol]
      exact h.paced.obey h.awake _ e.command
    awake := by
      have hawake := h.paced.awake_obey h.awake w.machine.isSome he
      rw [← hcontrol] at hawake
      exact hawake
    still := (w.unmoved_handle e).input ▸ h.still
    machine := isSome_machine_shifts (fun hne => hne rfl) h hshifts
    depth := by
      have hdepth := Control.depth_obey_take (c := w.control) h.depth (isBooted w.journal) he
      rw [← h.machine, ← hcontrol] at hdepth
      rw [hjournal, tally_append_of_untaken huntaken, tally, ← h.machine]
      exact hdepth
    shown := by
      by_cases hstep : e.command = .frameStep
      · have hnote : (w.note (.taken e)).status ≠ .exiting := h.awake
        unfold Worker.handle serve
        dsimp only
        rw [if_neg hnote, if_pos hstep]
        exact (settled_settle _).shown
      · rw [handle_of_awake h.awake hstep]
        exact (settled_respond (settled_settle _) _ _).shown }

end Worker

end Handheld
