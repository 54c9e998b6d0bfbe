import Handheld.Proofs.Worker.Exiting
import Handheld.Proofs.Worker.Pausing
import Handheld.Proofs.Worker.Unmoved

/-!
# Hotkeys and commands

A poll acts on the hotkeys that have gone down since the last one, as if it were given their commands one
after the other (`hotkeys_do_what_commands_do`). A command is entered into the journal and settles, and a
poll settles only after all hotkeys: what both do is compared without that (`Worker.bare`).
-/

namespace Handheld

/-! ## Samples -/

def Hotkey.place : Hotkey → Nat
  | .mic => 0
  | .pause => 1
  | .reset => 2
  | .fastForward => 3
  | .fastForwardToggle => 4
  | .frameStep => 5
  | .powerButton => 6
  | .volumeUp => 7
  | .volumeDown => 8

theorem Hotkeys.contains_eq (s : Hotkeys) (k : Hotkey) :
    s.contains k = s.bits.toBitVec.getLsbD k.place := by
  have hbit : k.bit.toBitVec = BitVec.twoPow 32 k.place := by cases k <;> rfl
  have hpositive : BitVec.twoPow 32 k.place ≠ 0 := by cases k <;> decide
  have hmask : s.bits &&& k.bit = k.bit ↔ s.bits.toBitVec.getLsbD k.place = true := by
    rw [← UInt32.toBitVec_inj, UInt32.toBitVec_and, hbit, BitVec.and_twoPow]
    cases s.bits.toBitVec.getLsbD k.place with
    | true => simp
    | false => simpa using hpositive.symm
  rw [Bool.eq_iff_iff, ← hmask]
  exact decide_eq_true_iff

theorem Hotkeys.contains_minus (s t : Hotkeys) (k : Hotkey) :
    (s.minus t).contains k = (s.contains k && !t.contains k) := by
  have hplace : k.place < 32 := by cases k <;> decide
  simp [contains_eq, minus, hplace]

instance decidableSilent : DecidablePred Event.Silent
  | .taken _ => .isFalse id
  | .answered _ _ _ => .isFalse id
  | .asked _ _ => .isTrue trivial
  | .called _ _ => .isTrue trivial
  | .requested _ _ => .isTrue trivial
  | .wrote _ _ => .isTrue trivial
  | .pointed _ => .isTrue trivial
  | .notified _ => .isTrue trivial

namespace Worker

variable {F M : Type} {w : Worker F M}

section Samples

variable [Machine M] [Factory F M]

/-- The hotkeys as the latest poll of a run found them, or as they were given for before it. -/
def lastSample (w : Worker F M) (before : Hotkeys) : List (Act F) → Hotkeys
  | [] => before
  | .poll :: acts => (w.step .poll).lastSample w.input.hotkeysDown acts
  | a :: acts => (w.step a).lastSample before acts

theorem held_run (w : Worker F M) (acts : List (Act F)) :
    (w.run acts).edges.held = w.lastSample w.edges.held acts := by
  induction acts generalizing w with
  | nil => rfl
  | cons a acts ih =>
    have hrest := ih (w.step a)
    by_cases ha : a = .poll
    · subst ha
      have hpoll : (w.step .poll).edges = w.sampleHotkeys.edges := w.unmoved_poll.edges
      rw [hpoll] at hrest
      exact hrest
    · rw [w.edges_step ha] at hrest
      cases a with
      | poll => exact absurd rfl ha
      | _ => exact hrest

theorem lastSample_append (w : Worker F M) (before : Hotkeys) (early late : List (Act F)) :
    w.lastSample before (early ++ late) =
      (w.run early).lastSample (w.lastSample before early) late := by
  induction early generalizing w before with
  | nil => rfl
  | cons a early ih => cases a <;> exact ih _ _

def FindsDown (k : Hotkey) (w : Worker F M) (a : Act F) : Prop :=
  a = .poll → w.input.hotkeysDown.contains k = true

theorem contains_lastSample {before : Hotkeys} {k : Hotkey} {acts : List (Act F)}
    (hbefore : before.contains k = true) (h : w.Along (FindsDown k) acts) :
    (w.lastSample before acts).contains k = true := by
  induction acts generalizing w before with
  | nil => exact hbefore
  | cons a acts ih =>
    obtain ⟨hfirst, hrest⟩ := along_cons.mp h
    cases a with
    | poll => exact ih (hfirst rfl) hrest
    | _ => exact ih hbefore hrest

end Samples

/-! ## Without replies -/

/-- The journal without the commands that were taken and their replies. -/
def record (w : Worker F M) : List Event := w.journal.filter fun e => e.Silent

/-- The worker without the hotkeys it has sampled, and without all that is between it and its callers. -/
def bare (w : Worker F M) : Worker F M :=
  { w with edges := {}, waiting := [], shown := {}, journal := w.record }

/-- The second worker was steered as the first one was, with some messages at the end. -/
structure Echoes (messages : List String) (w v : Worker F M) : Prop where
  control : v.control = messages.foldl Control.notify w.control
  machine : v.machine = w.machine
  record : v.record = messages.reverse.map Event.notified ++ w.record

theorem Echoes.trans {early late : List String} {u v w : Worker F M} (huv : Echoes early u v)
    (hvw : Echoes late v w) : Echoes (early ++ late) u w where
  control := by rw [hvw.control, huv.control, List.foldl_append]
  machine := hvw.machine.trans huv.machine
  record := by rw [hvw.record, huv.record, List.reverse_append, List.map_append, List.append_assoc]

theorem Echoes.of_bare {w v : Worker F M} (h : v.bare = w.bare) : Echoes [] w v where
  control := show v.bare.control = w.bare.control by rw [h]
  machine := show v.bare.machine = w.bare.machine by rw [h]
  record := show v.bare.journal = w.bare.journal by rw [h]

theorem bare_settle (w : Worker F M) : w.settle.bare = w.bare := by
  have hanswers : ∀ (r : Reply) (cs : List Caller) (v : Worker F M),
      (cs.foldl (fun v c => v.answer c r) v).bare = v.bare := by
    intro r cs
    induction cs with
    | nil => exact fun v => rfl
    | cons c cs ih => exact fun v => ih (v.answer c r)
  unfold settle
  split
  · rfl
  all_goals exact hanswers _ w.waiting { w with waiting := [] }

theorem bare_receiveAll (w : Worker F M) (boot : Nat) (requests : List Request) :
    (w.receiveAll boot requests).bare = w.bare.receiveAll boot requests := by
  induction requests generalizing w with
  | nil => rfl
  | cons q requests ih =>
    have hreceive : (receive boot w q).bare = receive boot w.bare q := by cases q <;> rfl
    exact (ih (receive boot w q)).trans (congrArg (receiveAll · boot requests) hreceive)

theorem bare_use {α : Type} (w : Worker F M) (i : Installed M) (call : α → Call)
    (act : M → Outcome M α) : (w.use i call act).2.bare = (w.bare.use i call act).2 :=
  bare_receiveAll _ i.boot (act i.machine).requests

theorem bare_useIfAny (w : Worker F M) (call : Call) (act : M → Outcome M Unit) :
    (w.useIfAny call act).bare = w.bare.useIfAny call act := by
  have hmachine : w.bare.machine = w.machine := rfl
  unfold useIfAny
  rw [hmachine]
  split
  · rfl
  · exact w.bare_use _ _ act

theorem bare_pause (w : Worker F M) : w.pause.bare = w.bare.pause := by
  have hpush : w.bare.pauses.push w.bare.status = w.pauses.push w.status := rfl
  have hstatus : w.bare.status = w.status := rfl
  unfold pause
  rw [hpush, hstatus]
  dsimp only
  split
  · rfl
  · split <;> rfl

theorem bare_unpause (w : Worker F M) : w.unpause.bare = w.bare.unpause := by
  have hpop : w.bare.pauses.pop = w.pauses.pop := rfl
  unfold unpause
  rw [hpop]
  split
  · rfl
  · dsimp only
    split <;> rfl

theorem bare_frameStep (w : Worker F M) : w.frameStep.bare = w.bare.frameStep := by
  have hdepth : w.bare.pauses.depth = w.pauses.depth := rfl
  unfold frameStep
  rw [hdepth, ← bare_pause]
  split <;> rfl

variable [Machine M]

theorem bare_stop (w : Worker F M) (external : Bool) : (w.stop external).bare = w.bare.stop external := by
  cases external with
  | false => rfl
  | true => exact congrArg halt (w.bare_useIfAny .stop Machine.stop)

theorem bare_reset (w : Worker F M) : w.reset.1.bare = w.bare.reset.1 := by
  have hmachine : w.bare.machine = w.machine := rfl
  unfold reset
  rw [hmachine]
  split
  · rfl
  · next i _ =>
    exact congrArg (fun v : Worker F M => v.goLive.notify "Reset")
      (w.bare_use i (fun _ => .reset) Machine.reset)

/-! ## One hotkey -/

def pressKey (w : Worker F M) : Hotkey → Worker F M
  | .pause => w.togglePause
  | .reset => w.reset.1
  | .powerButton => w.pressPower
  | .frameStep => w.frameStep
  | _ => w

theorem bare_pressKey (w : Worker F M) (k : Hotkey) : (w.pressKey k).bare = w.bare.pressKey k := by
  have hstatus : w.bare.status = w.status := rfl
  have hactive : w.bare.active = w.active := rfl
  cases k with
  | pause =>
    show w.togglePause.bare = w.bare.togglePause
    unfold togglePause
    rw [hstatus]
    split
    · exact w.bare_unpause
    · exact w.bare_pause
  | reset => exact w.bare_reset
  | powerButton =>
    show w.pressPower.bare = w.bare.pressPower
    unfold pressPower
    rw [hactive]
    split
    · exact w.bare_stop true
    · rfl
  | frameStep => exact w.bare_frameStep
  | _ => rfl

theorem unmoved_pressKey (w : Worker F M) (k : Hotkey) : Unmoved w (w.pressKey k) := by
  cases k with
  | pause => exact w.unmoved_togglePause
  | reset => exact w.unmoved_reset
  | powerButton => exact w.unmoved_pressPower
  | frameStep => exact w.unmoved_frameStep
  | _ => exact .refl w

theorem unmoved_pressKeys (w : Worker F M) (keys : List Hotkey) :
    Unmoved w (keys.foldl pressKey w) := by
  induction keys generalizing w with
  | nil => exact .refl w
  | cons k keys ih => exact (w.unmoved_pressKey k).trans (ih (w.pressKey k))

theorem foldl_onPress (keys : List Hotkey) (w : Worker F M) :
    keys.foldl (fun v k => v.onPress k (pressKey · k)) w =
      (keys.filter w.edges.pressed).foldl pressKey w := by
  induction keys generalizing w with
  | nil => rfl
  | cons k keys ih =>
    rw [List.foldl_cons, ih]
    unfold onPress
    cases hk : w.edges.pressed k with
    | true =>
      rw [if_pos rfl, List.filter_cons_of_pos hk, (w.unmoved_pressKey k).edges]
      rfl
    | false =>
      have hup : ¬w.edges.pressed k = true := by simp [hk]
      rw [if_neg Bool.false_ne_true, List.filter_cons_of_neg hup]

end Worker

/-! ## The command of a hotkey -/

/-- The command that a hotkey stands for when it has just gone down. There is nothing to turn off while
emulation is not active. -/
def Control.order (c : Control) : Hotkey → Option Command
  | .pause => some (if c.status = .paused then .unpause else .pause)
  | .reset => some .reset
  | .powerButton => if c.active then some (.stop true) else none
  | .frameStep => some .frameStep
  | _ => none

namespace Worker

variable {F M : Type} {w : Worker F M} [Machine M] [Factory F M]

/-- Take the command that a hotkey stands for, for nobody. -/
def handleKey (w : Worker F M) (k : Hotkey) : Worker F M :=
  match w.control.order k with
  | none => w
  | some c => w.handle ⟨c, none⟩

def handleKeys (w : Worker F M) (keys : List Hotkey) : Worker F M := keys.foldl handleKey w

theorem pressKey_eq_apply (w : Worker F M) (k : Hotkey) : w.pressKey k =
    match w.control.order k with
    | none => w
    | some c => (w.apply c).1 := by
  cases k with
  | pause =>
    show (if w.status = .paused then w.unpause else w.pause) =
      (w.apply (if w.status = .paused then .unpause else .pause)).1
    split <;> rfl
  | powerButton =>
    show (if w.active then w.stop true else w) = match if w.active then some (.stop true) else none with
      | none => w
      | some c => (w.apply c).1
    split <;> rfl
  | _ => rfl

theorem bare_handle (h : w.status ≠ .exiting) (c : Command) :
    (w.handle ⟨c, none⟩).bare = ((w.note (.taken ⟨c, none⟩)).apply c).1.bare := by
  have hnote : (w.note (.taken ⟨c, none⟩)).status ≠ .exiting := h
  unfold handle serve
  dsimp only
  rw [if_neg hnote]
  split
  · exact bare_settle _
  · exact bare_settle _

theorem bare_handleKey (h : w.status ≠ .exiting) (k : Hotkey) :
    (w.handleKey k).bare = w.bare.pressKey k := by
  have hpress := w.pressKey_eq_apply k
  rw [← bare_pressKey]
  unfold handleKey
  cases horder : w.control.order k with
  | none =>
    rw [horder] at hpress
    rw [hpress]
  | some c =>
    let taken : Worker F M := w.note (.taken ⟨c, none⟩)
    have htaken : taken.pressKey k = (taken.apply c).1 := by
      have hcontrol : taken.control.order k = some c := horder
      rw [pressKey_eq_apply, hcontrol]
    have hbare : taken.bare = w.bare := rfl
    rw [bare_handle h, ← htaken, bare_pressKey, hbare, bare_pressKey]

theorem order_ne_exit (c : Control) (k : Hotkey) : c.order k ≠ some .exit := by
  cases k with
  | pause =>
    simp only [Control.order]
    split <;> simp
  | powerButton =>
    simp only [Control.order]
    split <;> simp
  | _ => simp [Control.order]

/-- No hotkey stands for an exit, so that the next one is listened to as well. -/
theorem awake_handleKey (hpaced : w.control.Paced) (h : w.status ≠ .exiting) (k : Hotkey) :
    (w.handleKey k).control.Paced ∧ (w.handleKey k).status ≠ .exiting := by
  unfold handleKey
  cases horder : w.control.order k with
  | none => exact ⟨hpaced, h⟩
  | some c =>
    have hexit : c ≠ .exit := fun hc => order_ne_exit w.control k (hc ▸ horder)
    have hcontrol := control_handle h ⟨c, none⟩
    refine ⟨?_, ?_⟩
    · rw [hcontrol]
      exact hpaced.obey h _ c
    · show (w.handle ⟨c, none⟩).control.status ≠ .exiting
      rw [hcontrol]
      exact hpaced.awake_obey h _ hexit

theorem bare_handleKeys (hpaced : w.control.Paced) (h : w.status ≠ .exiting) (keys : List Hotkey) :
    (w.handleKeys keys).bare = keys.foldl pressKey w.bare := by
  induction keys generalizing w with
  | nil => rfl
  | cons k keys ih =>
    obtain ⟨hnext, hawake⟩ := awake_handleKey hpaced h k
    exact (ih hnext hawake).trans (congrArg (keys.foldl pressKey) (bare_handleKey h k))

omit [Factory F M] in
theorem bare_pressKeys (w : Worker F M) (keys : List Hotkey) :
    (keys.foldl pressKey w).bare = keys.foldl pressKey w.bare := by
  induction keys generalizing w with
  | nil => rfl
  | cons k keys ih => exact (ih (w.pressKey k)).trans (congrArg (keys.foldl pressKey) (w.bare_pressKey k))

theorem bare_handleKeys_of_exiting (h : w.status = .exiting) (keys : List Hotkey) :
    (w.handleKeys keys).bare = w.bare := by
  induction keys generalizing w with
  | nil => rfl
  | cons k keys ih =>
    have hkey : (w.handleKey k).status = .exiting ∧ (w.handleKey k).bare = w.bare := by
      unfold handleKey
      split
      · exact ⟨h, rfl⟩
      · rw [handle_of_exiting h]
        exact ⟨h, rfl⟩
    exact (ih hkey.1).trans hkey.2

/-! ## The poll -/

section Poll

omit [Factory F M]

omit [Machine M] in
theorem onPress_changeVolume (w : Worker F M) (k : Hotkey) (up : Bool) : ∃ messages : List String,
    (∀ m ∈ messages, w.edges.pressed k = true ∧ ∃ volume : Nat, m = "Volume: " ++ toString volume) ∧
    Echoes messages w (w.onPress k (changeVolume up)) := by
  unfold onPress
  split
  · next h =>
    refine ⟨["Volume: " ++ toString (w.audio.nextVolume up).toNat], fun m hm => ?_, rfl, rfl, rfl⟩
    exact ⟨h, _, List.mem_singleton.mp hm⟩
  · exact ⟨[], nofun, rfl, rfl, rfl⟩

/-- Acting on the hotkeys is pressing those that steer and have gone down, in order, with messages about
the volume. -/
theorem echoes_actOnHotkeys (w : Worker F M) : ∃ messages : List String,
    (∀ m ∈ messages, (w.edges.pressed .volumeUp = true ∨ w.edges.pressed .volumeDown = true) ∧
      ∃ volume : Nat, m = "Volume: " ++ toString volume) ∧
    Echoes messages ((Hotkey.steering.filter w.edges.pressed).foldl pressKey w) w.actOnHotkeys := by
  let steered := (Hotkey.steering.filter w.edges.pressed).foldl pressKey w
  let fast := steered.updateFastForward
  let louder := fast.onPress .volumeUp (changeVolume true)
  have hfast : fast.edges = w.edges := (w.unmoved_pressKeys _).edges
  have hlouder : louder.edges = w.edges :=
    ((Unmoved.refl fast).onPress .volumeUp (unmoved_changeVolume true)).edges.trans hfast
  obtain ⟨ups, hups, hup⟩ := fast.onPress_changeVolume .volumeUp true
  obtain ⟨downs, hdowns, hdown⟩ := louder.onPress_changeVolume .volumeDown false
  have hacted : w.actOnHotkeys = (louder.onPress .volumeDown (changeVolume false)).settle := by
    show _ = ((steered.updateFastForward.onPress .volumeUp _).onPress .volumeDown _).settle
    rw [show steered = _ from (foldl_onPress Hotkey.steering w).symm]
    rfl
  have hsettled : Echoes [] (louder.onPress .volumeDown (changeVolume false)) w.actOnHotkeys := by
    rw [hacted]
    exact .of_bare (bare_settle _)
  have hsame : Echoes [] steered fast := ⟨rfl, rfl, rfl⟩
  refine ⟨ups ++ downs, fun m hm => ?_, ?_⟩
  · rcases List.mem_append.mp hm with hm | hm
    · obtain ⟨hpressed, hvolume⟩ := hups m hm
      exact ⟨.inl (hfast ▸ hpressed), hvolume⟩
    · obtain ⟨hpressed, hvolume⟩ := hdowns m hm
      exact ⟨.inr (hlouder ▸ hpressed), hvolume⟩
  · have htail := ((hsame.trans hup).trans hdown).trans hsettled
    rwa [List.nil_append, List.append_nil] at htail

end Poll

/-- The hotkeys that steer and go down from one sample to the next. -/
def freshKeys (last input : Hotkeys) : List Hotkey :=
  Hotkey.steering.filter fun k => input.contains k && !last.contains k

/-- Those that a poll would act on. -/
def goingDown (w : Worker F M) : List Hotkey := Hotkey.steering.filter w.sampleHotkeys.edges.pressed

omit [Machine M] [Factory F M] in
theorem pressed_sampleHotkeys (w : Worker F M) (k : Hotkey) : w.sampleHotkeys.edges.pressed k =
    (w.input.hotkeysDown.contains k && !w.edges.held.contains k) :=
  Hotkeys.contains_minus _ _ k

omit [Machine M] [Factory F M] in
theorem goingDown_eq (w : Worker F M) :
    w.goingDown = freshKeys w.edges.held w.input.hotkeysDown :=
  List.filter_congr fun k _ => w.pressed_sampleHotkeys k

theorem echoes_pollHotkeys (hpaced : w.control.Paced) : ∃ messages : List String,
    (∀ m ∈ messages,
      (∃ k, (k = .volumeUp ∨ k = .volumeDown) ∧ w.input.hotkeysDown.contains k = true ∧
        w.edges.held.contains k = false) ∧
      ∃ volume : Nat, m = "Volume: " ++ toString volume) ∧
    Echoes messages (w.handleKeys w.goingDown) w.pollHotkeys := by
  by_cases h : w.status = .exiting
  · have hsample : w.pollHotkeys = w.sampleHotkeys := if_pos h
    refine ⟨[], nofun, ?_⟩
    rw [hsample]
    exact .of_bare (bare_handleKeys_of_exiting h w.goingDown).symm
  · have hacted : w.pollHotkeys = w.sampleHotkeys.actOnHotkeys := if_neg h
    obtain ⟨messages, hvolume, hechoes⟩ := w.sampleHotkeys.echoes_actOnHotkeys
    simp only [pressed_sampleHotkeys, Bool.and_eq_true, Bool.not_eq_true'] at hvolume
    rw [hacted]
    refine ⟨messages, fun m hm => ?_, ?_⟩
    · obtain ⟨hkeys, hm⟩ := hvolume m hm
      refine ⟨?_, hm⟩
      rcases hkeys with hup | hdown
      · exact ⟨.volumeUp, .inl rfl, hup⟩
      · exact ⟨.volumeDown, .inr rfl, hdown⟩
    · have hbare : (w.goingDown.foldl pressKey w.sampleHotkeys).bare =
          (w.handleKeys w.goingDown).bare := by
        rw [bare_handleKeys hpaced h, bare_pressKeys]
        rfl
      exact (Echoes.of_bare hbare).trans hechoes

/-- **Hotkeys do what their commands do.** At every point of a run of a worker, before it is shut down, and
whatever the hotkeys are then: a poll of the hotkeys leaves the same status, pauses, activity, sound and
machine as taking, in order, the commands of those that steer and have gone down since the last poll, and
the same calls, requests and messages are in the journal; only for volume keys that have gone down there
are messages besides. While exiting, the hotkeys are sampled and nothing else happens. A hotkey that every
poll has found down since some earlier one is not among those that act. -/
theorem hotkeys_do_what_commands_do (id : Nat) (factory : F) (world : World)
    (cartSave firmwareSave : Option Path) (audio : Pipeline) (mic : MicInput) (acts : List (Act F))
    (hacts : .shutdown ∉ acts) (input : InputState) :
    let start : Worker F M := .new id factory world cartSave firmwareSave audio mic
    let w := (start.run acts).outside (.input input)
    let last := start.lastSample {} acts
    (∃ messages : List String,
      (∀ m ∈ messages,
        (∃ k, (k = .volumeUp ∨ k = .volumeDown) ∧ input.hotkeysDown.contains k = true ∧
          last.contains k = false) ∧
        ∃ volume : Nat, m = "Volume: " ++ toString volume) ∧
      Echoes messages (w.handleKeys (freshKeys last input.hotkeysDown)) w.pollHotkeys) ∧
    (w.status = .exiting → w.pollHotkeys = w.sampleHotkeys) ∧
    ∀ early late k, acts = early ++ .poll :: late →
      (start.run early).Along (FindsDown k) (.poll :: late) → k ∉ freshKeys last input.hotkeysDown := by
  intro start w last
  have hpaced : w.control.Paced :=
    paced_run (paced_new id factory world cartSave firmwareSave audio mic) hacts
  have hheld : w.edges.held = last := start.held_run acts
  refine ⟨?_, fun h => if_pos h, fun early late k hsplit hdown hmem => ?_⟩
  · have hechoes := echoes_pollHotkeys hpaced
    rwa [goingDown_eq, hheld] at hechoes
  · obtain ⟨hfirst, hrest⟩ := along_cons.mp hdown
    have hlast : last.contains k = true := by
      show (start.lastSample {} acts).contains k = true
      rw [hsplit, lastSample_append]
      show (((start.run early).step .poll).lastSample (start.run early).input.hotkeysDown late).contains k =
        true
      exact contains_lastSample (hfirst rfl) hrest
    simp [freshKeys, hlast] at hmem

/-- The power button and a step at once, while a step is pending: the machine is stopped, and stepped to
all the same. The next poll with both still down does neither. -/
theorem hotkeys_power_and_step_once :
    let start : Worker ScriptFactory ScriptMachine := rehearsal {} (.empty [])
    let down : InputState := { hotkeys := 96 }
    let acts : List (Act ScriptFactory) :=
      [.take ⟨.bootFirmware, none⟩, .take ⟨.run, none⟩, .take ⟨.frameStep, some 1⟩]
    let w := (start.run acts).outside (.input down)
    let last := start.lastSample {} (acts ++ [.outside (.input down), .poll])
    Echoes [] (w.handleKeys [.powerButton, .frameStep]) w.pollHotkeys ∧
      w.pollHotkeys.status = .frameStep ∧ w.pollHotkeys.active = false ∧
      .powerButton ∉ freshKeys last down.hotkeysDown ∧ .frameStep ∉ freshKeys last down.hotkeysDown := by
  intro start down acts w last
  obtain ⟨⟨messages, hvolume, hechoes⟩, -⟩ := hotkeys_do_what_commands_do (M := ScriptMachine) 0
    (⟨{}, false⟩ : ScriptFactory) ⟨.empty [], {}, 0⟩ none none (.new 0 {} {} {})
    (.new (.empty []) .silence none) acts (by simp [acts]) down
  have hkeys : freshKeys (start.lastSample {} acts) down.hotkeysDown = [.powerButton, .frameStep] := by
    decide
  have hnone : messages = [] := by
    cases messages with
    | nil => rfl
    | cons m rest =>
      obtain ⟨⟨k, rfl | rfl, hdown, -⟩, -⟩ := hvolume m List.mem_cons_self
      all_goals exact absurd hdown (by decide)
  subst hnone
  change Echoes [] (w.handleKeys (freshKeys (start.lastSample {} acts) down.hotkeysDown))
    w.pollHotkeys at hechoes
  rw [hkeys] at hechoes
  obtain ⟨-, -, hheld⟩ := hotkeys_do_what_commands_do (M := ScriptMachine) 0
    (⟨{}, false⟩ : ScriptFactory) ⟨.empty [], {}, 0⟩ none none (.new 0 {} {} {})
    (.new (.empty []) .silence none) (acts ++ [.outside (.input down), .poll]) (by simp [acts]) down
  have hdown : ∀ k ∈ [Hotkey.powerButton, .frameStep],
      k ∉ freshKeys (start.lastSample {} (acts ++ [.outside (.input down), .poll])) down.hotkeysDown :=
    fun k hk => hheld (acts ++ [.outside (.input down)]) [] k (by simp)
      (along_cons.mpr ⟨fun _ => by revert k; decide, along_nil _ _⟩)
  exact ⟨hechoes, by decide, by decide, hdown _ (by simp), hdown _ (by simp)⟩

end Worker

end Handheld
