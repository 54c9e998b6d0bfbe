import Handheld.Proofs.Instance.Asking
import Mathlib.Data.List.Infix

/-!
# Pauses that go with the focus

An instance is paused when it loses the focus, where that is wanted, and released when it gains it again.
That it is paused so is remembered by a flag of the instance, while its worker only counts pauses. Whatever
others do, pauses and releases of the focus follow each other in the journal, and the flag says which of
them is next (`FocusLog`). So much bounds the tally (`FocusLog.bounded`), and where others neither clear
the pauses nor release more than is theirs, it settles the tally (`FocusLog.exact`).
-/

namespace Handheld

open WorkerThread (keeper)

/-- The journal of a worker that is paused and released with the focus in turn, and whether it is paused so
at the end of it. -/
inductive FocusLog (others : Envelope → Prop) : Bool → List Event → Prop where
  | new : FocusLog others false []
  | idle {flag e events} : e.Untaken → FocusLog others flag events → FocusLog others flag (e :: events)
  | other {flag e events} : others e → FocusLog others flag events →
      FocusLog others flag (.taken e :: events)
  | lose {events} : FocusLog others false events →
      FocusLog others true (.taken ⟨.pause, some keeper⟩ :: events)
  | gain {events} : FocusLog others true events →
      FocusLog others false (.taken ⟨.unpause, some keeper⟩ :: events)

/-- Others do not lose more pauses than were released with the focus, and what goes with the focus is at
most the one pause that the flag tells of. -/
structure Tally.Bounded (flag : Bool) (l : Tally) : Prop where
  asked : l.asked ≤ l.held + l.lost
  own : l.own ≤ flag.toNat

/-- How often others have given a command that was taken. -/
def orders (c : Command) (events : List Event) : Nat :=
  events.countP fun event =>
    match event with
    | .taken e => e.command = c ∧ e.caller ≠ some keeper
    | _ => false

/-- Others have at no time released more pauses than they had asked for. -/
def Fair (events : List Event) : Prop :=
  ∀ past ∈ events.tails, orders .unpause past ≤ orders .pause past

instance (events : List Event) : Decidable (Fair events) := inferInstanceAs (Decidable (∀ _ ∈ _, _))

/-- A command that does not clear the pauses, step or exit, and is not given for the focus. -/
def Envelope.Gentle (e : Envelope) : Prop :=
  e.command ∉ [.run, .reset, .frameStep, .exit] ∧ e.caller ≠ some keeper

/-- Any command that does not exit, and is not given for the focus. -/
def Envelope.Ordinary (e : Envelope) : Prop := e.command ≠ .exit ∧ e.caller ≠ some keeper

theorem aloof_gentle : Aloof Envelope.Gentle keeper := fun e he =>
  ⟨fun hexit => he.1 (by simp [hexit]), he.2⟩

theorem aloof_ordinary : Aloof Envelope.Ordinary keeper := fun _ he => he

variable {others : Envelope → Prop} {flag : Bool} {events added : List Event}

namespace Tally

variable {l : Tally}

theorem Bounded.take (h : l.Bounded flag) (booted : Bool) {e : Envelope} (he : e.caller ≠ some keeper) :
    (l.take booted e).Bounded flag := by
  obtain ⟨hasked, hown⟩ := h
  have hcleared : Bounded flag {} := ⟨Nat.le_refl 0, Nat.zero_le _⟩
  unfold Tally.take
  cases e.command with
  | run => exact hcleared
  | reset =>
    cases booted with
    | true => exact hcleared
    | false => exact ⟨hasked, hown⟩
  | pause =>
    dsimp only
    rw [if_neg he]
    exact ⟨by dsimp only; omega, hown⟩
  | unpause =>
    dsimp only
    rw [if_neg he]
    refine ⟨?_, ?_⟩ <;> unfold release <;> dsimp only
    · omega
    · split <;> omega
  | frameStep =>
    dsimp only
    split
    · next hdepth =>
      unfold depth at hdepth
      exact ⟨by dsimp only; omega, hown⟩
    · exact ⟨hasked, hown⟩
  | _ => exact ⟨hasked, hown⟩

theorem Bounded.lose (h : l.Bounded false) (booted : Bool) :
    (l.take booted ⟨.pause, some keeper⟩).Bounded true :=
  ⟨h.asked, Nat.succ_le_succ h.own⟩

theorem Bounded.gain (h : l.Bounded true) (booted : Bool) :
    (l.take booted ⟨.unpause, some keeper⟩).Bounded false := by
  obtain ⟨hasked, hown⟩ := h
  rw [Bool.toNat_true] at hown
  show l.giveBack.Bounded false
  unfold giveBack
  split
  · next hnone =>
    refine ⟨?_, Nat.le_of_eq hnone⟩
    dsimp only
    split <;> omega
  · exact ⟨hasked, by dsimp only; rw [Bool.toNat_false]; omega⟩

theorem Bounded.depth_giveBack (h : l.Bounded true) :
    l.giveBack.depth = if l.own = 0 then l.held - 1 else l.held := by
  have hown := h.own
  rw [Bool.toNat_true] at hown
  unfold giveBack depth
  split
  · next hnone => rw [hnone, Nat.add_zero]
  · dsimp only
    omega

end Tally

namespace FocusLog

theorem untaken (h : FocusLog others flag events) (hadded : ∀ e ∈ added, e.Untaken) :
    FocusLog others flag (added ++ events) := by
  induction added with
  | nil => exact h
  | cons e added ih =>
    obtain ⟨he, hrest⟩ := List.forall_mem_cons.mp hadded
    exact .idle he (ih hrest)

theorem minor (h : FocusLog others flag events) (hadded : ∀ e ∈ added, e.Minor others keeper) :
    FocusLog others flag (added ++ events) := by
  induction added with
  | nil => exact h
  | cons e added ih =>
    obtain ⟨he, hrest⟩ := List.forall_mem_cons.mp hadded
    cases e with
    | taken e => exact .other (he.taken e rfl) (ih hrest)
    | _ => exact .idle trivial (ih hrest)

theorem bounded (h : FocusLog others flag events) (haloof : Aloof others keeper) :
    (tally events).Bounded flag := by
  induction h with
  | new => exact ⟨Nat.le_refl 0, Nat.le_refl 0⟩
  | @idle _ e _ he _ ih =>
    cases e with
    | taken => exact he.elim
    | _ => exact ih
  | other he _ ih => exact ih.take _ (haloof _ he).2
  | lose _ ih => exact ih.lose _
  | gain _ ih => exact ih.gain _

end FocusLog

/-! ## Others that release only what is theirs -/

theorem orders_cons_of_untaken {e : Event} (he : e.Untaken) (c : Command) :
    orders c (e :: events) = orders c events := by
  cases e with
  | taken => exact he.elim
  | _ => exact List.countP_cons_of_neg Bool.false_ne_true

theorem orders_cons_keeper (c d : Command) :
    orders c (.taken ⟨d, some keeper⟩ :: events) = orders c events :=
  List.countP_cons_of_neg (by simp)

theorem orders_cons_other {e : Envelope} (he : e.caller ≠ some keeper) (c : Command) :
    orders c (.taken e :: events) = orders c events + if e.command = c then 1 else 0 := by
  simp [orders, List.countP_cons, he]

theorem Fair.of_cons {e : Event} (h : Fair (e :: events)) : Fair events := fun past hpast =>
  h past (by
    rw [List.tails_cons]
    exact List.mem_cons_of_mem _ hpast)

theorem Fair.now (h : Fair events) : orders .unpause events ≤ orders .pause events :=
  h events ((List.mem_tails _ _).mpr List.suffix_rfl)

/-- **As long as others release only what is theirs**, the pauses are those that they have asked for and not
released, and the one that goes with the focus. -/
theorem FocusLog.exact (h : FocusLog Envelope.Gentle flag events) (hfair : Fair events) :
    ∃ n, orders .unpause events + n = orders .pause events ∧ tally events = ⟨n, n, flag.toNat, 0⟩ := by
  induction h with
  | new => exact ⟨0, rfl, rfl⟩
  | @idle _ e _ he _ ih =>
    rw [orders_cons_of_untaken he, orders_cons_of_untaken he]
    obtain ⟨n, horders, htally⟩ := ih hfair.of_cons
    refine ⟨n, horders, ?_⟩
    rw [← htally]
    exact tally_append_of_untaken (List.forall_mem_singleton.mpr he) _
  | @other _ e past he _ ih =>
    have hnow := hfair.now
    obtain ⟨hgentle, hcaller⟩ := he
    obtain ⟨n, horders, htally⟩ := ih hfair.of_cons
    rw [orders_cons_other hcaller, orders_cons_other hcaller] at hnow ⊢
    rw [tally, htally, Tally.take]
    cases hcommand : e.command with
    | run | reset | frameStep | exit => simp [hcommand] at hgentle
    | pause =>
      dsimp only
      rw [if_neg hcaller]
      refine ⟨n + 1, ?_, rfl⟩
      simp
      omega
    | unpause =>
      -- others have asked for a pause that they have not released yet
      obtain ⟨m, rfl⟩ : ∃ m, n = m + 1 := by
        rw [hcommand] at hnow
        simp at hnow
        exact Nat.exists_eq_add_one.mpr (by omega)
      dsimp only
      rw [if_neg hcaller]
      refine ⟨m, ?_, by simp [Tally.release]⟩
      simp
      omega
    | _ => exact ⟨n, by simpa using horders, rfl⟩
  | lose _ ih =>
    rw [orders_cons_keeper, orders_cons_keeper]
    obtain ⟨n, horders, htally⟩ := ih hfair.of_cons
    refine ⟨n, horders, ?_⟩
    rw [tally, htally]
    rfl
  | gain _ ih =>
    rw [orders_cons_keeper, orders_cons_keeper]
    obtain ⟨n, horders, htally⟩ := ih hfair.of_cons
    refine ⟨n, horders, ?_⟩
    rw [tally, htally]
    rfl

namespace Instance

variable {F M : Type} {i : Instance F M}

/-! ## Instances that others use -/

/-- An instance whose thread goes on, and whose flag fits its journal. -/
structure Kept (others : Envelope → Prop) (i : Instance F M) : Prop where
  tame : i.thread.Tame others keeper
  log : FocusLog others i.focusPaused i.thread.worker.journal

def shown (i : Instance F M) : Shown := i.thread.worker.shown

/-- What has happened to the worker of an instance, newest first. -/
def journal (i : Instance F M) : List Event := i.thread.worker.journal

theorem Kept.depth (h : Kept others i) : i.shown.depth = (tally i.journal).depth := by
  show i.thread.worker.shown.depth = _
  rw [h.tame.booked.shown]
  exact h.tame.booked.depth

theorem Kept.paused (h : Kept others i) (hdepth : 0 < i.shown.depth) :
    i.shown.status = .paused ∨ i.shown.status = .frameStep := by
  have hmirror : i.shown = i.thread.worker.mirror := h.tame.booked.shown
  rw [hmirror] at hdepth ⊢
  exact h.tame.booked.paced.paused hdepth

theorem kept_new (id : Nat) (config : Config) (factory : F) (world : World) (firmwareSave : Option Path) :
    Kept others (new id config factory world firmwareSave : Instance F M) where
  tame := ⟨Worker.booked_new id factory world none firmwareSave _ _, List.not_mem_nil, nofun, rfl, nofun⟩
  log := .new

/-- The thread proceeds among others, and what the instance knows of the focus stays. -/
structure Proceeds (others : Envelope → Prop) (i j : Instance F M) : Prop where
  thread : i.thread.Proceeds others keeper j.thread
  wanted : j.pauseOnFocusLoss = i.pauseOnFocusLoss
  flag : j.focusPaused = i.focusPaused

theorem Proceeds.trans {j k : Instance F M} (hij : i.Proceeds others j) (hjk : j.Proceeds others k) :
    i.Proceeds others k :=
  ⟨hij.thread.trans hjk.thread, hjk.wanted.trans hij.wanted, hjk.flag.trans hij.flag⟩

theorem Kept.proceeds {j : Instance F M} (h : Kept others i) (hij : i.Proceeds others j) :
    Kept others j := by
  obtain ⟨added, hjournal, hminor⟩ := hij.thread.adds
  refine ⟨hij.thread.tame, ?_⟩
  rw [hij.flag, hjournal]
  exact h.log.minor hminor

/-! ## What others do -/

/-- An operation that gives no command but those of others, and does not tell of the focus. -/
def Operation.Within (others : Envelope → Prop) : Operation → Prop
  | .ask c => others ⟨c, some WorkerThread.director⟩
  | .loseFocus => False
  | .gainFocus => False
  | _ => True

section Operations

variable (h : i.thread.Tame others keeper)

include h

theorem proceeds_world (world : World) : i.Proceeds others (i.mapWorker fun w => { w with world }) :=
  ⟨h.mapWorker (f := fun w => { w with world }) rfl rfl rfl, rfl, rfl⟩

theorem proceeds_audio (audio : Pipeline) {output : Option OutputDevice} {capture : Option CaptureDevice}
    (haudio : audio.enabled = i.thread.worker.audio.enabled) :
    i.Proceeds others { i.mapWorker fun w => { w with audio } with output, capture } := by
  refine ⟨h.mapWorker (f := fun w => { w with audio }) ?_ rfl rfl, rfl, rfl⟩
  simp only [Worker.control, haudio]

theorem proceeds_mic (mic : MicInput) {output : Option OutputDevice} {capture : Option CaptureDevice} :
    i.Proceeds others { i.mapWorker fun w => { w with mic } with output, capture } :=
  ⟨h.mapWorker (f := fun w => { w with mic }) rfl rfl rfl, rfl, rfl⟩

theorem proceeds_setOutput (o : OutputDevice) : i.Proceeds others (i.setOutput o) := by
  unfold Instance.setOutput
  cases i.output with
  | none => exact ⟨h.proceeds, rfl, rfl⟩
  | some old => exact proceeds_audio h (old.close i.thread.worker.audio) rfl

theorem proceeds_openDevices (host : AudioHost) (config : Config) :
    i.Proceeds others (i.openDevices host config).1 := by
  have halike := alike_connect host i.thread.worker.audio config.audio
  unfold Instance.openDevices
  rcases hconnect : OutputDevice.connect host i.thread.worker.audio config.audio with ⟨audio, e | o⟩
  · rw [hconnect] at halike
    exact proceeds_audio h audio halike.enabled
  · rw [hconnect] at halike
    have hsound : i.Proceeds others (i.mapWorker fun w => { w with audio }) :=
      proceeds_audio h audio halike.enabled
    have hopened := hsound.trans (proceeds_setOutput hsound.thread.tame o)
    dsimp only
    split
    · exact hopened
    · split <;> exact ⟨hopened.thread, hopened.wanted, hopened.flag⟩

variable [Machine M] [Factory F M]

theorem proceeds_operate (haloof : Aloof others keeper) {o : Operation} (ho : o.Within others) :
    i.Proceeds others (i.operate o) := by
  let p := i.thread.worker.audio
  cases o with
  | pushAudio frames => exact proceeds_audio h (p.push frames).2 rfl
  | checkSaves =>
    have hcart := h.happen haloof (a := .outside (.flush .cart)) nofun
    have hfirmware := hcart.tame.happen haloof (a := .outside (.flush .firmware)) nofun
    exact ⟨hcart.trans hfirmware, rfl, rfl⟩
  | refreshMute => exact proceeds_audio h (p.refreshMute i.thread.worker.world.mute) rfl
  | setOutput o => exact proceeds_setOutput h o
  | openDevices host config => exact proceeds_openDevices h host config
  | playOut buffer =>
    show i.Proceeds others (i.playOut buffer).2
    unfold Instance.playOut
    split
    · exact ⟨h.proceeds, rfl, rfl⟩
    · exact proceeds_audio h _ (alike_render _ _ _).enabled
  | capturedIn data =>
    show i.Proceeds others (i.capturedIn data)
    unfold Instance.capturedIn
    split
    · exact ⟨h.proceeds, rfl, rfl⟩
    · next c _ =>
      rcases c.callback i.thread.worker.mic data with ⟨used, mic⟩
      exact proceeds_mic h mic
  | closeDevices =>
    show i.Proceeds others i.closeDevices
    unfold Instance.closeDevices
    split
    · exact ⟨h.proceeds, rfl, rfl⟩
    · next o _ => exact proceeds_audio h (o.close p) rfl
  | ask c => exact ⟨h.ask haloof ho, rfl, rfl⟩
  | loseFocus => exact ho.elim
  | gainFocus => exact ho.elim
  | runOn frames =>
    have hadvance := h.goOnFor haloof i.thread.turnsToRest
    exact ⟨hadvance.trans (hadvance.tame.finishFrames haloof frames), rfl, rfl⟩

end Operations

variable [Machine M] [Factory F M]

def undergo (i : Instance F M) (course : List (Happening F)) : Instance F M :=
  { i with thread := i.thread.undergo course }

theorem id_undergo (i : Instance F M) (course : List (Happening F)) : (i.undergo course).id = i.id :=
  i.thread.id_undergo course

theorem proceeds_undergo (h : i.thread.Tame others keeper) (haloof : Aloof others keeper)
    {course : List (Happening F)} (hcourse : ∀ a ∈ course, WorkerThread.Common others a) :
    i.Proceeds others (i.undergo course) := ⟨h.undergo haloof hcourse, rfl, rfl⟩

/-! ## The focus is lost and gained -/

theorem Kept.askForFocus (h : Kept others i) (haloof : Aloof others keeper) {c : Command} (hc : c.Paces) :
    ∃ u, i.thread.askFor keeper c = (.ok (), u) ∧ u.Tame others keeper ∧
      ∃ later earlier, u.worker.journal = later ++ .taken ⟨c, some keeper⟩ :: earlier ∧
        (∀ e ∈ later, e.Untaken) ∧ FocusLog others i.focusPaused earlier := by
  obtain ⟨u, hask, hserved⟩ := WorkerThread.askFor_served h.tame haloof hc
  obtain ⟨later, early, hjournal, huntaken, hminor, -⟩ := hserved.told
  have htame : u.Tame others keeper :=
    { hserved.tame with mail := fun e he => (hserved.tame.mail e he).elim }
  exact ⟨u, hask, htame, later, _, hjournal, huntaken, h.log.minor hminor⟩

theorem Kept.loseFocus (h : Kept others i) (haloof : Aloof others keeper) :
    Kept others i.loseFocus ∧ i.loseFocus.focusPaused = (i.pauseOnFocusLoss || i.focusPaused) := by
  unfold Instance.loseFocus
  cases hwanted : i.pauseOnFocusLoss with
  | false => exact ⟨h, rfl⟩
  | true =>
    cases hflag : i.focusPaused with
    | true => exact ⟨h, hflag⟩
    | false =>
      obtain ⟨u, hask, htame, later, earlier, hjournal, huntaken, hlog⟩ :=
        h.askForFocus haloof (c := .pause) (.inl rfl)
      rw [hflag] at hlog
      simp only [Instance.askForFocus, hask]
      refine ⟨⟨htame, ?_⟩, rfl⟩
      show FocusLog others true u.worker.journal
      rw [hjournal]
      exact hlog.lose.untaken huntaken

theorem id_loseFocus (i : Instance F M) : i.loseFocus.id = i.id := i.goes_loseFocus.compliant.id

theorem id_gainFocus (i : Instance F M) : i.gainFocus.id = i.id := i.goes_gainFocus.compliant.id

theorem pauseOnFocusLoss_loseFocus (i : Instance F M) :
    i.loseFocus.pauseOnFocusLoss = i.pauseOnFocusLoss := by
  unfold Instance.loseFocus
  split
  · rfl
  · split
    · next h => exact (congrArg (fun r : Reply × Instance F M => r.2.pauseOnFocusLoss) h).symm
    · next h => exact (congrArg (fun r : Reply × Instance F M => r.2.pauseOnFocusLoss) h).symm

theorem pauseOnFocusLoss_gainFocus (i : Instance F M) :
    i.gainFocus.pauseOnFocusLoss = i.pauseOnFocusLoss := by
  unfold Instance.gainFocus
  split <;> rfl

theorem gainFocus_of_unset (h : i.focusPaused = false) : i.gainFocus = i := by
  simp [Instance.gainFocus, h]

theorem Kept.release (h : Kept others i) (haloof : Aloof others keeper) (hflag : i.focusPaused = true) :
    Kept others i.gainFocus ∧ i.gainFocus.focusPaused = false ∧ ∃ later earlier,
      i.gainFocus.journal = later ++ .taken ⟨.unpause, some keeper⟩ :: earlier ∧
        (∀ e ∈ later, e.Untaken) ∧ FocusLog others true earlier := by
  obtain ⟨u, hask, htame, later, earlier, hjournal, huntaken, hlog⟩ :=
    h.askForFocus haloof (c := .unpause) (.inr rfl)
  rw [hflag] at hlog
  have hgain : i.gainFocus = { i with thread := u, focusPaused := false } := by
    simp only [Instance.gainFocus, Instance.askForFocus, hflag, hask]
    rfl
  rw [hgain]
  refine ⟨⟨htame, ?_⟩, rfl, later, earlier, hjournal, huntaken, hlog⟩
  show FocusLog others false u.worker.journal
  rw [hjournal]
  exact hlog.gain.untaken huntaken

theorem Kept.gainFocus (h : Kept others i) (haloof : Aloof others keeper) :
    Kept others i.gainFocus ∧ i.gainFocus.focusPaused = false := by
  cases hflag : i.focusPaused with
  | true =>
    obtain ⟨hkept, hunset, -⟩ := h.release haloof hflag
    exact ⟨hkept, hunset⟩
  | false =>
    rw [gainFocus_of_unset hflag]
    exact ⟨h, hflag⟩

/-- Somebody's pause holds. -/
def Paused (i : Instance F M) : Prop :=
  0 < i.shown.depth ∧ (i.shown.status = .paused ∨ i.shown.status = .frameStep)

/-- An instance before and after it gains the focus, and the tally when it comes to the release that goes
with it, if there is one. -/
structure Gained (i j : Instance F M) (l : Tally) : Prop where
  told : ∃ later earlier, l = tally earlier ∧ (∀ e ∈ later, e.Untaken) ∧ j.journal =
    later ++ (if i.focusPaused then [.taken ⟨.unpause, some keeper⟩] else []) ++ earlier
  bounded : l.Bounded i.focusPaused
  depth : j.shown.depth = if i.focusPaused = true ∧ l.own = 0 then l.held - 1 else l.held
  paused : 0 < j.shown.depth → j.Paused

theorem Kept.gained (h : Kept others i) (haloof : Aloof others keeper) :
    ∃ l, i.Gained i.gainFocus l := by
  have hkept := (h.gainFocus haloof).1
  cases hflag : i.focusPaused with
  | true =>
    obtain ⟨-, -, later, earlier, hjournal, huntaken, hlog⟩ := h.release haloof hflag
    have hbounded : (tally earlier).Bounded true := hlog.bounded haloof
    refine ⟨tally earlier, ⟨later, earlier, rfl, huntaken, ?_⟩, hflag.symm ▸ hbounded, ?_, fun hdepth =>
      ⟨hdepth, hkept.paused hdepth⟩⟩
    · rw [hjournal, hflag, if_pos rfl, List.append_assoc, List.singleton_append]
    · have htaken : tally (.taken ⟨.unpause, some keeper⟩ :: earlier) = (tally earlier).giveBack := rfl
      rw [hkept.depth, hjournal, tally_append_of_untaken huntaken, htaken, hflag]
      simpa using hbounded.depth_giveBack
  | false =>
    have hbounded : (tally i.journal).Bounded false := hflag ▸ h.log.bounded haloof
    have hown : (tally i.journal).own = 0 := Nat.le_zero.mp hbounded.own
    rw [gainFocus_of_unset hflag]
    refine ⟨tally i.journal, ⟨[], i.journal, rfl, nofun, ?_⟩, hflag.symm ▸ hbounded, ?_, fun hdepth =>
      ⟨hdepth, h.paused hdepth⟩⟩
    · rw [hflag]
      rfl
    · rw [h.depth, Tally.depth, hown, hflag]
      simp

omit [Machine M] [Factory F M] in
/-- **Somebody's pause holds when the focus is gained**, if it was not released with the focus before,
unless it is the only one and the flag is set without a pause that goes with it. -/
theorem Gained.paused_iff {j : Instance F M} {l : Tally} (h : i.Gained j l) (hasked : 0 < l.asked)
    (hlost : l.lost = 0) :
    j.Paused ↔ ¬(i.focusPaused = true ∧ l.own = 0 ∧ l.held = 1) := by
  have hheld : 0 < l.held := by
    have := h.bounded.asked
    omega
  have hdepth : j.Paused ↔ 0 < j.shown.depth := ⟨And.left, h.paused⟩
  rw [hdepth, h.depth]
  split
  · next hdrifted =>
    simp only [hdrifted, true_and]
    omega
  · next hsound =>
    refine iff_of_true hheld fun hdrifted => hsound ⟨hdrifted.1, hdrifted.2.1⟩

end Instance

end Handheld
