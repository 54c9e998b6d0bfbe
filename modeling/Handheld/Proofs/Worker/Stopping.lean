import Handheld.Proofs.Worker.Pausing

/-!
# Stopped emulation

A stop leaves the pauses as they are. Where one of them was taken while running, that is what the last
release goes back to, and emulation that was stopped runs again although nobody has started it.
`stopped_until_started_iff` says that there is no other way: what is stopped stays so until a Run or a
Reset exactly where no stop has met such a pause. What stays is `Control.Idle`; that a running worker is
active can be broken by nothing but a release (`Control.Lively.step`), and in a poll that comes first.
-/

namespace Handheld

namespace Control

variable {c d : Control}

/-- The last release of the outstanding pauses goes back to running. -/
def ResumeHeld (c : Control) : Prop := 0 < c.pauses.depth ∧ c.pauses.saved = .running

/-- Nothing runs, and releasing pauses would not change that. -/
structure Idle (c : Control) : Prop where
  inactive : c.active = false
  still : c.status ≠ .running
  unheld : ¬c.ResumeHeld

theorem Idle.notices (h : Idle c) (notices : List String) : Idle { c with notices } :=
  ⟨h.inactive, h.still, h.unheld⟩

theorem Idle.pause (h : Idle c) : Idle c.pause := by
  unfold Control.pause
  by_cases hdepth : c.pauses.depth = 0
  · rw [if_pos hdepth]
    have hunheld : ¬(0 < 1 ∧ c.status = .running) := fun hheld => h.still hheld.2
    dsimp only
    split
    · exact ⟨h.inactive, h.still, hunheld⟩
    · exact ⟨h.inactive, nofun, hunheld⟩
  · rw [if_neg hdepth]
    exact ⟨h.inactive, h.still, fun hheld => h.unheld ⟨by omega, hheld.2⟩⟩

theorem Idle.unpause (h : Idle c) : Idle c.unpause := by
  unfold Control.unpause
  by_cases hdepth : c.pauses.depth = 1
  · have hsaved : c.pauses.saved ≠ .running := fun hsaved => h.unheld ⟨by omega, hsaved⟩
    have hreleased : ¬(0 < 0 ∧ c.pauses.saved = .running) := fun hheld => absurd hheld.1 (by omega)
    rw [if_pos hdepth]
    dsimp only
    split
    · exact ⟨h.inactive, hsaved, hreleased⟩
    · exact ⟨h.inactive, hsaved, hreleased⟩
  · rw [if_neg hdepth]
    refine ⟨h.inactive, h.still, fun hheld => h.unheld ⟨?_, hheld.2⟩⟩
    have hpositive : 0 < c.pauses.depth - 1 := hheld.1
    omega

theorem Idle.frameStep (h : Idle c) : Idle c.frameStep := by
  unfold Control.frameStep
  split
  · exact ⟨h.pause.inactive, nofun, h.pause.unheld⟩
  · exact ⟨h.inactive, nofun, h.unheld⟩

theorem Idle.obey (h : Idle c) (booted : Bool) {command : Command} (hrun : command ≠ .run)
    (hreset : command ≠ .reset) : Idle (c.obey booted command) := by
  cases command with
  | run => exact absurd rfl hrun
  | pause => exact h.pause
  | unpause => exact h.unpause
  | stop _ => exact ⟨rfl, nofun, h.unheld⟩
  | frameStep => exact h.frameStep
  | reset => exact absurd rfl hreset
  | exit => exact ⟨h.inactive, nofun, fun hheld => absurd hheld.1 (Nat.lt_irrefl 0)⟩
  | _ => exact h

theorem Idle.steps (h : Idle c)
    (hsteps : Relation.ReflTransGen (Step fun command => command ≠ .run ∧ command ≠ .reset) c d) :
    Idle d := by
  induction hsteps with
  | refl => exact h
  | tail _ hstep ih =>
    cases hstep with
    | obey booted _ hcommand => exact ih.obey booted hcommand.1 hcommand.2
    | halt => exact ⟨rfl, nofun, ih.unheld⟩
    | rest =>
      unfold rested
      split
      · exact ⟨ih.inactive, nofun, ih.unheld⟩
      · exact ih
    | tell notices => exact ih.notices notices

/-- What runs is active. -/
def Lively (c : Control) : Prop := c.status = .running → c.active = true

theorem Lively.unpause (h : Lively c) (hheld : c.active = false → ¬c.ResumeHeld) :
    Lively c.unpause := by
  have hactive : c.unpause.active = c.active := by
    unfold Control.unpause
    split
    · dsimp only
      split <;> rfl
    · rfl
  intro hrunning
  rw [hactive]
  cases hc : c.active with
  | true => rfl
  | false =>
    have hstill : c.status ≠ .running := fun hstatus => by simp [h hstatus] at hc
    exact absurd hrunning (Idle.unpause ⟨hc, hstill, hheld hc⟩).still

/-- Only a release can set something going that is not active. -/
theorem Lively.step (h : Lively c) (hstep : Step (· ≠ .unpause) c d) : Lively d := by
  have hpause : Lively c.pause := by
    unfold Control.pause
    by_cases hdepth : c.pauses.depth = 0
    · rw [if_pos hdepth]
      dsimp only
      split
      · exact h
      · exact nofun
    · rw [if_neg hdepth]
      exact h
  cases hstep with
  | @obey booted command _ hcommand =>
    cases command with
    | run => exact fun _ => rfl
    | pause => exact hpause
    | unpause => exact absurd rfl hcommand
    | stop _ => exact nofun
    | frameStep => exact nofun
    | reset =>
      cases booted with
      | true => exact fun _ => rfl
      | false => exact h
    | exit => exact nofun
    | _ => exact h
  | halt => exact nofun
  | rest =>
    unfold rested
    split
    · exact nofun
    · exact h
  | tell notices => exact h

theorem Lively.steps (h : Lively c) (hsteps : Relation.ReflTransGen (Step (· ≠ .unpause)) c d) :
    Lively d := by
  induction hsteps with
  | refl => exact h
  | tail _ hstep ih => exact ih.step hstep

theorem Lively.press (h : Lively c) (hpaced : Paced c) (hawake : c.status ≠ .exiting)
    (hheld : c.active = false → ¬c.ResumeHeld) (booted : Bool) (pressed : Hotkey → Bool) :
    Lively ((Hotkey.steering.filter pressed).foldl (Control.press booted) c) := by
  let others : List Hotkey := [.reset, .powerButton, .frameStep]
  have hnever : ∀ k ∈ others, .unpause ∉ k.commands := by decide
  have hothers : ∀ k ∈ others.filter pressed, ∀ command ∈ k.commands, command ≠ .unpause := by
    intro k hk command hcommand
    obtain ⟨hmem, -⟩ := List.mem_filter.mp hk
    rintro rfl
    exact hnever k hmem hcommand
  have hrest : ∀ b : Control, b.Paced → b.status ≠ .exiting → b.Lively →
      Lively ((others.filter pressed).foldl (Control.press booted) b) :=
    fun b hb hbawake hblively => hblively.steps (steps_press hb hbawake booted hothers)
  show Lively (((Hotkey.pause :: others).filter pressed).foldl (Control.press booted) c)
  cases hpause : pressed .pause with
  | false =>
    rw [List.filter_cons_of_neg (by simp [hpause])]
    exact hrest c hpaced hawake h
  | true =>
    rw [List.filter_cons_of_pos hpause, List.foldl_cons]
    by_cases hstatus : c.status = .paused
    · have hpress : c.press booted .pause = c.unpause := by
        unfold Control.press
        rw [if_pos hstatus]
        rfl
      rw [hpress]
      exact hrest _ hpaced.unpause
        (hpaced.awake_obey hawake booted (show Command.unpause ≠ .exit by nofun)) (h.unpause hheld)
    · have hpress : c.press booted .pause = c.obey booted .pause := by
        unfold Control.press
        rw [if_neg hstatus]
      rw [hpress]
      refine hrest _ (hpaced.obey hawake booted _) (hpaced.awake_obey hawake booted nofun) ?_
      exact h.step (.obey booted hawake nofun)

end Control

namespace Worker

variable {F M : Type} [Machine M] [Factory F M] {w : Worker F M}

/-- Emulation is stopped, and a pause is outstanding that was taken while it ran. -/
def StoppedInPause (w : Worker F M) : Prop :=
  w.active = false ∧ 0 < w.pauses.depth ∧ w.pauses.saved = .running

/-- Nothing but a Run or a Reset, from the mailbox or a hotkey, makes the worker run. -/
def StaysStopped (w : Worker F M) : Prop :=
  ∀ later, .shutdown ∉ later →
    w.Along (fun v a => ¬v.Heeds a .run ∧ ¬v.Heeds a .reset) later → (w.run later).status ≠ .running

theorem staysStopped_of_idle (hw : w.control.Paced) (h : w.control.Idle) : w.StaysStopped := by
  intro later hlater hquiet
  suffices ∀ (acts : List (Act F)) (v : Worker F M), v.control.Paced → v.control.Idle →
      .shutdown ∉ acts → v.Along (fun v a => ¬v.Heeds a .run ∧ ¬v.Heeds a .reset) acts →
      (v.run acts).control.Idle from (this later w hw h hlater hquiet).still
  intro acts
  induction acts with
  | nil => exact fun v _ hv _ _ => hv
  | cons a acts ih =>
    intro v hpaced hidle hacts hquiet
    obtain ⟨⟨hrun, hreset⟩, hrest⟩ := along_cons.mp hquiet
    have ha : a ≠ .shutdown := fun h => hacts (h ▸ List.mem_cons_self)
    have hstep : Steers (fun command => command ≠ .run ∧ command ≠ .reset) v (v.step a) :=
      steers_step hpaced ha fun command hcommand =>
        ⟨fun h => hrun (h ▸ hcommand), fun h => hreset (h ▸ hcommand)⟩
    exact ih (v.step a) (hpaced.steps hstep) (hidle.steps hstep)
      (fun h => hacts (List.mem_cons_of_mem a h)) hrest

theorem running_of_unpauses (hw : w.control.Paced) (hsaved : w.pauses.saved = .running) (n : Nat)
    (hdepth : w.pauses.depth = n + 1) :
    (w.run (List.replicate (n + 1) (.take ⟨.unpause, none⟩))).status = .running := by
  induction n generalizing w with
  | zero =>
    have hone : w.control.pauses.depth = 1 := hdepth
    have hrunning : w.control.pauses.saved = .running := hsaved
    have hcontrol : (w.handle ⟨.unpause, none⟩).control = w.control.unpause :=
      control_handle (hw.awake (by omega)) ⟨.unpause, none⟩
    show (w.handle ⟨.unpause, none⟩).control.status = .running
    rw [hcontrol, Control.unpause, if_pos hone]
    simp [hrunning, Control.notify]
  | succ n ih =>
    have hmany : w.control.pauses.depth = n + 2 := hdepth
    have hcontrol : (w.handle ⟨.unpause, none⟩).control = w.control.unpause :=
      control_handle (hw.awake (by omega)) ⟨.unpause, none⟩
    have hpauses : (w.handle ⟨.unpause, none⟩).control.pauses = ⟨n + 1, .running⟩ := by
      rw [hcontrol, Control.unpause, if_neg (by omega), hmany]
      show (⟨n + 1, w.pauses.saved⟩ : PauseStack) = _
      rw [hsaved]
    have hpaced : (w.handle ⟨.unpause, none⟩).control.Paced := by
      rw [hcontrol]
      exact hw.unpause
    rw [List.replicate_succ]
    exact ih hpaced (congrArg PauseStack.saved hpauses) (congrArg PauseStack.depth hpauses)

theorem not_staysStopped_of_stoppedInPause (hw : w.control.Paced) (h : w.StoppedInPause) :
    ¬w.StaysStopped := by
  obtain ⟨-, hdepth, hsaved⟩ := h
  intro hstays
  have hcount : w.pauses.depth = w.pauses.depth - 1 + 1 := by omega
  refine hstays (List.replicate (w.pauses.depth - 1 + 1) (.take ⟨.unpause, none⟩)) ?_ ?_
    (running_of_unpauses hw hsaved _ hcount)
  · intro hmem
    cases List.eq_of_mem_replicate hmem
  · intro early a late hacts
    have hmem : a ∈ List.replicate (w.pauses.depth - 1 + 1) (.take ⟨.unpause, none⟩) := by
      rw [hacts]
      simp
    obtain rfl := List.eq_of_mem_replicate hmem
    exact ⟨nofun, nofun⟩

/-- A step keeps what runs active, unless emulation is stopped in a pause. -/
theorem lively_step (hw : w.control.Paced) (h : w.control.Lively) (hpause : ¬w.StoppedInPause)
    {a : Act F} (ha : a ≠ .shutdown) : (w.step a).control.Lively := by
  have hheld : w.control.active = false → ¬w.control.ResumeHeld :=
    fun hactive hheld => hpause ⟨hactive, hheld⟩
  -- only a release needs that no stop has met a pause, and a poll looks at its hotkey first
  by_cases hunpause : w.Heeds a .unpause
  · cases a with
    | take e =>
      have hcommand : .unpause = e.command := hunpause
      show (w.handle e).control.Lively
      by_cases hstatus : w.status = .exiting
      · rw [control_handle_of_exiting hstatus]
        exact h
      · rw [control_handle hstatus, ← hcommand]
        exact h.unpause hheld
    | poll =>
      have hhotkeys : w.pollHotkeys.control.Lively := by
        have hsample : w.sampleHotkeys.control = w.control := rfl
        unfold pollHotkeys
        dsimp only
        split
        · exact h
        · next hawake =>
          obtain ⟨v, messages, heq, -, -, hcontrol⟩ := w.sampleHotkeys.actOnHotkeys_eq
          rw [heq, control_settle, hcontrol, hsample]
          exact (h.press hw hawake hheld _ _).steps (Control.steps_notify _ messages)
      exact hhotkeys.steps w.pollHotkeys.steers_takeStop
    | frame => exact hunpause.elim
    | outside => exact hunpause.elim
    | shutdown => exact absurd rfl ha
  · have hsteers : Steers (· ≠ .unpause) w (w.step a) :=
      steers_step hw ha fun command hcommand h => hunpause (h ▸ hcommand)
    exact h.steps hsteers

theorem lively_run (hw : w.control.Paced) (h : w.control.Lively) {acts : List (Act F)}
    (hacts : .shutdown ∉ acts) (hpause : ∀ early, early <+: acts → ¬(w.run early).StoppedInPause) :
    (w.run acts).control.Lively := by
  induction acts generalizing w with
  | nil => exact h
  | cons a acts ih =>
    have ha : a ≠ .shutdown := fun h => hacts (h ▸ List.mem_cons_self)
    refine ih (paced_step hw ha) (lively_step hw h (hpause [] (List.nil_prefix)) ha)
      (fun h => hacts (List.mem_cons_of_mem a h)) fun early hearly => ?_
    exact hpause (a :: early) ((List.prefix_cons_inj a).mpr hearly)

/-- **Stopped emulation stays stopped until it is started, unless a stop met a pause.** Take any run of a
new worker that does not shut it down. At every point of it a running worker is active, and one that is
not active is not set going by anything but a Run or a Reset, exactly if at no point emulation is
stopped while a pause is outstanding that was taken when it ran. -/
theorem stopped_until_started_iff (id : Nat) (factory : F) (world : World)
    (cartSave firmwareSave : Option Path) (audio : Pipeline) (mic : MicInput)
    (acts : List (Act F)) (hacts : .shutdown ∉ acts) :
    let w : Worker F M := .new id factory world cartSave firmwareSave audio mic
    (∀ early, early <+: acts →
      ((w.run early).status = .running → (w.run early).active = true) ∧
      ((w.run early).active = false → (w.run early).StaysStopped)) ↔
    ∀ early, early <+: acts → ¬(w.run early).StoppedInPause := by
  intro w
  have hw : w.control.Paced := paced_new id factory world cartSave firmwareSave audio mic
  have hshutdown : ∀ early, early <+: acts → .shutdown ∉ early :=
    fun early hearly h => hacts (hearly.subset h)
  constructor
  · intro h early hearly hpause
    have hpaced : (w.run early).control.Paced := paced_run hw (hshutdown early hearly)
    exact not_staysStopped_of_stoppedInPause hpaced hpause ((h early hearly).2 hpause.1)
  · intro h early hearly
    have hpaced : (w.run early).control.Paced := paced_run hw (hshutdown early hearly)
    have hlively : (w.run early).control.Lively :=
      lively_run hw nofun (hshutdown early hearly) fun earlier hearlier =>
        h earlier (hearlier.trans hearly)
    refine ⟨hlively, fun hactive => staysStopped_of_idle hpaced ⟨hactive, fun hstatus => ?_, ?_⟩⟩
    · have hrunning := hlively hstatus
      change (w.run early).active = true at hrunning
      rw [hactive] at hrunning
      cases hrunning
    · exact fun hheld => h early hearly ⟨hactive, hheld⟩

/-- A stop that meets no pause: what follows it, pauses and a poll, does not set the worker going. -/
theorem stopped_until_started_without_pause :
    let w : Worker ScriptFactory ScriptMachine := rehearsal {} (.empty [])
    let v := w.run [.take ⟨.run, none⟩, .take ⟨.stop true, none⟩]
    v.active = false ∧
      (v.run [.take ⟨.pause, none⟩, .poll, .take ⟨.unpause, none⟩]).status ≠ .running := by
  intro w v
  have hpause : ∀ early : List (Act ScriptFactory),
      early <+: [.take ⟨.run, none⟩, .take ⟨.stop true, none⟩] → ¬(w.run early).StoppedInPause := by
    intro early hearly
    rcases early with _ | ⟨a, _ | ⟨b, rest⟩⟩
    · exact fun h => absurd h.2.1 (by decide)
    · obtain ⟨rfl, -⟩ := List.cons_prefix_cons.mp hearly
      exact fun h => absurd h.2.1 (by decide)
    · obtain ⟨rfl, hlate⟩ := List.cons_prefix_cons.mp hearly
      obtain ⟨rfl, hrest⟩ := List.cons_prefix_cons.mp hlate
      obtain rfl := List.prefix_nil.mp hrest
      exact fun h => absurd h.2.1 (by decide)
  have hiff := stopped_until_started_iff 0 (⟨{}, false⟩ : ScriptFactory) ⟨.empty [], {}, 0⟩ none none
    (.new 0 {} {} {}) (.new (.empty []) .silence none)
    [.take ⟨.run, none⟩, .take ⟨.stop true, none⟩] (by simp)
  have hactive : v.active = false := by decide
  have hstays : v.StaysStopped := (hiff.mpr hpause _ (List.prefix_refl _)).2 hactive
  refine ⟨hactive, hstays _ (by simp) ?_⟩
  have htake : ∀ (u : Worker ScriptFactory ScriptMachine) (c : Command), c ≠ .run → c ≠ .reset →
      ¬u.Heeds (.take ⟨c, none⟩) .run ∧ ¬u.Heeds (.take ⟨c, none⟩) .reset :=
    fun u c hrun hreset => ⟨fun h => hrun h.symm, fun h => hreset h.symm⟩
  have hpoll : ∀ c, ¬(v.run [.take ⟨.pause, none⟩]).Heeds .poll c := by
    rintro c ⟨k, hk, -⟩
    have hnone : Hotkey.steering.filter
        (v.run [.take ⟨.pause, none⟩]).sampleHotkeys.edges.pressed = [] := by decide
    rw [hnone] at hk
    cases hk
  exact along_cons.mpr ⟨htake v _ nofun nofun, along_cons.mpr ⟨⟨hpoll _, hpoll _⟩,
    along_cons.mpr ⟨htake _ _ nofun nofun, along_nil _ _⟩⟩⟩

/-- A pause, a stop and a release: the worker runs, and its machine computes a frame, although emulation
was stopped and the machine with it. -/
theorem stopped_in_pause_runs_again :
    let w : Worker ScriptFactory ScriptMachine := rehearsal {} (.empty [])
    let v := w.passes [[⟨.bootFirmware, none⟩, ⟨.run, none⟩, ⟨.pause, none⟩, ⟨.stop true, none⟩],
      [⟨.unpause, some 1⟩], []]
    v.status = .running ∧ v.active = false ∧ v.frames = 1 ∧ replyTo? 1 v.journal = some (.ok ()) := by
  decide +kernel

end Worker

end Handheld
