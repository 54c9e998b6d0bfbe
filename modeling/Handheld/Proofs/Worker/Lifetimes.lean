import Handheld.Proofs.Worker.Shifting

/-!
# The life of a machine

Every machine that a boot comes to is started before anything else is asked of it, and not again; a stop is
the last thing asked of it before it gives way to the next one or goes with the worker, and nothing is asked
of it after that (`machines_start_once_and_end_stopped`). The standing changes in three ways that matter
here: a call on the installed machine, a start in the place of one that was stopped, and the end
(`Standing.Step.course`).
-/

namespace Handheld

namespace Standing

variable {may : License → Prop} {s t : Standing}

/-- What a step of the standing is to the machines. -/
inductive Course (s t : Standing) : Prop
  | on (hboot : t.boot = s.boot) (hcalls : calls t.journal = calls s.journal)
  | call (b : Nat) (call : Call) (h : s.boot = some b) (hcall : call ≠ .start) (hboot : t.boot = some b)
    (hcalls : calls t.journal = (b, call) :: calls s.journal)
  | start (b : Nat) (h : s.Fresh b) (hhalted : s.Halted) (hboot : t.boot = some b)
    (hcalls : calls t.journal = (b, .start) :: calls s.journal)
  | vacate (hhalted : s.Halted) (hboot : t.boot = none) (hcalls : calls t.journal = calls s.journal)

theorem Step.course (h : Step may s t) : Course s t := by
  cases h with
  | @enter e he =>
    refine .on rfl ?_
    cases e with
    | called => exact he.elim
    | _ => rfl
  | call hb hcall => exact .call _ _ hb hcall hb rfl
  | start hfresh hhalted => exact .start _ hfresh hhalted rfl rfl
  | vacate _ hhalted => exact .vacate hhalted rfl rfl
  | _ => exact .on rfl rfl

/-- The machine of a boot was started before anything else was asked of it, and not again; if it is not
there any more, it was stopped, and nothing was asked of it after that. -/
structure Lived (s : Standing) (b : Nat) : Prop where
  started : ∃ later, callsTo b s.journal = later ++ [.start] ∧ .start ∉ later
  stopped : s.boot ≠ some b → (callsTo b s.journal).head? = some .stop

/-- Every machine has lived so, and calls went to machine after machine, the last to the installed one. -/
structure Ordered (s : Standing) : Prop where
  lived : ∀ b, s.boot = some b ∨ callsTo b s.journal ≠ [] → s.Lived b
  sorted : (calls s.journal).Pairwise fun later earlier => earlier.1 ≤ later.1
  newest : ∀ b, s.boot = some b → ∀ p ∈ calls s.journal, p.1 ≤ b

theorem Fresh.callsTo_eq_nil {b : Nat} (h : s.Fresh b) : callsTo b s.journal = [] := by
  by_contra hsome
  obtain ⟨call, hcall⟩ := List.exists_mem_of_ne_nil _ hsome
  exact h.uncalled call (mem_callsTo.mp hcall)

theorem Lived.of_eq {b : Nat} (h : s.Lived b) (hcalls : callsTo b t.journal = callsTo b s.journal)
    (hboot : t.boot ≠ some b → s.boot ≠ some b) : t.Lived b where
  started := by
    rw [hcalls]
    exact h.started
  stopped := fun hgone => by
    rw [hcalls]
    exact h.stopped (hboot hgone)

theorem Lived.of_halted {b : Nat} (h : s.Lived b) (hhalted : s.Halted)
    (hcalls : callsTo b t.journal = callsTo b s.journal) : t.Lived b where
  started := by
    rw [hcalls]
    exact h.started
  stopped := fun _ => by
    rw [hcalls]
    by_cases hboot : s.boot = some b
    · exact hhalted b hboot
    · exact h.stopped hboot

/-- Whoever is called is the newest, if nobody newer was called before. -/
theorem Ordered.called (h : Ordered s) {b : Nat} {call : Call} (hboot : t.boot = some b)
    (hcalls : calls t.journal = (b, call) :: calls s.journal) (holder : ∀ p ∈ calls s.journal, p.1 ≤ b) :
    (calls t.journal).Pairwise (fun later earlier => earlier.1 ≤ later.1) ∧
      ∀ c, t.boot = some c → ∀ p ∈ calls t.journal, p.1 ≤ c := by
  rw [hcalls]
  refine ⟨List.pairwise_cons.mpr ⟨holder, h.sorted⟩, fun c hc p hp => ?_⟩
  obtain rfl := Option.some.inj (hboot.symm.trans hc)
  rcases List.mem_cons.mp hp with rfl | hp
  · exact Nat.le_refl b
  · exact holder p hp

theorem Ordered.step (h : Ordered s) (hnumbered : Numbered s) (hstep : Step may s t) : Ordered t := by
  cases hstep.course with
  | on hboot hcalls =>
    refine ⟨fun b hb => ?_, by rw [hcalls]; exact h.sorted, fun b hb => ?_⟩
    · have hsame : callsTo b t.journal = callsTo b s.journal := callsTo_congr hcalls
      rw [hboot, hsame] at hb
      exact (h.lived b hb).of_eq hsame fun hgone => hboot ▸ hgone
    · rw [hcalls]
      exact h.newest b (hboot.symm.trans hb)
  | call b call hb hcall hboot hcalls =>
    obtain ⟨hsorted, hnewest⟩ := h.called hboot hcalls (h.newest b hb)
    refine ⟨fun c hc => ?_, hsorted, hnewest⟩
    by_cases hcb : b = c
    · subst hcb
      obtain ⟨later, hlater, honce⟩ := (h.lived b (.inl hb)).started
      refine ⟨⟨call :: later, ?_, ?_⟩, fun hgone => absurd hboot hgone⟩
      · rw [callsTo_of_cons hcalls, hlater, List.cons_append]
      · simpa [hcall.symm] using honce
    · have hsame : callsTo c t.journal = callsTo c s.journal := callsTo_of_cons_ne hcalls hcb
      rw [hboot, hsame, ← hb] at hc
      exact (h.lived c hc).of_eq hsame fun hgone => by rwa [hboot, ← hb] at hgone
  | start b hfresh hhalted hboot hcalls =>
    have holder : ∀ p ∈ calls s.journal, p.1 ≤ b := fun p hp => by
      have hlt : p.1 < s.boots := hnumbered.called p.1 p.2 (mem_calls.mp hp)
      rw [hfresh.boots] at hlt
      exact Nat.lt_succ_iff.mp hlt
    obtain ⟨hsorted, hnewest⟩ := h.called hboot hcalls holder
    refine ⟨fun c hc => ?_, hsorted, hnewest⟩
    by_cases hcb : b = c
    · subst hcb
      refine ⟨⟨[], ?_, List.not_mem_nil⟩, fun hgone => absurd hboot hgone⟩
      rw [callsTo_of_cons hcalls, hfresh.callsTo_eq_nil, List.nil_append]
    · have hsame : callsTo c t.journal = callsTo c s.journal := callsTo_of_cons_ne hcalls hcb
      rw [hboot, hsame] at hc
      have hcalled : callsTo c s.journal ≠ [] :=
        hc.resolve_left fun hinstalled => hcb (Option.some.inj hinstalled)
      exact (h.lived c (.inr hcalled)).of_halted hhalted hsame
  | vacate hhalted hboot hcalls =>
    refine ⟨fun b hb => ?_, by rw [hcalls]; exact h.sorted, fun b hb => ?_⟩
    · have hsame : callsTo b t.journal = callsTo b s.journal := callsTo_congr hcalls
      rw [hboot, hsame] at hb
      exact (h.lived b (.inr (hb.resolve_left nofun))).of_halted hhalted hsame
    · rw [hboot] at hb
      cases hb

theorem Ordered.steps (h : Ordered s) (hnumbered : Numbered s)
    (hsteps : Relation.ReflTransGen (Step may) s t) : Ordered t := by
  induction hsteps with
  | refl => exact h
  | tail hsteps hstep ih => exact ih.step (hnumbered.steps hsteps) hstep

/-- A machine that was called is not there any more. -/
structure Gone (s : Standing) (b : Nat) : Prop where
  called : callsTo b s.journal ≠ []
  boot : s.boot ≠ some b

theorem Gone.step {b : Nat} (h : s.Gone b) (hstep : Step may s t) :
    t.Gone b ∧ callsTo b t.journal = callsTo b s.journal := by
  have hstays : t.boot ≠ some b → callsTo b t.journal = callsTo b s.journal →
      t.Gone b ∧ callsTo b t.journal = callsTo b s.journal :=
    fun hboot hcalls => ⟨⟨hcalls ▸ h.called, hboot⟩, hcalls⟩
  cases hstep.course with
  | on hboot hcalls => exact hstays (hboot ▸ h.boot) (callsTo_congr hcalls)
  | call c call hc hcall hboot hcalls =>
    have hother : c ≠ b := fun hcb => h.boot (hcb ▸ hc)
    exact hstays (hboot ▸ fun hb => hother (Option.some.inj hb)) (callsTo_of_cons_ne hcalls hother)
  | start c hfresh hhalted hboot hcalls =>
    have hother : c ≠ b := by
      rintro rfl
      exact h.called hfresh.callsTo_eq_nil
    exact hstays (hboot ▸ fun hb => hother (Option.some.inj hb)) (callsTo_of_cons_ne hcalls hother)
  | vacate hhalted hboot hcalls => exact hstays (hboot ▸ nofun) (callsTo_congr hcalls)

theorem Gone.steps {b : Nat} (h : s.Gone b) (hsteps : Relation.ReflTransGen (Step may) s t) :
    t.Gone b ∧ callsTo b t.journal = callsTo b s.journal := by
  induction hsteps with
  | refl => exact ⟨h, rfl⟩
  | tail _ hstep ih =>
    obtain ⟨hgone, hcalls⟩ := ih
    obtain ⟨hafter, hstep⟩ := hgone.step hstep
    exact ⟨hafter, hstep.trans hcalls⟩

end Standing

/-- What a command asks the factory for: a machine with the first of the given ROMs that can be read, or
one with none. -/
def Command.bootedRom? (files : FileTree) : Command → Option (Option Rom)
  | .bootRom paths => (Rom.load files paths).toOption.map some
  | .bootFirmware => some none
  | _ => none

namespace Worker

variable {F M : Type} [Machine M] [Factory F M] {w : Worker F M}

/-- A step asks the factory for a machine, and gets one. -/
def Makes (w : Worker F M) (a : Act F) : Prop :=
  ∃ e rom m, a = .take e ∧ w.status ≠ .exiting ∧ e.command.bootedRom? w.world.files = some rom ∧
    (askFactory w.factory rom : Boot F M).machine = .ok m

theorem apply_of_bootedRom {c : Command} {rom : Option Rom}
    (h : c.bootedRom? w.world.files = some rom) : ∃ savePath, w.apply c = w.boot rom savePath := by
  cases c with
  | bootRom paths =>
    obtain ⟨loaded, hloaded, rfl⟩ := Option.map_eq_some_iff.mp h
    refine ⟨some (cartSavePath loaded.path w.id), ?_⟩
    show w.bootRom paths = _
    unfold bootRom
    cases hload : Rom.load w.world.files paths with
    | error e =>
      rw [hload] at hloaded
      cases hloaded
    | ok rom =>
      rw [hload] at hloaded
      obtain rfl := Option.some.inj hloaded
      rfl
  | bootFirmware =>
    obtain rfl := Option.some.inj h
    exact ⟨none, rfl⟩
  | _ => cases h

omit [Machine M] [Factory F M] in
theorem installedBoot_settle_respond (w : Worker F M) (c : Option Caller) (r : Reply) :
    (w.settle.respond c r).installedBoot = w.installedBoot := by
  obtain ⟨_, _, _, h⟩ := w.settle_respond_eq c r
  rw [h]
  rfl

omit [Factory F M] in
theorem installedBoot_shutdown (w : Worker F M) : w.shutdown.installedBoot = none := by
  let ended : Worker F M :=
    { w.useIfAny .stop Machine.stop with machine := none, active := false, status := .exiting }.disableAudio
  obtain ⟨journal, h⟩ := ended.answerSteps_eq (.error .exiting)
  show (ended.answerSteps (.error .exiting)).installedBoot = none
  rw [h]
  rfl

theorem Makes.step (hw : w.standing.Numbered) {a : Act F} (h : w.Makes a) :
    callsTo w.boots w.journal = [] ∧ (w.step a).installedBoot = some w.boots ∧
      callsTo w.boots (w.step a).journal = [.start] := by
  obtain ⟨e, rom, m, rfl, hawake, hrom, hm⟩ := h
  let taken := w.note (.taken e)
  have hnever : callsTo w.boots w.journal = [] := by
    by_contra hsome
    obtain ⟨call, hcall⟩ := List.exists_mem_of_ne_nil _ hsome
    exact Nat.lt_irrefl _ (hw.called w.boots call (mem_callsTo.mp hcall))
  obtain ⟨savePath, happly⟩ := apply_of_bootedRom (w := taken) (c := e.command) hrom
  let asked := taken.asked rom savePath (askFactory taken.factory rom)
  let stopped := asked.useIfAny .stop Machine.stop
  have hinstalled : (taken.apply e.command).1 = asked.install ⟨w.boots, m⟩ := by
    rw [happly, boot_eq]
    have hmachine : (askFactory taken.factory rom : Boot F M).machine = .ok m := hm
    rw [hmachine]
    rfl
  have htaken : taken.standing.Numbered := hw.enter nofun
  obtain ⟨-, hasked⟩ : Shifts (fun _ => True) taken asked ∧ asked.standing.Fresh w.boots :=
    shifts_asked htaken rom savePath _
  have hfresh : stopped.standing.Fresh w.boots := fresh_useIfAny hasked .stop Machine.stop
  have hcommand : e.command ≠ .frameStep := by
    intro hstep
    rw [hstep] at hrom
    cases hrom
  have hstep : w.step (.take e) =
      (asked.install ⟨w.boots, m⟩).settle.respond e.caller (w.outcome e) := by
    rw [← hinstalled]
    exact handle_of_awake hawake hcommand
  refine ⟨hnever, ?_, ?_⟩
  · rw [hstep, installedBoot_settle_respond]
    exact installedBoot_use _ ⟨w.boots, m⟩ (fun _ => .start) Machine.start
  · rw [hstep]
    have hcalls : calls ((asked.install ⟨w.boots, m⟩).settle.respond e.caller (w.outcome e)).journal =
        (w.boots, .start) :: calls stopped.journal :=
      (calls_settle_respond _ _ _).trans (calls_use _ _ _ _)
    rw [callsTo_of_cons hcalls]
    exact congrArg (Call.start :: ·) hfresh.callsTo_eq_nil

theorem callsTo_run (hw : w.standing.Numbered) (acts : List (Act F)) (boot : Nat) :
    ∃ later, callsTo boot (w.run acts).journal = later ++ callsTo boot w.journal := by
  have hrun : Shifts (fun _ => True) w (w.run acts) := w.shifts_run fun _ _ _ _ _ _ => trivial
  obtain ⟨added, hadded⟩ := Standing.journal_steps (hrun hw)
  have hjournal : (w.run acts).journal = added ++ w.journal := hadded
  exact ⟨callsTo boot added, by rw [hjournal, callsTo_append]⟩

omit [Machine M] [Factory F M] in
theorem ordered_new (id : Nat) (factory : F) (world : World) (cartSave firmwareSave : Option Path)
    (audio : Pipeline) (mic : MicInput) :
    (new id factory world cartSave firmwareSave audio mic : Worker F M).standing.Ordered where
  lived := fun boot h => absurd h (by rintro (h | h) <;> exact absurd h nofun)
  sorted := .nil
  newest := nofun

/-- **Machines start once and end stopped.** Take any run of a worker, with any factory. Each machine that
a boot comes to is numbered by that boot and installed then, was never called before, and has been started;
at the end of the run it has been started once and before anything else was asked of it, and if it is not
the installed one any more, it was stopped, and nothing was asked of it after that. So it is for every
machine that is installed or was called at all. Calls went to machine after machine: none went to a machine
after one of a later boot was called, and none goes to one that was installed and is no longer. Nothing is
installed after a shutdown. -/
theorem machines_start_once_and_end_stopped (id : Nat) (factory : F) (world : World)
    (cartSave firmwareSave : Option Path) (audio : Pipeline) (mic : MicInput) (acts : List (Act F)) :
    let start : Worker F M := .new id factory world cartSave firmwareSave audio mic
    let w := start.run acts
    (∀ early a late, acts = early ++ a :: late → (start.run early).Makes a →
      let boot := (start.run early).boots
      callsTo boot (start.run early).journal = [] ∧
        ((start.run early).step a).installedBoot = some boot ∧
        callsTo boot ((start.run early).step a).journal = [.start] ∧ w.standing.Lived boot) ∧
    (∀ boot, w.installedBoot = some boot ∨ callsTo boot w.journal ≠ [] → w.standing.Lived boot) ∧
    (calls w.journal).Pairwise (fun later earlier => earlier.1 ≤ later.1) ∧
    (∀ early late boot, acts = early ++ late → callsTo boot (start.run early).journal ≠ [] →
      (start.run early).installedBoot ≠ some boot →
      w.installedBoot ≠ some boot ∧
        callsTo boot w.journal = callsTo boot (start.run early).journal) ∧
    ∀ early, acts = early ++ [.shutdown] → w.installedBoot = none := by
  intro start w
  have hstart : start.standing.Numbered :=
    numbered_new id factory world cartSave firmwareSave audio mic
  have hshifts : ∀ acts (v : Worker F M), Shifts (fun _ => True) v (v.run acts) :=
    fun acts v => v.shifts_run fun _ _ _ _ _ _ => trivial
  have hnew : start.standing.Ordered :=
    ordered_new id factory world cartSave firmwareSave audio mic
  have hordered : w.standing.Ordered := hnew.steps hstart (hshifts acts start hstart)
  refine ⟨fun early a late hacts hmakes => ?_, hordered.lived, hordered.sorted,
    fun early late boot hacts hcalled hgone => ?_, fun early hacts => ?_⟩
  · intro boot
    obtain ⟨hnever, hinstalled, hstarted⟩ := hmakes.step (numbered_run hstart early)
    refine ⟨hnever, hinstalled, hstarted, hordered.lived boot (.inr ?_)⟩
    have hmade : ((start.run early).step a).standing.Numbered := by
      rw [← run_concat]
      exact numbered_run hstart _
    obtain ⟨later, hlater⟩ := callsTo_run hmade late (start.run early).boots
    have hw : w = ((start.run early).step a).run late := by
      show start.run acts = _
      rw [hacts, run_append]
      rfl
    show callsTo (start.run early).boots w.journal ≠ []
    rw [hw, hlater, hstarted]
    exact List.append_ne_nil_of_right_ne_nil _ (List.cons_ne_nil _ _)
  · have hearly : (start.run early).standing.Numbered := numbered_run hstart early
    have hlate := (⟨hcalled, hgone⟩ : (start.run early).standing.Gone boot).steps
      (hshifts late (start.run early) hearly)
    rw [← run_append, ← hacts] at hlate
    exact ⟨hlate.1.boot, hlate.2⟩
  · show (start.run acts).installedBoot = none
    rw [hacts, run_concat]
    exact installedBoot_shutdown _

/-- A machine that is replaced while it runs, and one that is there at the shutdown. -/
theorem machines_end_stopped_when_replaced :
    let w : Worker ScriptFactory ScriptMachine :=
      (rehearsal {} (.empty [])).run [.take ⟨.bootFirmware, none⟩, .take ⟨.run, none⟩, .poll, .frame [],
        .take ⟨.bootFirmware, none⟩, .shutdown]
    w.standing.Lived 0 ∧ w.standing.Lived 1 ∧ w.installedBoot = none ∧
      callsTo 0 w.journal = [.stop, .runFrame {}, .hearMic none, .start] ∧
      callsTo 1 w.journal = [.stop, .start] := by
  intro w
  obtain ⟨-, hlived, -, -, hnone⟩ := machines_start_once_and_end_stopped (M := ScriptMachine) 0
    (⟨{}, false⟩ : ScriptFactory) ⟨.empty [], {}, 0⟩ none none (.new 0 {} {} {})
    (.new (.empty []) .silence none) [.take ⟨.bootFirmware, none⟩, .take ⟨.run, none⟩, .poll, .frame [],
      .take ⟨.bootFirmware, none⟩, .shutdown]
  change ∀ boot, w.installedBoot = some boot ∨ callsTo boot w.journal ≠ [] → w.standing.Lived boot at hlived
  have hfirst : callsTo 0 w.journal = [.stop, .runFrame {}, .hearMic none, .start] := by decide
  have hsecond : callsTo 1 w.journal = [.stop, .start] := by decide
  exact ⟨hlived 0 (.inr (by rw [hfirst]; nofun)), hlived 1 (.inr (by rw [hsecond]; nofun)),
    hnone [.take ⟨.bootFirmware, none⟩, .take ⟨.run, none⟩, .poll, .frame [],
      .take ⟨.bootFirmware, none⟩] rfl, hfirst, hsecond⟩

end Worker

end Handheld
