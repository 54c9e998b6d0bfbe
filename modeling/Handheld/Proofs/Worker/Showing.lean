import Handheld.Proofs.Worker.Replies
import Handheld.Proofs.Worker.Shifting
import Handheld.Proofs.Worker.Stepping

/-!
# What can be seen when a reply comes

A worker publishes its new state and then replies, so that whoever gets a reply sees what it is about.
One kind of reply comes too early: callers of a frame step that is cut short are let go before the new
state is published, and still see the step (`replies_show_new_state_iff`). Between two steps of a run what
is published is what the worker is in, and nobody waits unless a step is to run; so a step of the run
publishes anew, or changes nothing that can be seen, and `LetsGo` says whom it lets go of and what they see.
-/

namespace Handheld

/-- Who got a reply, and what could be seen then. -/
def sights (events : List Event) : List (Caller × Shown) :=
  events.filterMap fun e =>
    match e with
    | .answered c _ shown => some (c, shown)
    | _ => none

namespace Standing

variable {may : License → Prop} {s t : Standing}

/-- Without the license to settle nothing is published, nobody gets a reply, and whoever waits still
does. -/
theorem unsettled_steps (hsettle : ¬may .settle) (hsteps : Relation.ReflTransGen (Step may) s t) :
    t.shown = s.shown ∧ t.waiting = s.waiting ∧ sights t.journal = sights s.journal := by
  induction hsteps with
  | refl => exact ⟨rfl, rfl, rfl⟩
  | tail _ hstep ih =>
    cases hstep with
    | @enter e he =>
      refine ⟨ih.1, ih.2.1, ?_⟩
      cases e with
      | answered => exact he.elim
      | _ => exact ih.2.2
    | publish _ hmay => exact absurd hmay hsettle
    | queue _ hmay => exact absurd hmay hsettle
    | answer _ _ hmay => exact absurd hmay hsettle
    | _ => exact ih

end Standing

namespace Worker

variable {F M : Type} {u v w : Worker F M}

/-- What is to be seen of the state a worker is in. -/
def mirror (w : Worker F M) : Shown := ⟨w.status, w.pauses.depth, w.active⟩

/-- What is published is what the worker is in, and nobody waits unless a step is to run. -/
structure Settled (w : Worker F M) : Prop where
  shown : w.shown = w.mirror
  patient : w.Patient

theorem Settled.stepping (h : w.Settled) (hwaiting : w.waiting ≠ []) :
    w.status = .frameStep ∧ w.shown.status = .frameStep := by
  have hstatus : w.status = .frameStep := by
    by_contra hne
    exact hwaiting (h.patient hne)
  exact ⟨hstatus, by rw [h.shown]; exact hstatus⟩

/-! ## Settling -/

theorem sights_answerSteps (w : Worker F M) (r : Reply) :
    sights (w.answerSteps r).journal = (w.waiting.map (·, w.shown)).reverse ++ sights w.journal := by
  suffices ∀ (cs : List Caller) (v : Worker F M),
      sights (cs.foldl (fun v c => v.answer c r) v).journal =
        (cs.map (·, v.shown)).reverse ++ sights v.journal from
    this w.waiting { w with waiting := [] }
  intro cs
  induction cs with
  | nil => exact fun v => rfl
  | cons c cs ih =>
    intro v
    rw [List.map_cons, List.reverse_cons, List.append_assoc]
    exact ih (v.answer c r)

theorem sights_settle (w : Worker F M) : sights w.settle.journal =
    (if w.status = .frameStep then [] else (w.waiting.map (·, w.shown)).reverse) ++
      sights w.journal := by
  unfold settle
  split
  · next h =>
    rw [if_pos h]
    rfl
  all_goals
    next h =>
    have hstep : w.status ≠ .frameStep := by simp [h]
    rw [if_neg hstep]
    exact w.sights_answerSteps _

theorem settled_settle (w : Worker F M) : w.settle.Settled where
  shown := by
    have hpublished : w.settle.shown = w.mirror := by
      unfold settle
      split
      · rfl
      all_goals
        obtain ⟨journal, h⟩ := w.answerSteps_eq _
        rw [h]
        rfl
    have hcontrol := w.control_settle
    rw [hpublished]
    exact (congrArg (fun c : Control => (⟨c.status, c.pauses.depth, c.active⟩ : Shown)) hcontrol).symm
  patient := by
    intro hstatus
    rw [status_settle] at hstatus
    rw [waiting_settle, if_neg hstatus]

theorem settled_respond (h : w.Settled) (c : Option Caller) (r : Reply) : (w.respond c r).Settled := by
  cases c with
  | none => exact h
  | some c => exact ⟨h.shown, h.patient⟩

/-! ## Who is let go -/

/-- Nobody is answered but those who wait, all of them if the step that was to run is cut short, and they
see that step. -/
structure LetsGo (w v : Worker F M) : Prop where
  told : ∃ told, sights v.journal = told ++ sights w.journal ∧
    (∀ p ∈ told, p.1 ∈ w.waiting ∧ p.2.status = .frameStep) ∧
    (told = [] ↔ w.waiting = [] ∨ v.status = .frameStep)
  waiting : v.waiting = if v.status = .frameStep then w.waiting else []

/-- Nobody is let go as long as whoever waits has a step to wait for. -/
theorem LetsGo.of_eq (hsights : sights v.journal = sights w.journal) (hwaiting : v.waiting = w.waiting)
    (hstep : w.waiting = [] ∨ v.status = .frameStep) : LetsGo w v where
  told := ⟨[], hsights, by simp, iff_of_true rfl hstep⟩
  waiting := by
    rw [hwaiting]
    split
    · rfl
    · next hne => exact hstep.resolve_right hne

theorem letsGo_settle (h : w.Settled) (hshown : u.shown = w.shown) (hwaiting : u.waiting = w.waiting)
    (hsights : sights u.journal = sights w.journal) : LetsGo w u.settle where
  told := by
    refine ⟨_, by rw [sights_settle, hsights], ?_, ?_⟩
    · intro p hp
      rw [hshown, hwaiting] at hp
      split at hp
      · cases hp
      · obtain ⟨c, hc, rfl⟩ := List.mem_map.mp (List.mem_reverse.mp hp)
        exact ⟨hc, (h.stepping (List.ne_nil_of_mem hc)).2⟩
    · rw [status_settle, hwaiting]
      split
      · next hstep => simp [hstep]
      · next hstep => simp [hstep]
  waiting := by rw [waiting_settle, status_settle, hwaiting]

theorem LetsGo.trans (huv : LetsGo u v) (hvw : LetsGo v w)
    (hstep : w.status = .frameStep → v.status = .frameStep) : LetsGo u w where
  told := by
    obtain ⟨early, hearly, hseen, hnone⟩ := huv.told
    obtain ⟨late, hlate, hseenLate, hnoneLate⟩ := hvw.told
    have hsub : ∀ c ∈ v.waiting, c ∈ u.waiting := by
      intro c hc
      rw [huv.waiting] at hc
      split at hc
      · exact hc
      · cases hc
    refine ⟨late ++ early, by rw [hlate, hearly, List.append_assoc], fun p hp => ?_, ?_⟩
    · rcases List.mem_append.mp hp with hp | hp
      · exact ⟨hsub _ (hseenLate p hp).1, (hseenLate p hp).2⟩
      · exact hseen p hp
    · rw [List.append_eq_nil_iff, hnone, hnoneLate, huv.waiting]
      by_cases hv : v.status = .frameStep
      · simp only [hv, if_true]
        tauto
      · have hw : w.status ≠ .frameStep := fun h => hv (hstep h)
        simp [hv, hw]
  waiting := by
    rw [hvw.waiting, huv.waiting]
    split
    · next h => rw [if_pos (hstep h)]
    · rfl

/-! ## One step -/

variable [Machine M] [Factory F M]

/-- A step of a run other than a frame takes the worker out of its step while somebody waits for that. -/
def CutsShort (w : Worker F M) (a : Act F) : Prop :=
  w.waiting ≠ [] ∧ (∀ meanwhile, a ≠ .frame meanwhile) ∧ (w.step a).status ≠ .frameStep

/-- Whoever gets a reply sees the new state, but for those who waited for a step that is cut short. -/
structure Shows (cut : Prop) (w v : Worker F M) : Prop where
  settled : v.Settled
  told : ∃ told, sights v.journal = told ++ sights w.journal ∧
    (∀ p ∈ told, p.2 = v.mirror ∨ p.1 ∈ w.waiting ∧ p.2.status = .frameStep) ∧
    ((∀ p ∈ told, p.2 = v.mirror) ↔ ¬cut)

omit [Machine M] [Factory F M] in
theorem LetsGo.shows (h : LetsGo w v) (hv : v.Settled) :
    Shows (w.waiting ≠ [] ∧ v.status ≠ .frameStep) w v where
  settled := hv
  told := by
    obtain ⟨told, hsights, hseen, hnone⟩ := h.told
    refine ⟨told, hsights, fun p hp => .inr (hseen p hp), fun hfresh hcut => ?_, fun hcut p hp => ?_⟩
    · -- somebody was told, and saw a step that is not to run any more
      have hsome : told ≠ [] := fun heq => (hnone.mp heq).elim hcut.1 hcut.2
      obtain ⟨p, hp⟩ := List.exists_mem_of_ne_nil told hsome
      have hstatus := (hseen p hp).2
      rw [hfresh p hp] at hstatus
      exact hcut.2 hstatus
    · have hstep : w.waiting = [] ∨ v.status = .frameStep := by tauto
      rw [hnone.mpr hstep] at hp
      cases hp

omit [Machine M] [Factory F M] in
theorem Shows.respond {cut : Prop} (h : Shows cut w v) (c : Option Caller) (r : Reply) :
    Shows cut w (v.respond c r) := by
  cases c with
  | none => exact h
  | some c =>
    have hsettled : (v.respond (some c) r).Settled := settled_respond h.settled (some c) r
    obtain ⟨told, hsights, hseen, hcut⟩ := h.told
    have hfresh : v.shown = (v.respond (some c) r).mirror := h.settled.shown
    refine ⟨hsettled, (c, v.shown) :: told, ?_, fun p hp => ?_, ?_⟩
    · show (c, v.shown) :: sights v.journal = _
      rw [hsights, List.cons_append]
    · rcases List.mem_cons.mp hp with rfl | hp
      · exact .inl hfresh
      · exact hseen p hp
    · rw [List.forall_mem_cons]
      exact (and_iff_right hfresh).trans hcut

omit [Machine M] [Factory F M] in
theorem Shows.of_unseen {cut : Prop} (hv : v.Settled) (hsights : sights v.journal = sights w.journal)
    (hcut : ¬cut) : Shows cut w v where
  settled := hv
  told := ⟨[], hsights, by simp, iff_of_true (by simp) hcut⟩

omit [Machine M] [Factory F M] in
theorem Shows.congr {cut short : Prop} (h : Shows cut w v) (hcut : short ↔ cut) : Shows short w v := by
  rwa [propext hcut]

theorem shows_handle (hw : w.standing.Numbered) (h : w.Settled) (e : Envelope) :
    Shows (w.waiting ≠ [] ∧ (w.handle e).status ≠ .frameStep) w (w.handle e) := by
  let taken := w.note (.taken e)
  have hstatus : ∀ (u : Worker F M) (r : Reply), (u.respond e.caller r).status = u.status := by
    intro u r
    cases e.caller <;> rfl
  by_cases hexiting : w.status = .exiting
  · have hnobody : w.waiting = [] := h.patient (by simp [hexiting])
    have hsettled : taken.Settled := ⟨h.shown, h.patient⟩
    have hquiet : LetsGo w taken := .of_eq rfl rfl (.inl hnobody)
    rw [handle_of_exiting hexiting, hstatus]
    exact (hquiet.shows hsettled).respond _ _
  · let may : License → Prop := (· ≠ .settle)
    have happlied : Shifts may w (taken.apply e.command).1 := by
      have htaken : Shifts may w taken := w.shifts_note trivial
      exact htaken.trans (taken.shifts_apply e.command nofun (fun _ _ => nofun) fun _ => nofun)
    obtain ⟨hshown, hwaiting, hsights⟩ :=
      Standing.unsettled_steps (fun hmay => hmay rfl) (happlied hw)
    by_cases hstep : e.command = .frameStep
    · -- whoever asks for a step begins to wait
      let queued : Worker F M :=
        { (taken.apply e.command).1 with
          waiting := (taken.apply e.command).1.waiting ++ e.caller.toList }
      have hhandle : w.handle e = queued.settle := by
        have hawake : taken.status ≠ .exiting := hexiting
        unfold handle serve
        dsimp only
        rw [if_neg hawake, if_pos hstep]
      have hstepping : queued.status = .frameStep := by
        show (taken.apply e.command).1.status = .frameStep
        rw [hstep]
        rfl
      rw [hhandle, status_settle]
      refine .of_unseen queued.settled_settle ?_ fun hcut => hcut.2 hstepping
      rw [sights_settle, if_pos hstepping]
      exact hsights
    · rw [handle_of_awake hexiting hstep, hstatus]
      have hsettled := (letsGo_settle h hshown hwaiting hsights).shows (settled_settle _)
      exact hsettled.respond _ _

omit [Factory F M] in
theorem letsGo_pollHotkeys (hw : w.standing.Numbered) (h : w.Settled) :
    LetsGo w w.pollHotkeys ∧ w.pollHotkeys.Settled := by
  unfold pollHotkeys
  dsimp only
  split
  · next hexiting =>
    have hnobody : w.waiting = [] := h.patient fun hstep => by
      change w.status = .exiting at hexiting
      rw [hexiting] at hstep
      cases hstep
    exact ⟨.of_eq rfl rfl (.inl hnobody), h.shown, h.patient⟩
  · obtain ⟨u, heq, hu⟩ : ∃ u, w.sampleHotkeys.actOnHotkeys = u.settle ∧
        Shifts (· ≠ .settle) w.sampleHotkeys u := w.sampleHotkeys.actOnHotkeys_shifts nofun
    obtain ⟨hshown, hwaiting, hsights⟩ := Standing.unsettled_steps (fun hmay => hmay rfl) (hu hw)
    rw [heq]
    exact ⟨letsGo_settle h hshown hwaiting hsights, u.settled_settle⟩

omit [Factory F M] in
theorem letsGo_takeStop (h : w.Settled) : LetsGo w w.takeStop ∧ w.takeStop.Settled := by
  unfold takeStop
  split
  · exact ⟨letsGo_settle h rfl rfl rfl, settled_settle _⟩
  · refine ⟨.of_eq rfl rfl ?_, h⟩
    by_cases hwaiting : w.waiting = []
    · exact .inl hwaiting
    · exact .inr (h.stepping hwaiting).1

omit [Factory F M] in
theorem shows_poll (hw : w.standing.Numbered) (h : w.Settled) :
    Shows (w.waiting ≠ [] ∧ w.poll.status ≠ .frameStep) w w.poll := by
  obtain ⟨hhotkeys, hpolled⟩ := letsGo_pollHotkeys hw h
  obtain ⟨hstop, hstopped⟩ := letsGo_takeStop hpolled
  refine (hhotkeys.trans hstop fun hstep => ?_).shows hstopped
  -- a stop never leads to a step
  have hcontrol := congrArg Control.status w.pollHotkeys.control_takeStop
  change w.pollHotkeys.takeStop.status = _ at hcontrol
  rw [hcontrol] at hstep
  split at hstep
  · cases hstep
  · exact hstep

omit [Factory F M] in
theorem shows_frameWith (hw : w.standing.Numbered) (h : w.Settled) (meanwhile : List (Outside F)) :
    Shows False w (w.frameWith meanwhile) := by
  let may : License → Prop := (· ≠ .settle)
  have hshifts : Shifts may w (w.framed meanwhile) := w.shifts_framed meanwhile fun _ => nofun
  obtain ⟨-, hwaiting, hsights⟩ := Standing.unsettled_steps (fun hmay => hmay rfl) (hshifts hw)
  obtain ⟨-, hstatus⟩ := w.keeps_framed meanwhile
  rw [frameWith_framed]
  split
  · by_cases hstep : (w.framed meanwhile).status = .frameStep
    · rw [settleFrame_of_step hstep]
      refine Shows.respond ?_ _ _
      refine .of_unseen ⟨rfl, fun hover => ?_⟩ hsights not_false
      change (if (w.framed meanwhile).waiting.length ≤ 1 then Status.paused else .frameStep) ≠ _
        at hover
      have hlast : (w.framed meanwhile).waiting.length ≤ 1 := by
        by_contra hmore
        exact hover (if_neg hmore)
      refine List.eq_nil_of_length_eq_zero ?_
      show (w.framed meanwhile).waiting.tail.length = 0
      rw [List.length_tail]
      omega
    · have hpublish : (w.framed meanwhile).settleFrame = (w.framed meanwhile).publish := by
        unfold settleFrame
        rw [if_neg hstep]
      rw [hpublish]
      refine .of_unseen ⟨rfl, fun _ => ?_⟩ hsights not_false
      exact hwaiting.trans (h.patient (hstatus ▸ hstep))
  · exact .of_unseen h rfl not_false

omit [Machine M] [Factory F M] in
theorem shows_outside (hw : w.standing.Numbered) (h : w.Settled) (o : Outside F) :
    Shows (w.waiting ≠ [] ∧ (w.outside o).status ≠ .frameStep) w (w.outside o) := by
  let may : License → Prop := (· ≠ .settle)
  have hshifts : Shifts may w (w.outside o) := w.shifts_outside o fun _ => nofun
  obtain ⟨hshown, hwaiting, hsights⟩ := Standing.unsettled_steps (fun hmay => hmay rfl) (hshifts hw)
  obtain ⟨hkeeps, notices, hcontrol, -⟩ := w.keeps_outside o
  have hstatus : (w.outside o).status = w.status := congrArg Control.status hcontrol
  have hmirror : (w.outside o).mirror = w.mirror :=
    congrArg (fun c : Control => (⟨c.status, c.pauses.depth, c.active⟩ : Shown)) hcontrol
  refine .of_unseen ⟨?_, h.patient.keeps hkeeps hstatus⟩ hsights fun hcut => ?_
  · exact hshown.trans (h.shown.trans hmirror.symm)
  · exact hcut.2 (hstatus.trans (h.stepping hcut.1).1)

omit [Factory F M] in
theorem shows_shutdown (hw : w.standing.Numbered) (h : w.Settled) :
    Shows (w.waiting ≠ [] ∧ w.shutdown.status ≠ .frameStep) w w.shutdown := by
  let may : License → Prop := (· ≠ .settle)
  let stopped : Worker F M :=
    { w.useIfAny .stop Machine.stop with
      machine := none, active := false, status := .exiting }.disableAudio
  have hshifts : Shifts may w (w.useIfAny .stop Machine.stop) := w.shifts_useIfAny .stop nofun _
  obtain ⟨hshown, hwaiting, hsights⟩ := Standing.unsettled_steps (fun hmay => hmay rfl) (hshifts hw)
  have hshutdown : w.shutdown = stopped.settle := rfl
  have hlets : LetsGo w stopped.settle := letsGo_settle h hshown hwaiting hsights
  rw [hshutdown]
  exact hlets.shows stopped.settled_settle

theorem shows_step (hw : w.standing.Numbered) (h : w.Settled) (a : Act F) :
    Shows (w.CutsShort a) w (w.step a) := by
  cases a with
  | take e => exact (shows_handle hw h e).congr (by simp [CutsShort, step])
  | poll => exact (shows_poll hw h).congr (by simp [CutsShort, step])
  | frame meanwhile => exact (shows_frameWith hw h meanwhile).congr (by simp [CutsShort])
  | outside o => exact (shows_outside hw h o).congr (by simp [CutsShort, step])
  | shutdown => exact (shows_shutdown hw h).congr (by simp [CutsShort, step])

theorem settled_run (hw : w.standing.Numbered) (h : w.Settled) (acts : List (Act F)) :
    (w.run acts).Settled := by
  induction acts generalizing w with
  | nil => exact h
  | cons a acts ih => exact ih (numbered_run hw [a]) (shows_step hw h a).settled

/-- **Whoever gets a reply sees the new state, but for those whose step is cut short.** Between any two
steps of a run of a worker what is published is what the worker is in. Whoever gets a reply in the next
step of the run sees the state after that step, or waits for a frame step and sees that one still is to
run; and all of them see the state after it exactly if it does not cut short a step that somebody waits
for: a command, a hotkey, a wish to be stopped or the shutdown that takes the worker out of its step lets
go of those who wait before it publishes. -/
theorem replies_show_new_state_iff (id : Nat) (factory : F) (world : World)
    (cartSave firmwareSave : Option Path) (audio : Pipeline) (mic : MicInput) (acts : List (Act F))
    (a : Act F) :
    let w : Worker F M := .new id factory world cartSave firmwareSave audio mic
    let v := w.run acts
    v.shown = v.mirror ∧
    ∃ told, sights (v.step a).journal = told ++ sights v.journal ∧
      (∀ p ∈ told, p.2 = (v.step a).mirror ∨ p.1 ∈ v.waiting ∧ p.2.status = .frameStep) ∧
      ((∀ p ∈ told, p.2 = (v.step a).mirror) ↔ ¬v.CutsShort a) := by
  intro w v
  have hw : w.standing.Numbered := numbered_new id factory world cartSave firmwareSave audio mic
  have hnew : w.Settled := ⟨rfl, fun _ => rfl⟩
  have hsettled : v.Settled := settled_run hw hnew acts
  have hv : v.standing.Numbered := numbered_run hw acts
  exact ⟨hsettled.shown, (shows_step hv hsettled a).told⟩

/-- A frame step and the command to run in one batch: the worker runs, and the caller of the step is told
that it is over while everybody still sees the step. -/
theorem step_over_while_it_shows :
    let w : Worker ScriptFactory ScriptMachine := (rehearsal {} (.empty [])).run
      [.take ⟨.bootFirmware, none⟩, .take ⟨.run, none⟩, .take ⟨.frameStep, some 1⟩]
    let v := w.step (.take ⟨.run, none⟩)
    v.journal.head? = some (.answered 1 (.ok ()) ⟨.frameStep, 1, true⟩) ∧
      v.mirror = ⟨.running, 0, true⟩ := by
  decide

end Worker

end Handheld
