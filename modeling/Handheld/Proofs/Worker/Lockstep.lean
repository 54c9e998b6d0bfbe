import Handheld.Proofs.Worker.InStep
import Handheld.Proofs.Worker.Replies

/-!
# Passes in step

Frames, replies and whole steps of workers that are in step (`InStep.step`). Only the end of a frame asks
how many callers wait: it keeps workers in step where that comes out the same for both.
-/

namespace Handheld

/-- The same act, with nobody waiting for a reply. -/
def Act.unaddressed {F : Type} : Act F → Act F
  | .take e => .take ⟨e.command, none⟩
  | a => a

theorem Act.unaddressed_eq_take {F : Type} {a : Act F} {e : Envelope}
    (h : a.unaddressed = (Act.take e).unaddressed) : ∃ f, a = .take f ∧ f.command = e.command := by
  cases a with
  | take f =>
    injection h with h
    injection h with hcommand
    exact ⟨f, rfl, hcommand⟩
  | _ => cases h

theorem Act.eq_of_unaddressed {F : Type} {a b : Act F} (ha : ∀ e, a ≠ .take e)
    (h : a.unaddressed = b.unaddressed) : a = b := by
  cases a with
  | take e => exact absurd rfl (ha e)
  | _ => cases b <;> first | exact h | cases h

namespace Worker

variable {F M : Type} {u v w : Worker F M}

/-- Besides, kept by the calls of a frame. -/
structure InStep.Framing (R : Worker F M → Worker F M → Prop) : Prop extends InStep R where
  call {w v : Worker F M} {c : Call} :
    R w v → ∀ boot, c.isPerFrame = true → R (w.note (.called boot c)) (v.note (.called boot c))

/-- Besides, kept when somebody is answered and when a command is taken, for whomever. -/
structure InStep.Replying (R : Worker F M → Worker F M → Prop) : Prop extends InStep R where
  answer_left {w v : Worker F M} : R w v → ∀ c r, R (w.answer c r) v
  answer_right {w v : Worker F M} : R w v → ∀ c r, R w (v.answer c r)
  taken {w v : Worker F M} {e f : Envelope} :
    R w v → e.command = f.command → R (w.note (.taken e)) (v.note (.taken f))

/-- A step that is over takes one caller with it, and the last one ends in a pause. -/
theorem settleFrame_of_step (h : w.status = .frameStep) : w.settleFrame =
    ({ w with
        status := if w.waiting.length ≤ 1 then .paused else .frameStep
        waiting := w.waiting.tail }.publish).respond w.waiting.head? (.ok ()) := by
  unfold settleFrame
  rw [if_pos h]
  rcases hwaiting : w.waiting with - | ⟨c, - | ⟨d, rest⟩⟩
  · simp [respond]
  · simp [respond]
  · simp [respond, h]

/-- Besides, the calls of a frame keep it. -/
structure Stable.Framing (I : Worker F M → Prop) : Prop extends Stable I where
  call {w : Worker F M} {c : Call} : I w → ∀ boot, c.isPerFrame = true → I (w.note (.called boot c))

theorem Stable.Framing.inStep {I : Worker F M → Prop} (hI : Stable.Framing I) :
    InStep.Framing (Holds I) where
  toInStep := hI.toStable.inStep
  call := by
    rintro w v c ⟨h, waiting, journal, rfl⟩ boot hc
    exact ⟨hI.call h boot hc, waiting, .called boot c :: journal, rfl⟩

/-- Besides, replies and commands that are taken keep it. -/
structure Stable.Replying (I : Worker F M → Prop) : Prop extends Stable I where
  answer {w : Worker F M} : I w → ∀ c r, I (w.answer c r)
  taken {w : Worker F M} : I w → ∀ e, I (w.note (.taken e))

theorem Stable.Replying.inStep {I : Worker F M → Prop} (hI : Stable.Replying I) :
    InStep.Replying (Holds I) where
  toInStep := hI.toStable.inStep
  answer_left := by
    rintro w v ⟨h, waiting, journal, rfl⟩ c r
    exact ⟨hI.answer h c r, waiting, journal, rfl⟩
  answer_right := by
    rintro w v ⟨h, waiting, journal, rfl⟩ c r
    exact ⟨h, waiting, .answered c r w.shown :: journal, rfl⟩
  taken := by
    rintro w v e f ⟨h, waiting, journal, rfl⟩ -
    exact ⟨hI.taken h e, waiting, .taken f :: journal, rfl⟩

namespace InStep

variable {R : Worker F M → Worker F M → Prop}

/-! ## Frames and what is outside -/

theorem outside (hR : InStep R) (h : R w v) {o : Outside F} (ho : ∀ files, o ≠ .disk files) :
    R (w.outside o) (v.outside o) := by
  cases o with
  | flush kind => exact hR.flush h kind
  | disk files => exact absurd rfl (ho files)
  | _ =>
    obtain ⟨waiting, journal, rfl⟩ := hR.recast h
    exact hR.free h ⟨rfl, rfl, rfl, rfl⟩ rfl

theorem outside_of_disk (hR : InStep R)
    (hdisk : ∀ {w v : Worker F M}, R w v → ∀ files, R (w.outside (.disk files)) (v.outside (.disk files)))
    (h : R w v) (o : Outside F) : R (w.outside o) (v.outside o) := by
  by_cases ho : ∃ files, o = .disk files
  · obtain ⟨files, rfl⟩ := ho
    exact hdisk h files
  · exact hR.outside h fun files hfiles => ho ⟨files, hfiles⟩

theorem outsideAll {meanwhile : List (Outside F)} (h : R w v)
    (houtside : ∀ o ∈ meanwhile, ∀ {w v : Worker F M}, R w v → R (w.outside o) (v.outside o)) :
    R (w.outsideAll meanwhile) (v.outsideAll meanwhile) := by
  induction meanwhile generalizing w v with
  | nil => exact h
  | cons o meanwhile ih =>
    exact ih (houtside o List.mem_cons_self h) fun p hp => houtside p (List.mem_cons_of_mem o hp)

variable [Machine M]

omit [Machine M] in
theorem useInFrame (hR : Framing R) (h : R w v) {α : Type} (i : Installed M) (call : α → Call)
    (act : M → Outcome M α) (hcall : ∀ answer, (call answer).isPerFrame = true) :
    R (w.use i call act).2 (v.use i call act).2 :=
  hR.use_of_note h i call act fun hnoted => hR.call hnoted i.boot (hcall _)

theorem beginFrame (hR : Framing R) (h : R w v) (i : Installed M) :
    R (w.beginFrame i).2 (v.beginFrame i).2 ∧ (v.beginFrame i).1 = (w.beginFrame i).1 := by
  obtain ⟨waiting, journal, rfl⟩ := hR.recast h
  rcases hheard : w.mic.nextFrame (w.edges.down .mic) with ⟨signal, mic⟩
  have hother : (w.recast waiting journal).mic.nextFrame ((w.recast waiting journal).edges.down .mic) =
      (signal, mic) := hheard
  have hset : R { w with mic } { w.recast waiting journal with mic } :=
    hR.free h ⟨rfl, rfl, rfl, rfl⟩ rfl
  unfold Worker.beginFrame
  rw [hheard, hother]
  exact ⟨useInFrame hR hset i (fun _ => .hearMic signal) (Machine.hearMic · signal) fun _ => rfl, rfl⟩

theorem moveOutput (hR : Framing R) (reads : Nat) (h : R w v) :
    R (w.moveOutput reads) (v.moveOutput reads) := by
  have hpushed : ∀ {w v : Worker F M}, R w v → ∀ out : List StereoFrame,
      R { w with audio := (w.audio.push out).2 } { v with audio := (v.audio.push out).2 } := by
    intro w v h out
    obtain ⟨waiting, journal, rfl⟩ := hR.recast h
    exact hR.free h ⟨rfl, rfl, rfl, rfl⟩ rfl
  induction reads generalizing w v with
  | zero => exact h
  | succ reads ih =>
    unfold Worker.moveOutput
    rw [hR.machine_eq h]
    split
    · exact h
    · next i _ =>
      split
      · exact h
      · have hread := useInFrame hR h i (fun out => .readOutput outputChunk out.length)
          (Machine.readOutput · outputChunk) fun _ => rfl
        rw [use_answer w, use_answer v]
        dsimp only
        split
        · exact hread
        · exact ih (hpushed hread _)

theorem endFrame (hR : Framing R) (h : R w v) (input : FrameInput) :
    R (w.endFrame input) (v.endFrame input) := by
  have hcounted : ∀ {w v : Worker F M}, R w v →
      R { w with frames := w.frames + 1 } { v with frames := v.frames + 1 } := by
    intro w v h
    obtain ⟨waiting, journal, rfl⟩ := hR.recast h
    exact hR.free h ⟨rfl, rfl, rfl, rfl⟩ rfl
  have hmoved : ∀ {w v : Worker F M}, R w v → R w.moveAllOutput v.moveAllOutput := by
    intro w v h
    unfold moveAllOutput
    rw [hR.machine_eq h]
    split
    · exact h
    · exact moveOutput hR _ h
  unfold Worker.endFrame
  rw [hR.machine_eq h]
  split
  · exact h
  · next i _ =>
    exact hcounted (hmoved (useInFrame hR h i (fun _ => .runFrame input) (Machine.runFrame · input)
      fun _ => rfl))

/-! ## Replies -/

omit [Machine M] in
theorem setWaiting (hR : InStep R) (h : R w v) (ws vs : List Caller) :
    R { w with waiting := ws } { v with waiting := vs } := by
  obtain ⟨waiting, journal, rfl⟩ := hR.recast h
  exact hR.free h ⟨rfl, rfl, rfl, rfl⟩ rfl

omit [Machine M] in
theorem answerAll (hR : Replying R) (h : R w v) (ws vs : List Caller) (r s : Reply) :
    R (ws.foldl (fun w c => w.answer c r) w) (vs.foldl (fun v c => v.answer c s) v) := by
  have hleft : R (ws.foldl (fun w c => w.answer c r) w) v := by
    induction ws generalizing w with
    | nil => exact h
    | cons c ws ih => exact ih (hR.answer_left h c r)
  induction vs generalizing v with
  | nil => exact hleft
  | cons c vs ih => exact ih (hR.answer_right h c s) (hR.answer_right hleft c s)

omit [Machine M] in
theorem answerSteps (hR : Replying R) (h : R w v) (r : Reply) :
    R (w.answerSteps r) (v.answerSteps r) :=
  answerAll hR (hR.setWaiting h [] []) w.waiting v.waiting r r

omit [Machine M] in
theorem respond (hR : Replying R) (h : R w v) (c d : Option Caller) (r s : Reply) :
    R (w.respond c r) (v.respond d s) := by
  have hleft : R (w.respond c r) v := by
    cases c with
    | none => exact h
    | some c => exact hR.answer_left h c r
  cases d with
  | none => exact hleft
  | some d => exact hR.answer_right hleft d s

omit [Machine M] in
theorem publish (hR : InStep R) (h : R w v) : R w.publish v.publish := by
  obtain ⟨waiting, journal, rfl⟩ := hR.recast h
  exact hR.free h ⟨rfl, rfl, rfl, rfl⟩ rfl

omit [Machine M] in
theorem settle (hR : Replying R) (h : R w v) : R w.settle v.settle := by
  have hstatus : v.status = w.status := congrArg Control.status (hR.control_eq h)
  unfold Worker.settle
  rw [hstatus]
  split
  · exact hR.publish h
  all_goals exact hR.publish (answerSteps hR h _)

omit [Machine M] in
theorem settleFrame (hR : Replying R) (h : R w v)
    (hlast : w.status = .frameStep → (w.waiting.length ≤ 1 ↔ v.waiting.length ≤ 1)) :
    R w.settleFrame v.settleFrame := by
  have hstatus : v.status = w.status := congrArg Control.status (hR.control_eq h)
  by_cases hstep : w.status = .frameStep
  · have hsame : (if v.waiting.length ≤ 1 then Status.paused else .frameStep) =
        if w.waiting.length ≤ 1 then .paused else .frameStep := by simp only [hlast hstep]
    rw [settleFrame_of_step hstep, settleFrame_of_step (hstatus.trans hstep), hsame]
    have hset := hR.setWaiting (hR.setStatus h (if w.waiting.length ≤ 1 then .paused else .frameStep))
      w.waiting.tail v.waiting.tail
    exact respond hR (hR.publish hset) _ _ _ _
  · have hother : v.status ≠ .frameStep := fun hv => hstep (hstatus.symm.trans hv)
    unfold Worker.settleFrame
    rw [if_neg hstep, if_neg hother]
    exact hR.publish h

/-! ## Steps of a run -/

theorem poll (hR : Replying R) (h : R w v) : R w.poll v.poll := by
  have hsample : R w.sampleHotkeys v.sampleHotkeys := by
    obtain ⟨waiting, journal, rfl⟩ := hR.recast h
    exact hR.free h ⟨rfl, rfl, rfl, rfl⟩ rfl
  have hpolled : R w.pollHotkeys v.pollHotkeys := by
    have hstatus : v.sampleHotkeys.status = w.sampleHotkeys.status :=
      congrArg Control.status (hR.control_eq hsample)
    unfold pollHotkeys
    dsimp only
    rw [hstatus]
    split
    · exact hsample
    · obtain ⟨w', v', hacted, hw, hv⟩ := hR.actOnHotkeys hsample
      rw [hw, hv]
      exact settle hR hacted
  have htaken : ∀ {w v : Worker F M}, R w v → R w.takeStop v.takeStop := by
    intro w v h
    obtain ⟨waiting, journal, rfl⟩ := hR.recast h
    have hclear : R { w with stopRequested := false }
        { w.recast waiting journal with stopRequested := false } :=
      hR.free h ⟨rfl, rfl, rfl, rfl⟩ rfl
    cases hstop : w.stopRequested with
    | false =>
      have hother : (w.recast waiting journal).stopRequested = false := hstop
      simpa [takeStop, hstop, hother] using h
    | true =>
      have hother : (w.recast waiting journal).stopRequested = true := hstop
      unfold takeStop
      rw [if_pos hstop, if_pos hother]
      exact settle hR (hR.stop hclear false)
  exact htaken hpolled

theorem shutdown (hR : Replying R) (h : R w v) : R w.shutdown v.shutdown := by
  have hended : ∀ {w v : Worker F M}, R w v →
      R { w with machine := none, active := false, status := .exiting }.disableAudio
        { v with machine := none, active := false, status := .exiting }.disableAudio := by
    intro w v h
    obtain ⟨waiting, journal, rfl⟩ := hR.recast h
    exact hR.free h ⟨rfl, rfl, rfl, rfl⟩ rfl
  exact hR.publish (answerSteps hR (hended (hR.useIfAny h .stop Machine.stop rfl)) (.error .exiting))

end InStep

def framed (w : Worker F M) [Machine M] (meanwhile : List (Outside F)) : Worker F M :=
  match w.machine with
  | none => w
  | some i => ((w.beginFrame i).2.outsideAll meanwhile).endFrame (w.beginFrame i).1

variable [Machine M]

theorem frameWith_framed (w : Worker F M) (meanwhile : List (Outside F)) :
    w.frameWith meanwhile = if w.status.runsFrame then (w.framed meanwhile).settleFrame else w := by
  unfold frameWith framed
  cases w.machine <;> rfl

theorem framed_of_machine {i j : Installed M} (hi : w.machine = some i) {meanwhile : List (Outside F)}
    (hj : ((w.beginFrame i).2.outsideAll meanwhile).machine = some j) :
    let ran := (((w.beginFrame i).2.outsideAll meanwhile).use j (fun _ => .runFrame (w.beginFrame i).1)
      (Machine.runFrame · (w.beginFrame i).1)).2
    w.framed meanwhile = { ran.moveAllOutput with frames := ran.moveAllOutput.frames + 1 } := by
  unfold framed endFrame
  rw [hi]
  dsimp only
  rw [hj]

theorem control_framed (w : Worker F M) (meanwhile : List (Outside F)) :
    ∃ notices, (w.framed meanwhile).control = { w.control with notices } := by
  unfold framed
  split
  · exact ⟨w.notices, rfl⟩
  · next i _ =>
    have hbegun : Aside w (w.beginFrame i).2 := w.aside_beginFrame i
    obtain ⟨-, notices, hcontrol, -⟩ := (w.beginFrame i).2.keeps_outsideAll meanwhile
    have hended := aside_endFrame ((w.beginFrame i).2.outsideAll meanwhile) (w.beginFrame i).1
    exact ⟨notices, by rw [hended.control, hcontrol, hbegun.control]⟩

theorem keeps_framed (w : Worker F M) (meanwhile : List (Outside F)) :
    Keeps w (w.framed meanwhile) ∧ (w.framed meanwhile).status = w.status := by
  obtain ⟨notices, hcontrol⟩ := w.control_framed meanwhile
  refine ⟨?_, congrArg Control.status hcontrol⟩
  unfold framed
  split
  · exact .of_eq rfl rfl rfl
  · next i _ =>
    have hbegun : Aside w (w.beginFrame i).2 := w.aside_beginFrame i
    have hmeanwhile := ((w.beginFrame i).2.keeps_outsideAll meanwhile).1
    have hended := aside_endFrame ((w.beginFrame i).2.outsideAll meanwhile) (w.beginFrame i).1
    exact (hbegun.toKeeps.trans hmeanwhile).trans hended.toKeeps

namespace InStep

variable {R : Worker F M → Worker F M → Prop} [Factory F M]

omit [Factory F M] in
theorem framed (hR : Framing R) (h : R w v) {meanwhile : List (Outside F)}
    (houtside : ∀ o ∈ meanwhile, ∀ {w v : Worker F M}, R w v → R (w.outside o) (v.outside o)) :
    R (w.framed meanwhile) (v.framed meanwhile) := by
  unfold Worker.framed
  rw [hR.machine_eq h]
  split
  · exact h
  · next i _ =>
    obtain ⟨hbegun, hinput⟩ := beginFrame hR h i
    rw [hinput]
    exact endFrame hR (outsideAll hbegun houtside) _

theorem handle (hA : Aiming R) (hR : Replying R) (h : R w v) {e f : Envelope}
    (hcommand : e.command = f.command) : R (w.handle e) (v.handle f) := by
  have htaken : R (w.note (.taken e)) (v.note (.taken f)) := hR.taken h hcommand
  have hstatus : v.status = w.status := congrArg Control.status (hR.control_eq h)
  have happlied := apply hA htaken e.command
  unfold Worker.handle
  dsimp only
  by_cases hexiting : w.status = .exiting
  · have hw : (w.note (.taken e)).status = .exiting := hexiting
    have hv : (v.note (.taken f)).status = .exiting := hstatus.trans hexiting
    rw [if_pos hw, if_pos hv]
    exact respond hR htaken _ _ _ _
  · have hw : (w.note (.taken e)).status ≠ .exiting := hexiting
    have hv : (v.note (.taken f)).status ≠ .exiting := fun hv => hexiting (hstatus.symm.trans hv)
    rw [if_neg hw, if_neg hv]
    unfold serve
    dsimp only
    rw [← hcommand]
    split
    · exact settle hR (hR.setWaiting happlied _ _)
    · exact respond hR (settle hR happlied) _ _ _ _

theorem step (hA : Aiming R) (hF : Framing R) (hR : Replying R) (h : R w v) {a b : Act F}
    (hab : a.unaddressed = b.unaddressed)
    (hlast : ∀ meanwhile, a = .frame meanwhile → w.status = .frameStep →
      (w.waiting.length ≤ 1 ↔ v.waiting.length ≤ 1)) : R (w.step a) (v.step b) := by
  by_cases htake : ∃ e, a = .take e
  · obtain ⟨e, rfl⟩ := htake
    obtain ⟨f, rfl, hcommand⟩ := Act.unaddressed_eq_take hab.symm
    exact handle hA hR h hcommand.symm
  · obtain rfl : a = b := Act.eq_of_unaddressed (fun e he => htake ⟨e, he⟩) hab
    cases a with
    | take e => exact absurd ⟨e, rfl⟩ htake
    | poll => exact poll hR h
    | frame meanwhile =>
      have hstatus : v.status = w.status := congrArg Control.status (hR.control_eq h)
      have hframed : R (w.framed meanwhile) (v.framed meanwhile) :=
        framed hF h fun o _ _ _ h => outside_of_disk hR.toInStep hA.disk h o
      show R (w.frameWith meanwhile) (v.frameWith meanwhile)
      rw [frameWith_framed, frameWith_framed, hstatus]
      split
      · obtain ⟨hw, hwstatus⟩ := w.keeps_framed meanwhile
        obtain ⟨hv, -⟩ := v.keeps_framed meanwhile
        refine settleFrame hR hframed fun hstep => ?_
        rw [hw.waiting, hv.waiting]
        exact hlast meanwhile rfl (hwstatus.symm.trans hstep)
      · exact h
    | outside o => exact outside_of_disk hR.toInStep hA.disk h o
    | shutdown => exact shutdown hR h

end InStep

theorem Stable.step {I : Worker F M → Prop} [Factory F M] (hA : Stable.Aiming I)
    (hF : Stable.Framing I) (hR : Stable.Replying I) (h : I w) (a : Act F) : I (w.step a) :=
  (InStep.step hA.inStep hF.inStep hR.inStep (Holds.of_self h) rfl fun _ _ _ => Iff.rfl).1

end Worker

end Handheld
