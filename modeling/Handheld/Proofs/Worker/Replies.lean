import Handheld.Proofs.Worker.Steering
import Mathlib.Data.List.Perm.Basic

/-!
# Replies

Every command that somebody waits for is answered once by the time the worker is shut down, and frame
steps are answered in the order in which they were taken (`every_caller_answered_once`). `Accounts` says
which reply of a journal goes to which command: callers of steps queue in `waiting`, and the one command
that is being carried out is `owed` a reply. Whatever is `Silent` in the journal leaves the account as it
is; taking, answering and letting go of the queue each move it by one entry.
-/

namespace Handheld

/-- A command that somebody waits for. -/
structure Errand where
  command : Command
  caller : Caller
deriving DecidableEq

namespace Errand

def isStep (e : Errand) : Bool := e.command = .frameStep

def step (c : Caller) : Errand := ⟨.frameStep, c⟩

end Errand

/-- What an envelope asks for somebody, if anybody waits. -/
def Envelope.errands (e : Envelope) : List Errand := e.caller.toList.map fun c => ⟨e.command, c⟩

/-- The commands taken among events that somebody waits for, in the same order. -/
def errands (events : List Event) : List Errand :=
  events.flatMap fun e =>
    match e with
    | .taken envelope => envelope.errands
    | _ => []

theorem errands_append (early late : List Event) :
    errands (early ++ late) = errands early ++ errands late := List.flatMap_append

theorem errands_taken (events : List Event) (e : Envelope) :
    errands (events ++ [.taken e]) = errands events ++ e.errands := by
  rw [errands_append]
  exact congrArg _ (List.append_nil _)

theorem errands_answered (events : List Event) (c : Caller) (r : Reply) (shown : Shown) :
    errands (events ++ [.answered c r shown]) = errands events := by
  rw [errands_append]
  exact List.append_nil _

theorem replies_append (early late : List Event) :
    replies (early ++ late) = replies early ++ replies late := List.filterMap_append

theorem isStep_of_mem_errands {e : Envelope} {a : Errand} (h : a ∈ e.errands) :
    a.isStep = decide (e.command = .frameStep) := by
  obtain ⟨c, -, rfl⟩ := List.mem_map.mp h
  rfl

/-- Each reply among events, oldest first, goes to a command of its own: steps are answered in the order
in which they were taken, and so are the others; what is still to be answered is waiting or owed. -/
structure Accounts (events : List Event) (waiting : List Caller) (owed : List Errand)
    (answers : List (Errand × Reply)) : Prop where
  replies : replies events = answers.map fun a => (a.1.caller, a.2)
  steps : (answers.map Prod.fst).filter Errand.isStep ++ waiting.map Errand.step =
    (errands events).filter Errand.isStep
  others : (answers.map Prod.fst).filter (!Errand.isStep ·) ++ owed =
    (errands events).filter (!Errand.isStep ·)

namespace Accounts

variable {events : List Event} {waiting : List Caller} {owed : List Errand}
  {answers : List (Errand × Reply)}

theorem empty : Accounts [] [] [] [] := ⟨rfl, rfl, rfl⟩

theorem perm (h : Accounts events waiting owed answers) :
    (answers.map Prod.fst ++ (waiting.map Errand.step ++ owed)).Perm (errands events) := by
  have hanswers := List.filter_append_perm Errand.isStep (answers.map Prod.fst)
  have herrands := List.filter_append_perm Errand.isStep (errands events)
  have hswap : ((answers.map Prod.fst).filter (!Errand.isStep ·) ++
      (waiting.map Errand.step ++ owed)).Perm
      (waiting.map Errand.step ++ ((answers.map Prod.fst).filter (!Errand.isStep ·) ++ owed)) := by
    rw [← List.append_assoc, ← List.append_assoc]
    exact List.perm_append_comm.append_right owed
  refine (hanswers.symm.append_right _).trans (List.Perm.trans ?_ herrands)
  rw [List.append_assoc, ← h.steps, ← h.others, List.append_assoc]
  exact hswap.append_left _

theorem silent (h : Accounts events waiting owed answers) {more : List Event}
    (hmore : ∀ e ∈ more, e.Silent) : Accounts (events ++ more) waiting owed answers := by
  have hreplies : Handheld.replies more = [] := by
    refine List.filterMap_eq_nil_iff.mpr fun e he => ?_
    have hsilent := hmore e he
    cases e with
    | answered => exact hsilent.elim
    | _ => rfl
  have herrands : errands more = [] := by
    refine List.flatMap_eq_nil_iff.mpr fun e he => ?_
    have hsilent := hmore e he
    cases e with
    | taken => exact hsilent.elim
    | _ => rfl
  refine ⟨?_, ?_, ?_⟩
  · rw [replies_append, hreplies, List.append_nil, h.replies]
  · rw [errands_append, herrands, List.append_nil, h.steps]
  · rw [errands_append, herrands, List.append_nil, h.others]

theorem take_step (h : Accounts events waiting owed answers) {e : Envelope}
    (he : e.command = .frameStep) :
    Accounts (events ++ [.taken e]) (waiting ++ e.caller.toList) owed answers := by
  have hwaiting : e.errands = e.caller.toList.map Errand.step := by
    rw [Envelope.errands, he]
    rfl
  have hstep : ∀ a ∈ e.errands, a.isStep = true := by
    intro a ha
    rw [isStep_of_mem_errands ha, he]
    rfl
  have hsteps : e.errands.filter Errand.isStep = e.errands := List.filter_eq_self.mpr hstep
  have hothers : e.errands.filter (!Errand.isStep ·) = [] := by
    rw [List.filter_eq_nil_iff]
    intro a ha
    simp [hstep a ha]
  refine ⟨?_, ?_, ?_⟩
  · rw [replies_append]
    exact (List.append_nil _).trans h.replies
  · rw [errands_taken, List.filter_append, ← h.steps, hsteps, hwaiting, List.map_append,
      List.append_assoc]
  · rw [errands_taken, List.filter_append, hothers, List.append_nil, h.others]

theorem take_other (h : Accounts events waiting owed answers) {e : Envelope}
    (he : e.command ≠ .frameStep) :
    Accounts (events ++ [.taken e]) waiting (owed ++ e.errands) answers := by
  have hnostep : ∀ a ∈ e.errands, a.isStep = false := by
    intro a ha
    rw [isStep_of_mem_errands ha, decide_eq_false he]
  have hsteps : e.errands.filter Errand.isStep = [] := by
    rw [List.filter_eq_nil_iff]
    intro a ha
    simp [hnostep a ha]
  have hothers : e.errands.filter (!Errand.isStep ·) = e.errands := by
    rw [List.filter_eq_self]
    intro a ha
    simp [hnostep a ha]
  refine ⟨?_, ?_, ?_⟩
  · rw [replies_append]
    exact (List.append_nil _).trans h.replies
  · rw [errands_taken, List.filter_append, hsteps, List.append_nil, h.steps]
  · rw [errands_taken, List.filter_append, hothers, ← List.append_assoc, h.others]

theorem answer_step {c : Caller} (h : Accounts events (c :: waiting) owed answers) (r : Reply)
    (shown : Shown) :
    Accounts (events ++ [.answered c r shown]) waiting owed (answers ++ [(Errand.step c, r)]) := by
  refine ⟨?_, ?_, ?_⟩
  · rw [replies_append, h.replies, List.map_append]
    rfl
  · rw [errands_answered, List.map_append, List.filter_append, List.append_assoc, ← h.steps]
    rfl
  · rw [errands_answered, List.map_append, List.filter_append, ← h.others]
    exact congrArg (· ++ owed) (List.append_nil _)

theorem answer_other {a : Errand} (h : Accounts events waiting (a :: owed) answers)
    (ha : a.isStep = false) (r : Reply) (shown : Shown) :
    Accounts (events ++ [.answered a.caller r shown]) waiting owed (answers ++ [(a, r)]) := by
  refine ⟨?_, ?_, ?_⟩
  · rw [replies_append, h.replies, List.map_append]
    rfl
  · rw [errands_answered, List.map_append, List.filter_append, ← h.steps]
    simp [ha]
  · rw [errands_answered, List.map_append, List.filter_append, ← h.others]
    simp [ha]

end Accounts

namespace Worker

variable {F M : Type} {v w : Worker F M} {owed : List Errand}

/-- Every reply so far went to a command of its own, and what is still to come is waiting or owed. -/
def Accounted (owed : List Errand) (w : Worker F M) : Prop :=
  ∃ answers, Accounts w.journal.reverse w.waiting owed answers

/-- Callers of steps wait only while a step is to run. -/
def Patient (w : Worker F M) : Prop := w.status ≠ .frameStep → w.waiting = []

theorem Accounted.of_eq (h : w.Accounted owed) (hjournal : v.journal = w.journal)
    (hwaiting : v.waiting = w.waiting) : v.Accounted owed := by
  unfold Accounted at h ⊢
  rwa [hjournal, hwaiting]

theorem Accounted.keeps (h : w.Accounted owed) (hkeeps : Keeps w v) : v.Accounted owed := by
  obtain ⟨answers, h⟩ := h
  obtain ⟨added, hjournal, hsilent⟩ := hkeeps.adds
  refine ⟨answers, ?_⟩
  rw [hjournal, List.reverse_append, hkeeps.waiting]
  exact h.silent fun e he => hsilent e (List.mem_reverse.mp he)

theorem Accounted.answer {c : Caller} {rest : List Caller} (h : w.Accounted owed)
    (hwaiting : w.waiting = c :: rest) (v : Worker F M) (hv : v.journal = w.journal)
    (hrest : v.waiting = rest) (r : Reply) : (v.answer c r).Accounted owed := by
  obtain ⟨answers, h⟩ := h
  rw [hwaiting] at h
  refine ⟨answers ++ [(Errand.step c, r)], ?_⟩
  show Accounts (.answered c r v.shown :: v.journal).reverse v.waiting owed _
  rw [List.reverse_cons, hv, hrest]
  exact h.answer_step r v.shown

theorem Accounted.answerSteps (h : w.Accounted owed) (r : Reply) :
    (w.answerSteps r).Accounted owed ∧ (w.answerSteps r).waiting = [] := by
  -- the queue is let go at once, and the account goes on with the callers that are left in the fold
  suffices ∀ (cs : List Caller) (v : Worker F M), v.waiting = [] →
      (∃ answers, Accounts v.journal.reverse cs owed answers) →
      (cs.foldl (fun v c => v.answer c r) v).Accounted owed ∧
      (cs.foldl (fun v c => v.answer c r) v).waiting = [] from
    this w.waiting { w with waiting := [] } rfl h
  intro cs
  induction cs with
  | nil => exact fun v hnone hv => ⟨by rw [Accounted, List.foldl_nil, hnone]; exact hv, hnone⟩
  | cons c cs ih =>
    rintro v hnone ⟨answers, hv⟩
    refine ih (v.answer c r) hnone ⟨answers ++ [(Errand.step c, r)], ?_⟩
    show Accounts (.answered c r v.shown :: v.journal).reverse cs owed _
    rw [List.reverse_cons]
    exact hv.answer_step r v.shown

theorem Accounted.settle (h : w.Accounted owed) : w.settle.Accounted owed ∧ w.settle.Patient := by
  have hstatus : w.settle.status = w.status := w.status_settle
  unfold Patient
  rw [hstatus]
  unfold Worker.settle
  cases w.status with
  | frameStep => exact ⟨h.of_eq rfl rfl, fun hne => absurd rfl hne⟩
  | exiting =>
    obtain ⟨hsettled, hnone⟩ := h.answerSteps (.error .exiting)
    exact ⟨hsettled.of_eq rfl rfl, fun _ => hnone⟩
  | running =>
    obtain ⟨hsettled, hnone⟩ := h.answerSteps (.ok ())
    exact ⟨hsettled.of_eq rfl rfl, fun _ => hnone⟩
  | paused =>
    obtain ⟨hsettled, hnone⟩ := h.answerSteps (.ok ())
    exact ⟨hsettled.of_eq rfl rfl, fun _ => hnone⟩

theorem Accounted.settleFrame (h : w.Accounted owed) (hpatient : w.Patient) :
    w.settleFrame.Accounted owed ∧ w.settleFrame.Patient := by
  unfold Worker.settleFrame
  split
  · next hstatus =>
    split
    · next hnone => exact ⟨h.of_eq rfl rfl, fun _ => hnone⟩
    · next c hwaiting =>
      let stepped : Worker F M := { w with status := .paused, waiting := [] }
      exact ⟨h.answer hwaiting stepped.publish rfl rfl _, fun _ => rfl⟩
    · next c rest _ hwaiting =>
      let stepped : Worker F M := { w with waiting := rest }
      exact ⟨h.answer hwaiting stepped.publish rfl rfl _, fun hne => absurd hstatus hne⟩
  · exact ⟨h.of_eq rfl rfl, hpatient⟩

theorem Accounted.respond {e : Envelope} (h : w.Accounted e.errands) (he : e.command ≠ .frameStep)
    (r : Reply) : (w.respond e.caller r).Accounted [] := by
  obtain ⟨answers, h⟩ := h
  unfold Envelope.errands at h
  cases hcaller : e.caller with
  | none =>
    rw [hcaller] at h
    exact ⟨answers, h⟩
  | some c =>
    rw [hcaller] at h
    refine ⟨answers ++ [(⟨e.command, c⟩, r)], ?_⟩
    show Accounts (.answered c r w.shown :: w.journal).reverse w.waiting [] _
    rw [List.reverse_cons]
    exact h.answer_other (by simpa [Errand.isStep] using he) r w.shown

theorem patient_respond (h : w.Patient) (c : Option Caller) (r : Reply) : (w.respond c r).Patient := by
  cases c <;> exact h

theorem Patient.keeps (h : w.Patient) (hkeeps : Keeps w v) (hstatus : v.status = w.status) :
    v.Patient := by
  unfold Patient
  rw [hkeeps.waiting, hstatus]
  exact h

variable [Machine M]

theorem accounted_pollHotkeys (h : w.Accounted []) (hpatient : w.Patient) :
    w.pollHotkeys.Accounted [] ∧ w.pollHotkeys.Patient := by
  unfold pollHotkeys
  dsimp only
  split
  · exact ⟨h.of_eq rfl rfl, hpatient⟩
  · obtain ⟨v, messages, heq, hkeeps, -, -⟩ := w.sampleHotkeys.actOnHotkeys_eq
    have hsample : w.sampleHotkeys.Accounted [] := h.of_eq rfl rfl
    rw [heq]
    exact (hsample.keeps hkeeps).settle

theorem accounted_takeStop (h : w.Accounted []) (hpatient : w.Patient) :
    w.takeStop.Accounted [] ∧ w.takeStop.Patient := by
  unfold takeStop
  split
  · have hstopped : ({ w with stopRequested := false }.stop false).Accounted [] := h.of_eq rfl rfl
    exact hstopped.settle
  · exact ⟨h, hpatient⟩

theorem accounted_frameWith (h : w.Accounted []) (hpatient : w.Patient)
    (meanwhile : List (Outside F)) :
    (w.frameWith meanwhile).Accounted [] ∧ (w.frameWith meanwhile).Patient := by
  rcases w.frameWith_eq meanwhile with ⟨-, heq⟩ | ⟨v, heq, hkeeps, notices, hcontrol, -⟩
  · rw [heq]
    exact ⟨h, hpatient⟩
  · rw [heq]
    exact (h.keeps hkeeps).settleFrame (hpatient.keeps hkeeps (congrArg Control.status hcontrol))

theorem accounted_shutdown (h : w.Accounted []) :
    w.shutdown.Accounted [] ∧ w.shutdown.waiting = [] := by
  let stopped : Worker F M :=
    { w.useIfAny .stop Machine.stop with
      machine := none, active := false, status := .exiting }.disableAudio
  have hcalled : (w.useIfAny .stop Machine.stop).Accounted [] :=
    h.keeps (w.aside_useIfAny .stop Machine.stop).toKeeps
  have hstopped : stopped.Accounted [] := hcalled.of_eq rfl rfl
  obtain ⟨hsteps, hnone⟩ := hstopped.answerSteps (.error .exiting)
  exact ⟨hsteps.of_eq rfl rfl, hnone⟩

variable [Factory F M]

theorem accounted_serve {e : Envelope} (he : e.command ≠ .frameStep) (h : w.Accounted e.errands) :
    (w.serve e).Accounted [] ∧ (w.serve e).Patient := by
  have happlied : (w.apply e.command).1.Accounted e.errands := h.keeps (w.keeps_apply e.command)
  obtain ⟨hsettled, hpatient⟩ := happlied.settle
  unfold serve
  dsimp only
  rw [if_neg he]
  exact ⟨hsettled.respond he _, patient_respond hpatient _ _⟩

theorem accounted_handle (h : w.Accounted []) (hpatient : w.Patient) (e : Envelope) :
    (w.handle e).Accounted [] ∧ (w.handle e).Patient := by
  obtain ⟨answers, haccounts⟩ := h
  have hjournal : (w.note (.taken e)).journal.reverse = w.journal.reverse ++ [.taken e] :=
    List.reverse_cons
  by_cases hstep : e.command = .frameStep
  · -- the caller waits from now on, whatever the answer will be
    let queued : Worker F M :=
      { w.note (.taken e) with waiting := w.waiting ++ e.caller.toList }
    have hqueued : queued.Accounted [] := ⟨answers, by
      show Accounts (w.note (.taken e)).journal.reverse (w.waiting ++ e.caller.toList) [] answers
      rw [hjournal]
      exact haccounts.take_step hstep⟩
    unfold handle
    dsimp only
    split
    · next hexiting =>
      have hnone : w.waiting = [] := hpatient fun hframe => by
        change w.status = .exiting at hexiting
        rw [hexiting] at hframe
        cases hframe
      cases hcaller : e.caller with
      | none =>
        refine ⟨hqueued.of_eq rfl ?_, hpatient⟩
        show w.waiting = w.waiting ++ e.caller.toList
        rw [hcaller, Option.toList_none, List.append_nil]
      | some c =>
        have hwaiting : queued.waiting = [c] := by
          show w.waiting ++ e.caller.toList = [c]
          rw [hnone, hcaller]
          rfl
        exact ⟨hqueued.answer hwaiting (w.note (.taken e)) rfl hnone _, fun _ => hnone⟩
    · let stepped : Worker F M :=
        { (w.note (.taken e)).frameStep with
          waiting := (w.note (.taken e)).frameStep.waiting ++ e.caller.toList }
      have hkeeps := (w.note (.taken e)).keeps_frameStep
      have hstepped : Keeps queued stepped := by
        refine ⟨?_, hkeeps.adds, hkeeps.booted⟩
        show _ ++ e.caller.toList = _
        rw [hkeeps.waiting]
        rfl
      have hserve : (w.note (.taken e)).serve e = stepped.settle := by
        unfold serve
        dsimp only
        rw [if_pos hstep, hstep]
        rfl
      rw [hserve]
      exact (hqueued.keeps hstepped).settle
  · have htaken : (w.note (.taken e)).Accounted e.errands := ⟨answers, by
      rw [hjournal]
      exact haccounts.take_other hstep⟩
    unfold handle
    dsimp only
    split
    · have hnoted : (w.note (.taken e)).Patient := hpatient
      exact ⟨htaken.respond hstep _, patient_respond hnoted _ _⟩
    · exact accounted_serve hstep htaken

theorem accounted_step (h : w.Accounted []) (hpatient : w.Patient) (a : Act F) :
    (w.step a).Accounted [] ∧ (w.step a).Patient := by
  cases a with
  | take e => exact accounted_handle h hpatient e
  | poll =>
    obtain ⟨hpolled, hpolledPatient⟩ := accounted_pollHotkeys h hpatient
    exact accounted_takeStop hpolled hpolledPatient
  | frame meanwhile => exact accounted_frameWith h hpatient meanwhile
  | outside o =>
    obtain ⟨hkeeps, notices, hcontrol, -⟩ := w.keeps_outside o
    exact ⟨h.keeps hkeeps, hpatient.keeps hkeeps (congrArg Control.status hcontrol)⟩
  | shutdown =>
    obtain ⟨hshut, hnone⟩ := accounted_shutdown h
    exact ⟨hshut, fun _ => hnone⟩

theorem accounted_run (h : w.Accounted []) (hpatient : w.Patient) (acts : List (Act F)) :
    (w.run acts).Accounted [] ∧ (w.run acts).Patient := by
  induction acts generalizing w with
  | nil => exact ⟨h, hpatient⟩
  | cons a acts ih =>
    obtain ⟨hstep, hstepPatient⟩ := accounted_step h hpatient a
    exact ih hstep hstepPatient

/-- **Every caller is answered once, and steps in order.** Along every run of a worker nobody waits for a
step unless one is to run, also between the hotkeys and the wish to be stopped of one poll; each reply
goes to a command of its own that was taken, and what is taken and not answered is a step that waits, in
the order of taking. Once the worker is shut down nobody waits any more: replies and commands that
somebody waited for correspond one to one. -/
theorem every_caller_answered_once (id : Nat) (factory : F) (world : World)
    (cartSave firmwareSave : Option Path) (audio : Pipeline) (mic : MicInput) (acts : List (Act F)) :
    let w : Worker F M := .new id factory world cartSave firmwareSave audio mic
    let v := w.run acts
    v.Patient ∧ v.pollHotkeys.Patient ∧
    (∃ answers, Accounts v.journal.reverse v.waiting [] answers) ∧
    v.shutdown.waiting = [] ∧
    ∃ answers, Accounts v.shutdown.journal.reverse [] [] answers ∧
      (answers.map Prod.fst).Perm (errands v.shutdown.journal.reverse) := by
  intro w v
  have hnew : w.Accounted [] := ⟨[], Accounts.empty⟩
  obtain ⟨hrun, hpatient⟩ := accounted_run hnew (fun _ => rfl) acts
  obtain ⟨hshut, hnone⟩ := accounted_shutdown hrun
  obtain ⟨answers, haccounts⟩ := hshut
  rw [hnone] at haccounts
  have hperm : (answers.map Prod.fst).Perm (errands v.shutdown.journal.reverse) := by
    simpa using haccounts.perm
  exact ⟨hpatient, (accounted_pollHotkeys hrun hpatient).2, hrun, hnone, answers, haccounts, hperm⟩

end Worker

end Handheld
