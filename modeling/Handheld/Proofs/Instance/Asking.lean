import Handheld.Proofs.Instance.Courses
import Handheld.Proofs.Worker.PauseWalk
import Handheld.Proofs.Worker.Tally

/-!
# Waiting for a reply

A command that somebody waits for finds others before it in the mailbox. What they are does not matter as
long as none is an exit or for the same caller: the thread takes them all and then the command, and the
caller gets its reply (`askFor_served`). Until then no reply goes to the caller (`Worker.Since`).
-/

namespace Handheld

/-- Of commands only some are taken, and a caller gets no reply. -/
structure Event.Minor (others : Envelope → Prop) (caller : Caller) (e : Event) : Prop where
  taken : ∀ f, e = .taken f → others f
  unanswered : ∀ r shown, e ≠ .answered caller r shown

variable {others : Envelope → Prop} {caller : Caller}

theorem Event.Silent.minor {e : Event} (h : e.Silent) : e.Minor others caller where
  taken := by
    rintro f rfl
    exact h.elim
  unanswered := by
    rintro r shown rfl
    exact h.elim

/-- Nobody else takes part in it: no command is an exit, and none is for the caller. -/
def Aloof (others : Envelope → Prop) (caller : Caller) : Prop :=
  ∀ e, others e → e.command ≠ .exit ∧ e.caller ≠ some caller

theorem replyTo?_of_minor {added : List Event} (h : ∀ e ∈ added, e.Minor others caller)
    (events : List Event) : replyTo? caller (added ++ events) = replyTo? caller events := by
  induction added with
  | nil => rfl
  | cons e added ih =>
    obtain ⟨he, hadded⟩ := List.forall_mem_cons.mp h
    cases e with
    | answered d r shown =>
      have hd : d ≠ caller := fun heq => he.unanswered r shown (by rw [heq])
      rw [List.cons_append, replyTo?, if_neg hd]
      exact ih hadded
    | _ => exact ih hadded

theorem replyTo?_append {r : Reply} {late : List Event} (h : replyTo? caller late = some r)
    (early : List Event) : replyTo? caller (late ++ early) = some r := by
  induction late with
  | nil => cases h
  | cons e late ih =>
    cases e with
    | answered d r' shown =>
      rw [List.cons_append, replyTo?]
      rw [replyTo?] at h
      split
      · next hd => rwa [if_pos hd] at h
      · next hd =>
        rw [if_neg hd] at h
        exact ih h
    | _ => exact ih h

namespace Worker

variable {F M : Type} {u v w : Worker F M}

/-! ## No reply to the caller -/

/-- The caller does not begin to wait, and gets no reply if it did not wait. -/
def Overlooks (caller : Caller) (w v : Worker F M) : Prop :=
  caller ∉ w.waiting →
    caller ∉ v.waiting ∧ Adds (fun e => ∀ r shown, e ≠ .answered caller r shown) w v

theorem Overlooks.trans (huv : Overlooks caller u v) (hvw : Overlooks caller v w) :
    Overlooks caller u w := fun hu =>
  have hv := huv hu
  have hw := hvw hv.1
  ⟨hw.1, hv.2.trans hw.2⟩

theorem Overlooks.of_subset (hwaiting : v.waiting ⊆ w.waiting) (hjournal : v.journal = w.journal) :
    Overlooks caller w v := fun hw => ⟨fun hv => hw (hwaiting hv), .of_eq hjournal⟩

theorem Overlooks.of_eq (hwaiting : v.waiting = w.waiting) (hjournal : v.journal = w.journal) :
    Overlooks caller w v := .of_subset (fun _ hc => hwaiting ▸ hc) hjournal

theorem Keeps.overlooks (h : Keeps w v) : Overlooks caller w v := by
  intro hw
  obtain ⟨added, hjournal, hsilent⟩ := h.adds
  refine ⟨h.waiting ▸ hw, added, hjournal, ?_⟩
  rintro e he r shown rfl
  exact hsilent _ he

theorem overlooks_respond (w : Worker F M) {d : Option Caller} (hd : d ≠ some caller) (r : Reply) :
    Overlooks caller w (w.respond d r) := by
  cases d with
  | none => exact .of_eq rfl rfl
  | some d =>
    refine fun hw => ⟨hw, w.adds_note ?_⟩
    rintro r' shown heq
    exact hd (congrArg some (Event.answered.inj heq).1)

theorem overlooks_answerSteps (w : Worker F M) (r : Reply) : Overlooks caller w (w.answerSteps r) := by
  suffices ∀ (cs : List Caller) (v : Worker F M), caller ∉ cs →
      Overlooks caller v (cs.foldl (fun v c => v.answer c r) v) from fun hw =>
    have hdone := this w.waiting { w with waiting := [] } hw List.not_mem_nil
    ⟨hdone.1, hdone.2⟩
  intro cs
  induction cs with
  | nil => exact fun v _ => .of_eq rfl rfl
  | cons c cs ih =>
    intro v hcs
    have hc : some c ≠ some caller := fun heq => hcs (Option.some.inj heq ▸ List.mem_cons_self)
    exact (v.overlooks_respond hc r).trans (ih (v.answer c r) fun h => hcs (List.mem_cons_of_mem c h))

theorem overlooks_settle (w : Worker F M) : Overlooks caller w w.settle := by
  unfold settle
  split
  · exact .of_eq rfl rfl
  all_goals exact (w.overlooks_answerSteps _).trans (.of_eq rfl rfl)

theorem overlooks_settleFrame (w : Worker F M) : Overlooks caller w w.settleFrame := by
  by_cases h : w.status = .frameStep
  · intro hw
    have hhead : w.waiting.head? ≠ some caller := fun heq => hw (List.mem_of_head? heq)
    rw [settleFrame_of_step h]
    refine Overlooks.trans ?_ (overlooks_respond _ hhead _) hw
    exact .of_subset (fun _ => List.mem_of_mem_tail) rfl
  · rw [settleFrame, if_neg h]
    exact .of_eq rfl rfl

variable [Machine M]

theorem overlooks_poll (w : Worker F M) : Overlooks caller w w.poll := by
  have hkeys : Overlooks caller w w.pollHotkeys := by
    unfold pollHotkeys
    dsimp only
    split
    · exact .of_eq rfl rfl
    · obtain ⟨u, messages, heq, hkeeps, -⟩ := w.sampleHotkeys.actOnHotkeys_eq
      have hpressed : Overlooks caller w u := hkeeps.overlooks
      rw [heq]
      exact hpressed.trans u.overlooks_settle
  refine hkeys.trans ?_
  show Overlooks caller w.pollHotkeys w.pollHotkeys.takeStop
  unfold takeStop
  split
  · refine Overlooks.trans ?_ (overlooks_settle _)
    exact .of_eq rfl rfl
  · exact .of_eq rfl rfl

theorem overlooks_handle [Factory F M] (w : Worker F M) {e : Envelope} (he : e.caller ≠ some caller) :
    Overlooks caller w (w.handle e) := by
  have htaken : Overlooks caller w (w.note (.taken e)) := fun hw => ⟨hw, w.adds_note nofun⟩
  have happlied : Overlooks caller w ((w.note (.taken e)).apply e.command).1 :=
    htaken.trans ((w.note (.taken e)).keeps_apply e.command).overlooks
  unfold handle serve
  dsimp only
  split
  · exact htaken.trans (overlooks_respond _ he _)
  · split
    · refine (happlied.trans ?_).trans (overlooks_settle _)
      intro hw
      refine ⟨fun hv => ?_, .of_eq rfl⟩
      rcases List.mem_append.mp hv with hv | hv
      · exact hw hv
      · exact he (Option.mem_toList.mp hv)
    · exact (happlied.trans (overlooks_settle _)).trans (overlooks_respond _ he _)

/-! ## Until it is answered -/

/-- The second worker comes from the first, with some commands taken and none for the caller. -/
structure Since (others : Envelope → Prop) (caller : Caller) (w v : Worker F M) : Prop where
  booked : v.Booked
  unheard : caller ∉ v.waiting
  adds : Adds (Event.Minor others caller) w v

omit [Machine M] in
theorem Since.refl (h : w.Booked) (hunheard : caller ∉ w.waiting) : Since others caller w w :=
  ⟨h, hunheard, .of_eq rfl⟩

omit [Machine M] in
theorem Since.mono {few : Envelope → Prop} (h : Since few caller w v) (hfew : ∀ e, few e → others e) :
    Since others caller w v where
  booked := h.booked
  unheard := h.unheard
  adds := by
    obtain ⟨added, hjournal, hminor⟩ := h.adds
    exact ⟨added, hjournal, fun e he =>
      ⟨fun f hf => hfew f ((hminor e he).taken f hf), (hminor e he).unanswered⟩⟩

omit [Machine M] in
theorem Since.idles (h : Since others caller u v) (hidles : Idles v w) (hover : Overlooks caller v w) :
    Since others caller u w where
  booked := h.booked.idles hidles
  unheard := (hover h.unheard).1
  adds := by
    obtain ⟨added, hjournal, huntaken⟩ := hidles.adds
    obtain ⟨added', hjournal', hunanswered⟩ := (hover h.unheard).2
    obtain rfl : added = added' := List.append_cancel_right (hjournal.symm.trans hjournal')
    refine h.adds.trans ⟨added, hjournal, fun e he => ⟨?_, hunanswered e he⟩⟩
    rintro f rfl
    exact (huntaken _ he).elim

theorem Since.poll (h : Since others caller w v) : Since others caller w v.poll :=
  h.idles (idles_poll h.booked.paced h.booked.still) v.overlooks_poll

theorem Since.beginFrame (h : Since others caller w v) {i : Installed M} (hi : v.machine = some i) :
    Since others caller w (v.beginFrame i).2 :=
  h.idles (idles_beginFrame h.booked.numbered hi) (v.aside_beginFrame i).toKeeps.overlooks

theorem Since.endFrame (h : Since others caller w v) (input : FrameInput) :
    Since others caller w (v.endFrame input) :=
  h.idles (idles_endFrame h.booked.numbered input) (v.aside_endFrame input).toKeeps.overlooks

omit [Machine M] in
theorem Since.settleFrame (h : Since others caller w v) : Since others caller w v.settleFrame :=
  h.idles v.idles_settleFrame v.overlooks_settleFrame

omit [Machine M] in
theorem Since.outside (h : Since others caller w v) {o : Outside F}
    (ho : ∀ input, o = .input input → input.hotkeysDown = {}) : Since others caller w (v.outside o) where
  booked := h.booked.outside ho
  unheard := (v.keeps_outside o).1.waiting ▸ h.unheard
  adds := by
    obtain ⟨added, hjournal, hsilent⟩ := (v.keeps_outside o).1.adds
    exact h.adds.trans ⟨added, hjournal, fun e he => (hsilent e he).minor⟩

variable [Factory F M]

theorem Since.handle (h : Since others caller w v) {e : Envelope} (haloof : Aloof others caller)
    (he : others e) : Since others caller w (v.handle e) where
  booked := h.booked.handle (haloof e he).1
  unheard := (v.overlooks_handle (haloof e he).2 h.unheard).1
  adds := by
    obtain ⟨later, hjournal, huntaken⟩ := v.journal_handle e
    obtain ⟨added, hadded, hunanswered⟩ := (v.overlooks_handle (haloof e he).2 h.unheard).2
    obtain rfl : added = later ++ [.taken e] := by
      refine List.append_cancel_right (hadded.symm.trans (hjournal.trans ?_))
      rw [List.append_assoc, List.singleton_append]
    refine h.adds.trans ⟨_, hadded, fun event hevent => ⟨?_, hunanswered event hevent⟩⟩
    rintro f rfl
    rcases List.mem_append.mp hevent with hlater | htaken
    · exact (huntaken _ hlater).elim
    · obtain rfl := Event.taken.inj (List.mem_singleton.mp htaken)
      exact he

theorem Since.handleAll (h : Since others caller w v) (haloof : Aloof others caller)
    {mailbox : List Envelope} (hmail : ∀ e ∈ mailbox, others e) :
    Since others caller w (v.handleAll mailbox) := by
  induction mailbox generalizing v with
  | nil => exact h
  | cons e mailbox ih =>
    obtain ⟨he, hrest⟩ := List.forall_mem_cons.mp hmail
    exact ih (h.handle haloof he) hrest

theorem journal_handle_of_paces (h : w.Booked) {e : Envelope} (he : e.command.Paces)
    (hcaller : e.caller = some caller) :
    ∃ later, (w.handle e).journal = later ++ .taken e :: w.journal ∧ (∀ x ∈ later, x.Untaken) ∧
      replyTo? caller later = some (.ok ()) := by
  have hstep : e.command ≠ .frameStep := by
    rcases he with he | he <;> simp [he]
  have houtcome : w.outcome e = .ok () := by
    unfold outcome
    rw [if_neg h.awake]
    rcases he with he | he <;> rw [he] <;> rfl
  let settled := ((w.note (.taken e)).apply e.command).1.settle
  have hhandle : (w.handle e).journal = .answered caller (.ok ()) settled.shown :: settled.journal := by
    rw [handle_of_awake h.awake hstep, hcaller, houtcome]
    rfl
  obtain ⟨later, hjournal, huntaken⟩ := w.journal_handle e
  rw [hhandle] at hjournal
  -- the reply is the newest event, and so not the one that tells of the command
  cases later with
  | nil => cases hjournal
  | cons event later =>
    obtain ⟨rfl, -⟩ := List.cons.inj hjournal
    exact ⟨_, hhandle.trans hjournal, huntaken, by rw [replyTo?, if_pos rfl]⟩

theorem unheard_handle_of_paces (h : w.Booked) (hunheard : caller ∉ w.waiting) {e : Envelope}
    (he : e.command.Paces) : caller ∉ (w.handle e).waiting := by
  have hstep : e.command ≠ .frameStep := by
    rcases he with he | he <;> simp [he]
  let applied := ((w.note (.taken e)).apply e.command).1
  have hkeeps : applied.waiting = w.waiting := ((w.note (.taken e)).keeps_apply e.command).waiting
  have hsettled : caller ∉ applied.settle.waiting := (applied.overlooks_settle (hkeeps ▸ hunheard)).1
  rw [handle_of_awake h.awake hstep]
  cases e.caller <;> exact hsettled

end Worker

namespace WorkerThread

variable {F M : Type} {t u : WorkerThread F M}

/-! ## Threads that others use -/

/-- A thread that goes on, with only commands of others on their way. -/
structure Tame (others : Envelope → Prop) (caller : Caller) (t : WorkerThread F M) : Prop where
  booked : t.worker.Booked
  unheard : caller ∉ t.worker.waiting
  mail : ∀ e ∈ t.mailbox, others e
  wanted : t.wanted = true
  alive : t.place ≠ .gone

/-- What happens to a thread is the doing of others: their commands, turns of the thread, frames, and
what is outside, as long as no hotkey is pressed. -/
def Common (others : Envelope → Prop) : Happening F → Prop
  | .send e => others e
  | .goOn => True
  | .compute => True
  | .outside o => ∀ input, o = .input input → input.hotkeysDown = {}

variable [Machine M] [Factory F M]

/-- A thread that goes on from one point to another, with only commands of others taken. -/
structure Proceeds (others : Envelope → Prop) (caller : Caller) (t u : WorkerThread F M) : Prop where
  tame : Tame others caller u
  adds : Worker.Adds (Event.Minor others caller) t.worker u.worker

omit [Machine M] [Factory F M] in
theorem Tame.proceeds (h : Tame others caller t) : Proceeds others caller t t := ⟨h, .of_eq rfl⟩

omit [Machine M] [Factory F M] in
theorem Tame.mapWorker (h : Tame others caller t) {f : Worker F M → Worker F M}
    (hcontrol : (f t.worker).control = t.worker.control)
    (hstanding : (f t.worker).standing = t.worker.standing)
    (hinput : (f t.worker).input = t.worker.input) : Proceeds others caller t (t.mapWorker f) where
  tame := {
    booked := h.booked.idles (.of_eq hcontrol hstanding hinput)
    unheard := by
      have hwaiting : (f t.worker).waiting = t.worker.waiting := congrArg Standing.waiting hstanding
      show caller ∉ (f t.worker).waiting
      rw [hwaiting]
      exact h.unheard
    mail := h.mail
    wanted := h.wanted
    alive := h.alive }
  adds := .of_eq (congrArg Standing.journal hstanding)

omit [Machine M] [Factory F M] in
theorem Tame.since (h : Tame others caller t) : Worker.Since others caller t.worker t.worker :=
  .refl h.booked h.unheard

theorem Tame.goOn (h : Tame others caller t) (haloof : Aloof others caller) :
    Proceeds others caller t t.goOn := by
  have hsince : Worker.Since others caller t.worker t.goOn.worker :=
    goOn_induction (I := Worker.Since others caller t.worker)
      (fun e he w hw => hw.handle haloof (h.mail e he)) (fun w hw => hw.poll)
      (fun w i hi hw => hw.beginFrame hi) (fun w hw => hw.settleFrame)
      (fun hunwanted => by rw [h.wanted] at hunwanted; cases hunwanted) h.since
  have hmail : ∀ e ∈ t.goOn.mailbox, others e := fun e he =>
    (mem_mailbox_happen (h := .goOn) he).elim (h.mail e) nofun
  have hthread : t.goOn.wanted = true ∧ t.goOn.place ≠ .gone := by
    unfold WorkerThread.goOn startPass takeMail
    dsimp only
    split
    · rw [if_pos h.wanted]
      split
      · exact ⟨h.wanted, nofun⟩
      · split
        · exact ⟨h.wanted, nofun⟩
        · exact ⟨h.wanted, nofun⟩
    · exact ⟨h.wanted, nofun⟩
    · exact ⟨h.wanted, h.alive⟩
    · exact ⟨h.wanted, h.alive⟩
  exact ⟨⟨hsince.booked, hsince.unheard, hmail, hthread.1, hthread.2⟩, hsince.adds⟩

omit [Factory F M] in
theorem Tame.computeFrame (h : Tame others caller t) : Proceeds others caller t t.computeFrame := by
  have hsince : Worker.Since others caller t.worker t.computeFrame.worker :=
    computeFrame_induction (I := Worker.Since others caller t.worker)
      (fun w input hw => hw.endFrame input) (fun w hw => hw.settleFrame) h.since
  unfold WorkerThread.computeFrame at hsince ⊢
  split at hsince
  · exact ⟨⟨hsince.booked, hsince.unheard, h.mail, h.wanted, nofun⟩, hsince.adds⟩
  · exact ⟨h, hsince.adds⟩

theorem Tame.happen (h : Tame others caller t) (haloof : Aloof others caller) {a : Happening F}
    (ha : Common others a) : Proceeds others caller t (t.happen a) := by
  cases a with
  | send e =>
    have hsend : t.happen (.send e) = { t with mailbox := t.mailbox ++ [e] } := by
      simp only [WorkerThread.happen, send, if_pos h.wanted]
      rfl
    rw [hsend]
    refine ⟨⟨h.booked, h.unheard, fun f hf => ?_, h.wanted, h.alive⟩, .of_eq rfl⟩
    rcases List.mem_append.mp hf with hf | hf
    · exact h.mail f hf
    · exact List.mem_singleton.mp hf ▸ ha
  | goOn => exact h.goOn haloof
  | compute => exact h.computeFrame
  | outside o =>
    have hsince := h.since.outside ha
    exact ⟨⟨hsince.booked, hsince.unheard, h.mail, h.wanted, h.alive⟩, hsince.adds⟩

omit [Machine M] [Factory F M] in
theorem Proceeds.trans {s : WorkerThread F M} (hst : Proceeds others caller s t)
    (htu : Proceeds others caller t u) : Proceeds others caller s u := ⟨htu.tame, hst.adds.trans htu.adds⟩

/-- **A course of others' doing** takes only their commands, and leaves the thread to go on. -/
theorem Tame.undergo (h : Tame others caller t) (haloof : Aloof others caller)
    {course : List (Happening F)} (hcourse : ∀ a ∈ course, Common others a) :
    Proceeds others caller t (t.undergo course) := by
  induction course generalizing t with
  | nil => exact h.proceeds
  | cons a course ih =>
    obtain ⟨ha, hrest⟩ := List.forall_mem_cons.mp hcourse
    have hfirst := h.happen haloof ha
    exact hfirst.trans (ih hfirst.tame hrest)

theorem Tame.goOnFor (h : Tame others caller t) (haloof : Aloof others caller) (n : Nat) :
    Proceeds others caller t (goOnFor n t) := by
  rw [goOnFor_eq_undergo]
  refine h.undergo haloof fun a ha => ?_
  rw [List.eq_of_mem_replicate ha]
  trivial

theorem Tame.finishFrame (h : Tame others caller t) (haloof : Aloof others caller) :
    Proceeds others caller t t.finishFrame :=
  h.computeFrame.trans (h.computeFrame.tame.goOnFor haloof _)

theorem Tame.finishFrames (h : Tame others caller t) (haloof : Aloof others caller) (n : Nat) :
    Proceeds others caller t (finishFrames n t) := by
  induction n generalizing t with
  | zero => exact h.proceeds
  | succ n ih =>
    have hfinished := h.finishFrame haloof
    unfold WorkerThread.finishFrames
    split
    · exact hfinished.trans (ih hfinished.tame)
    · exact h.proceeds

theorem Tame.finishUntil (h : Tame others caller t) (haloof : Aloof others caller)
    (enough : WorkerThread F M → Bool) (n : Nat) : Proceeds others caller t (finishUntil enough n t) := by
  induction n generalizing t with
  | zero => exact h.proceeds
  | succ n ih =>
    have hfinished := h.finishFrame haloof
    unfold WorkerThread.finishUntil
    split
    · exact h.proceeds
    · exact hfinished.trans (ih hfinished.tame)

theorem Tame.ask (h : Tame others caller t) (haloof : Aloof others caller) {c : Command}
    (hc : others ⟨c, some director⟩) : Proceeds others caller t (t.ask c).2 := by
  have hsend : Proceeds others caller t (t.happen (.send ⟨c, some director⟩)) := h.happen haloof hc
  unfold WorkerThread.ask askFor
  split
  · exact h.proceeds
  · next sent hsent =>
    rw [WorkerThread.happen, hsent] at hsend
    have hadvance := hsend.tame.goOnFor haloof sent.turnsToRest
    exact (hsend.trans hadvance).trans (hadvance.tame.finishUntil haloof _ _)

/-! ## Somebody waits -/

/-- What is in the mailbox and then a command are still to be taken, and no reply has gone to its caller.
-/
structure Pending (caller : Caller) (e : Envelope) (t u : WorkerThread F M) : Prop where
  since : Worker.Since (fun _ => False) caller t.worker u.worker
  mailbox : u.mailbox = t.mailbox ++ [e]
  wanted : u.wanted = true
  alive : u.place ≠ .gone

/-- They are taken in that order, the reply has come, and nothing was taken since. -/
structure Served (others : Envelope → Prop) (caller : Caller) (e : Envelope) (t u : WorkerThread F M) :
    Prop where
  tame : Tame (fun _ => False) caller u
  told : ∃ later early, u.worker.journal = later ++ .taken e :: (early ++ t.worker.journal) ∧
    (∀ x ∈ later, x.Untaken) ∧ (∀ x ∈ early, x.Minor others caller) ∧
    replyTo? caller later = some (.ok ())

variable {e : Envelope}

omit [Machine M] [Factory F M] in
theorem aloof_nobody : Aloof (fun _ => False) caller := fun _ h => h.elim

omit [Machine M] [Factory F M] in
theorem Served.proceeds {v : WorkerThread F M} (h : Served others caller e t u)
    (huv : Proceeds (fun _ => False) caller u v) : Served others caller e t v := by
  obtain ⟨later, early, hjournal, huntaken, hminor, hreply⟩ := h.told
  obtain ⟨added, hadded, hnothing⟩ := huv.adds
  refine ⟨huv.tame, added ++ later, early, ?_, ?_, hminor, ?_⟩
  · rw [hadded, hjournal, List.append_assoc]
  · intro x hx
    rcases List.mem_append.mp hx with hx | hx
    · cases x with
      | taken f => exact (hnothing _ hx).taken f rfl
      | _ => trivial
    · exact huntaken x hx
  · rw [replyTo?_of_minor hnothing, hreply]

theorem Served.goOnFor (h : Served others caller e t u) (n : Nat) :
    Served others caller e t (goOnFor n u) := by
  induction n generalizing u with
  | zero => exact h
  | succ n ih => exact ih (h.proceeds (h.tame.goOn aloof_nobody))

section Mail

variable (htame : Tame others caller t) (haloof : Aloof others caller) (hpaces : e.command.Paces)
  (hcaller : e.caller = some caller)

include htame haloof hpaces hcaller

theorem served_takeMail (hu : Pending caller e t u) {w : Worker F M}
    (hw : Worker.Since (fun _ => False) caller t.worker w) :
    Served others caller e t (u.takeMail w) := by
  let before := w.handleAll t.mailbox
  have hbefore : Worker.Since others caller t.worker before :=
    (hw.mono fun _ h => h.elim).handleAll haloof htame.mail
  have htaken : (u.takeMail w).worker = before.handle e := by
    show w.handleAll u.mailbox = _
    rw [hu.mailbox]
    exact List.foldl_append
  have hexit : e.command ≠ .exit := by
    rcases hpaces with he | he <;> simp [he]
  obtain ⟨later, hjournal, huntaken, hreply⟩ :=
    Worker.journal_handle_of_paces hbefore.booked hpaces hcaller
  obtain ⟨early, hearly, hminor⟩ := hbefore.adds
  refine ⟨⟨?_, ?_, by nofun, hu.wanted, nofun⟩, later, early, ?_, huntaken, hminor, hreply⟩
  · rw [htaken]
    exact hbefore.booked.handle hexit
  · rw [htaken]
    exact Worker.unheard_handle_of_paces hbefore.booked hbefore.unheard hpaces
  · rw [htaken, hjournal, hearly]

/-- A pass that begins takes the mail, or waits for a frame first. -/
theorem Pending.startPass (h : Pending caller e t u) :
    Served others caller e t u.startPass ∨
      Pending caller e t u.startPass ∧ u.startPass.isInFrame = true := by
  have hpolled := h.since.poll
  unfold WorkerThread.startPass
  dsimp only
  split
  · exact .inl (served_takeMail htame haloof hpaces hcaller h hpolled)
  · split
    · exact .inl (served_takeMail htame haloof hpaces hcaller h hpolled.settleFrame)
    · next i hi => exact .inr ⟨⟨hpolled.beginFrame hi, h.mailbox, h.wanted, nofun⟩, rfl⟩

theorem Pending.goOnFor (h : Pending caller e t u) (n : Nat) :
    Served others caller e t (goOnFor (n + 1) u) ∨
      Pending caller e t (goOnFor (n + 1) u) ∧ (goOnFor (n + 1) u).isInFrame = true := by
  -- inside a frame the thread waits for its machine
  have hframe : ∀ {v : WorkerThread F M} (n : Nat), v.isInFrame = true → WorkerThread.goOnFor n v = v := by
    intro v n hv
    induction n with
    | zero => rfl
    | succ n ih =>
      have hgo : v.goOn = v := by
        cases hplace : v.place <;> simp [isInFrame, goOn, hplace] at hv ⊢
      rw [WorkerThread.goOnFor, hgo, ih]
  cases hplace : u.place with
  | idle =>
    have hgo : u.goOn = u.startPass := by simp [goOn, hplace, h.wanted]
    rw [WorkerThread.goOnFor, hgo]
    rcases h.startPass htame haloof hpaces hcaller with hserved | ⟨hpending, hinside⟩
    · exact .inl (hserved.goOnFor n)
    · rw [hframe n hinside]
      exact .inr ⟨hpending, hinside⟩
  | inFrame input =>
    have hinside : u.isInFrame = true := by simp [isInFrame, hplace]
    rw [hframe (n + 1) hinside]
    exact .inr ⟨h, hinside⟩
  | resting =>
    have hgo : u.goOn = u.takeMail u.worker := by simp [goOn, hplace]
    rw [WorkerThread.goOnFor, hgo]
    exact .inl ((served_takeMail htame haloof hpaces hcaller h h.since).goOnFor n)
  | gone => exact absurd hplace h.alive

theorem Pending.finishFrame (h : Pending caller e t u) (hframe : u.isInFrame = true) :
    Served others caller e t u.finishFrame := by
  cases hplace : u.place with
  | inFrame input =>
    let ended := (u.worker.endFrame input).settleFrame
    have hcompute : u.computeFrame = { u with worker := ended, place := .resting } := by
      simp [WorkerThread.computeFrame, hplace, ended]
    have hrested : Pending caller e t { u with worker := ended, place := .resting } :=
      ⟨(h.since.endFrame input).settleFrame, h.mailbox, h.wanted, show Place.resting ≠ .gone by decide⟩
    show Served others caller e t (WorkerThread.goOnFor (_ + 1) u.computeFrame)
    rw [hcompute, WorkerThread.goOnFor]
    exact (served_takeMail htame haloof hpaces hcaller hrested hrested.since).goOnFor _
  | _ => simp [isInFrame, hplace] at hframe

end Mail

omit [Machine M] [Factory F M] in
theorem Pending.replySince (h : Pending caller e t u) :
    u.worker.replySince t.worker.journal.length caller = none := by
  obtain ⟨added, hjournal, hminor⟩ := h.since.adds
  have hsince : u.worker.eventsSince t.worker.journal.length = added := by
    rw [Worker.eventsSince, hjournal, List.length_append, Nat.add_sub_cancel, List.take_left]
  have hnone := replyTo?_of_minor hminor []
  rw [List.append_nil] at hnone
  rw [Worker.replySince, hsince, hnone]
  rfl

omit [Machine M] [Factory F M] in
theorem Served.replySince (h : Served others caller e t u) :
    u.worker.replySince t.worker.journal.length caller = some (.ok ()) := by
  obtain ⟨later, early, hjournal, -, -, hreply⟩ := h.told
  have hsplit : u.worker.journal = (later ++ .taken e :: early) ++ t.worker.journal := by
    rw [hjournal, List.append_assoc, List.cons_append]
  have hsince : u.worker.eventsSince t.worker.journal.length = later ++ .taken e :: early := by
    rw [Worker.eventsSince, hsplit, List.length_append, Nat.add_sub_cancel, List.take_left]
  rw [Worker.replySince, hsince, replyTo?_append hreply]

/-- **A pause or a release that somebody waits for** is taken after the commands before it, and all goes
well. -/
theorem askFor_served (h : Tame others caller t) (haloof : Aloof others caller) {c : Command}
    (hc : c.Paces) :
    ∃ u, t.askFor caller c = (.ok (), u) ∧ Served others caller ⟨c, some caller⟩ t u := by
  let e : Envelope := ⟨c, some caller⟩
  let sent : WorkerThread F M := { t with mailbox := t.mailbox ++ [e] }
  let answered : WorkerThread F M → Bool :=
    fun t' => (t'.worker.replySince t.worker.journal.length caller).isSome
  have hsend : t.send e = .ok sent := by
    rw [send, if_pos h.wanted]
  have hsent : Pending caller e t sent := ⟨.refl h.booked h.unheard, rfl, h.wanted, h.alive⟩
  have hdone : ∀ {u : WorkerThread F M} (n : Nat), Served others caller e t u →
      finishUntil answered n u = u := by
    intro u n hu
    have hanswered : answered u = true := by
      show (u.worker.replySince _ caller).isSome = true
      rw [hu.replySince]
      rfl
    cases n with
    | zero => rfl
    | succ n => rw [finishUntil, hanswered, Bool.true_or, if_pos rfl]
  have hserved : Served others caller e t (finishUntil answered sent.turnsToRest sent.advance) := by
    have hadvance : Served others caller e t sent.advance ∨
        Pending caller e t sent.advance ∧ sent.advance.isInFrame = true :=
      hsent.goOnFor h haloof hc rfl _
    rcases hadvance with hserved | ⟨hpending, hframe⟩
    · rw [hdone _ hserved]
      exact hserved
    · have hwaits : answered sent.advance = false := by
        show (Worker.replySince _ _ caller).isSome = false
        rw [hpending.replySince]
        rfl
      show Served others caller e t (finishUntil answered (_ + 1) sent.advance)
      rw [finishUntil, hwaits, hframe]
      show Served others caller e t (finishUntil answered _ sent.advance.finishFrame)
      have hfinished := hpending.finishFrame h haloof hc rfl hframe
      rw [hdone _ hfinished]
      exact hfinished
  refine ⟨finishUntil answered sent.turnsToRest sent.advance, ?_, hserved⟩
  have hreply := hserved.replySince
  unfold askFor
  rw [hsend]
  exact congrArg (fun r : Option Reply => (r.getD (.error .disconnected), _)) hreply

end WorkerThread

end Handheld
