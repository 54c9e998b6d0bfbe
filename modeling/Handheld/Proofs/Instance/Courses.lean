import Handheld.Instance
import Handheld.Proofs.Worker.Unmoved

/-!
# The course of an instance

A thread is sent commands, takes up its work and gets its frames from the machine, and meanwhile things
happen outside. A course is any sequence of these (`WorkerThread.undergo`), and whatever is done with an
instance is one, which leaves the mute policy alone and obeys it (`goes_operate`). What the small steps of
a worker keep is kept along a course (`Stable.undergo`) and while the thread stops (`Stable.stop`); a
thread that is stopped ends (`place_stop`).
-/

namespace Handheld

inductive Happening (F : Type) where
  | send (e : Envelope)
  /-- The thread takes up its work, unless that is up to the machine. -/
  | goOn
  /-- The machine is through with the frame. -/
  | compute
  | outside (o : Outside F)

namespace WorkerThread

variable {F M : Type} [Machine M] [Factory F M] {t u v : WorkerThread F M}

/-- Nobody takes what is sent to a thread that was asked to end. -/
def happen (t : WorkerThread F M) : Happening F → WorkerThread F M
  | .send e => (t.send e).toOption.getD t
  | .goOn => t.goOn
  | .compute => t.computeFrame
  | .outside o => t.mapWorker (·.outside o)

def undergo (t : WorkerThread F M) (course : List (Happening F)) : WorkerThread F M :=
  course.foldl happen t

theorem undergo_append (t : WorkerThread F M) (early late : List (Happening F)) :
    t.undergo (early ++ late) = (t.undergo early).undergo late := List.foldl_append

/-- A course leads from one thread to another. -/
def Leads (t u : WorkerThread F M) : Prop := ∃ course, u = t.undergo course

theorem Leads.refl (t : WorkerThread F M) : t.Leads t := ⟨[], rfl⟩

theorem Leads.trans (htu : t.Leads u) (huv : u.Leads v) : t.Leads v := by
  obtain ⟨early, rfl⟩ := htu
  obtain ⟨late, rfl⟩ := huv
  exact ⟨early ++ late, (t.undergo_append early late).symm⟩

theorem leads_happen (t : WorkerThread F M) (h : Happening F) : t.Leads (t.happen h) := ⟨[h], rfl⟩

/-! ## Turns of a thread -/

theorem takeMail_induction {I : Worker F M → Prop}
    (hmail : ∀ e ∈ t.mailbox, ∀ w, I w → I (w.handle e)) {w : Worker F M} (h : I w) :
    I (t.takeMail w).worker := by
  show I (w.handleAll t.mailbox)
  unfold Worker.handleAll
  generalize t.mailbox = mailbox at hmail
  induction mailbox generalizing w with
  | nil => exact h
  | cons e mailbox ih =>
    exact ih (hmail e List.mem_cons_self w h) fun f hf => hmail f (List.mem_cons_of_mem e hf)

theorem goOn_induction {I : Worker F M → Prop}
    (hmail : ∀ e ∈ t.mailbox, ∀ w, I w → I (w.handle e)) (hpoll : ∀ w, I w → I w.poll)
    (hbegin : ∀ w i, w.machine = some i → I w → I (w.beginFrame i).2)
    (hsettle : ∀ w, I w → I w.settleFrame)
    (hshutdown : t.wanted = false → ∀ w, I w → I w.shutdown) (h : I t.worker) : I t.goOn.worker := by
  unfold goOn
  split
  · split
    · have hpolled : I t.worker.poll := hpoll _ h
      unfold startPass
      dsimp only
      split
      · exact takeMail_induction hmail hpolled
      · split
        · exact takeMail_induction hmail (hsettle _ hpolled)
        · next i hi => exact hbegin _ i hi hpolled
    · next hunwanted => exact hshutdown (Bool.eq_false_iff.mpr hunwanted) _ h
  · exact takeMail_induction hmail h
  · exact h
  · exact h

omit [Factory F M] in
theorem computeFrame_induction {I : Worker F M → Prop} (hend : ∀ w input, I w → I (w.endFrame input))
    (hsettle : ∀ w, I w → I w.settleFrame) (h : I t.worker) : I t.computeFrame.worker := by
  unfold computeFrame
  split
  · exact hsettle _ (hend _ _ h)
  · exact h

/-! ## The mute policy -/

theorem compliant_goOn (t : WorkerThread F M) : t.worker.Compliant t.goOn.worker := by
  have hpoll : ∀ w : Worker F M, w.Compliant w.poll := fun w =>
    have hsampled : w.Compliant w.sampleHotkeys := .of_eq rfl rfl rfl
    hsampled.trans w.unmoved_poll.toCompliant
  exact goOn_induction (I := t.worker.Compliant)
    (fun e _ w h => h.trans (w.unmoved_handle e).toCompliant)
    (fun w h => h.trans (hpoll w))
    (fun w i _ h => h.trans (w.unmoved_beginFrame i).toCompliant)
    (fun w h => h.trans w.unmoved_settleFrame.toCompliant)
    (fun _ w h => h.trans w.unmoved_shutdown.toCompliant)
    (.refl t.worker)

omit [Factory F M] in
theorem compliant_computeFrame (t : WorkerThread F M) : t.worker.Compliant t.computeFrame.worker :=
  computeFrame_induction (I := t.worker.Compliant)
    (fun w input h => h.trans (w.unmoved_endFrame input).toCompliant)
    (fun w h => h.trans w.unmoved_settleFrame.toCompliant)
    (.refl t.worker)

theorem id_happen (t : WorkerThread F M) (h : Happening F) : (t.happen h).worker.id = t.worker.id := by
  cases h with
  | send e =>
    simp only [happen, send]
    split <;> rfl
  | goOn => exact t.compliant_goOn.id
  | compute => exact t.compliant_computeFrame.id
  | outside o =>
    cases o with
    | flush kind => exact (t.worker.unmoved_flush kind).id
    | _ => rfl

theorem id_undergo (t : WorkerThread F M) (course : List (Happening F)) :
    (t.undergo course).worker.id = t.worker.id := by
  induction course generalizing t with
  | nil => rfl
  | cons a course ih => exact (ih (t.happen a)).trans (t.id_happen a)

/-- A course leads from one thread to another, and the sound is muted as it was or as the policy says. -/
structure Goes (t u : WorkerThread F M) : Prop where
  leads : t.Leads u
  compliant : t.worker.Compliant u.worker

theorem Goes.refl (t : WorkerThread F M) : t.Goes t := ⟨.refl t, .refl t.worker⟩

theorem Goes.trans (htu : t.Goes u) (huv : u.Goes v) : t.Goes v :=
  ⟨htu.leads.trans huv.leads, htu.compliant.trans huv.compliant⟩

theorem goes_goOn (t : WorkerThread F M) : t.Goes t.goOn := ⟨t.leads_happen .goOn, t.compliant_goOn⟩

theorem goes_outside {o : Outside F} (h : t.worker.Compliant (t.worker.outside o)) :
    t.Goes (t.happen (.outside o)) := ⟨t.leads_happen (.outside o), h⟩

/-! ## Operations of a thread -/

theorem goOnFor_eq_undergo (n : Nat) (t : WorkerThread F M) :
    goOnFor n t = t.undergo (List.replicate n .goOn) := by
  induction n generalizing t with
  | zero => rfl
  | succ n ih => exact ih t.goOn

theorem goes_goOnFor (n : Nat) (t : WorkerThread F M) : t.Goes (goOnFor n t) := by
  induction n generalizing t with
  | zero => exact .refl t
  | succ n ih => exact t.goes_goOn.trans (ih t.goOn)

theorem goes_finishFrame (t : WorkerThread F M) : t.Goes t.finishFrame :=
  Goes.trans ⟨t.leads_happen .compute, t.compliant_computeFrame⟩ (goes_goOnFor _ t.computeFrame)

theorem goes_finishFrames (n : Nat) (t : WorkerThread F M) : t.Goes (finishFrames n t) := by
  induction n generalizing t with
  | zero => exact .refl t
  | succ n ih =>
    unfold finishFrames
    split
    · exact t.goes_finishFrame.trans (ih t.finishFrame)
    · exact .refl t

theorem goes_finishUntil (enough : WorkerThread F M → Bool) (n : Nat) (t : WorkerThread F M) :
    t.Goes (finishUntil enough n t) := by
  induction n generalizing t with
  | zero => exact .refl t
  | succ n ih =>
    unfold finishUntil
    split
    · exact .refl t
    · exact t.goes_finishFrame.trans (ih t.finishFrame)

theorem goes_send {e : Envelope} (h : t.send e = .ok u) : t.Goes u := by
  have hworker : u.worker = t.worker := by
    unfold send at h
    split at h
    · cases h
      rfl
    · cases h
  exact ⟨⟨[.send e], by simp [undergo, happen, h, Except.toOption]⟩, hworker ▸ .refl u.worker⟩

theorem goes_askFor (t : WorkerThread F M) (caller : Caller) (c : Command) :
    t.Goes (t.askFor caller c).2 := by
  unfold askFor
  split
  · exact .refl t
  · next sent hsent =>
    exact ((goes_send hsent).trans (goes_goOnFor _ sent)).trans (goes_finishUntil _ _ _)

/-! ## What a course keeps -/

theorem mem_mailbox_happen {h : Happening F} {e : Envelope} (he : e ∈ (t.happen h).mailbox) :
    e ∈ t.mailbox ∨ h = .send e := by
  cases h with
  | send f =>
    simp only [happen, send] at he
    split at he
    · rcases List.mem_append.mp he with he | he
      · exact .inl he
      · exact .inr (by rw [List.mem_singleton.mp he])
    · exact .inl he
  | goOn =>
    left
    change e ∈ t.goOn.mailbox at he
    unfold goOn startPass at he
    dsimp only at he
    split at he
    · split at he
      · split at he
        · cases he
        · split at he
          · cases he
          · exact he
      · exact he
    · cases he
    · exact he
    · exact he
  | compute =>
    left
    change e ∈ t.computeFrame.mailbox at he
    unfold computeFrame at he
    split at he <;> exact he
  | outside o => exact .inl he

theorem mem_mailbox_undergo {course : List (Happening F)} {e : Envelope}
    (he : e ∈ (t.undergo course).mailbox) : e ∈ t.mailbox ∨ .send e ∈ course := by
  induction course generalizing t with
  | nil => exact .inl he
  | cons a course ih =>
    rcases ih he with he | he
    · rcases mem_mailbox_happen he with he | rfl
      · exact .inl he
      · exact .inr List.mem_cons_self
    · exact .inr (List.mem_cons_of_mem a he)

end WorkerThread

namespace Worker

open WorkerThread

variable {F M : Type} [Machine M] [Factory F M] {I : Worker F M → Prop} {t : WorkerThread F M}

omit [Machine M] [Factory F M] in
theorem Stable.settleFrame (hR : Stable.Replying I) {w : Worker F M} (h : I w) : I w.settleFrame :=
  (InStep.settleFrame hR.inStep (.of_self h) fun _ => Iff.rfl).1

theorem Stable.goOn (hF : Stable.Framing I) (hR : Stable.Replying I)
    (hmail : ∀ e ∈ t.mailbox, ∀ w, I w → I (w.handle e)) (h : I t.worker) : I t.goOn.worker :=
  goOn_induction hmail (fun _ h => (InStep.poll hR.inStep (.of_self h)).1)
    (fun _ i _ h => (InStep.beginFrame hF.inStep (.of_self h) i).1.1) (fun _ h => Stable.settleFrame hR h)
    (fun _ _ h => (InStep.shutdown hR.inStep (.of_self h)).1) h

omit [Factory F M] in
theorem Stable.computeFrame (hF : Stable.Framing I) (hR : Stable.Replying I) (h : I t.worker) :
    I t.computeFrame.worker :=
  computeFrame_induction (fun _ input h => (InStep.endFrame hF.inStep (.of_self h) input).1)
    (fun _ h => Stable.settleFrame hR h) h

/-- **A course keeps** what the small steps of a worker keep, if the commands that it takes and what
happens outside keep it. -/
theorem Stable.undergo (hF : Stable.Framing I) (hR : Stable.Replying I) {course : List (Happening F)}
    (hmail : ∀ e, e ∈ t.mailbox ∨ .send e ∈ course → ∀ w, I w → I (w.handle e))
    (houtside : ∀ o, .outside o ∈ course → ∀ w, I w → I (w.outside o)) (h : I t.worker) :
    I (t.undergo course).worker := by
  induction course generalizing t with
  | nil => exact h
  | cons a course ih =>
    have hhappened : I (t.happen a).worker := by
      cases a with
      | send e =>
        simp only [happen, send]
        split <;> exact h
      | goOn => exact Stable.goOn hF hR (fun e he => hmail e (.inl he)) h
      | compute => exact Stable.computeFrame hF hR h
      | outside o => exact houtside o List.mem_cons_self _ h
    refine ih (fun e he => hmail e ?_) (fun o ho => houtside o (List.mem_cons_of_mem a ho)) hhappened
    rcases he with he | he
    · rcases mem_mailbox_happen he with he | rfl
      · exact .inl he
      · exact .inr List.mem_cons_self
    · exact .inr (List.mem_cons_of_mem a he)

theorem Stable.stop (hF : Stable.Framing I) (hR : Stable.Replying I)
    (hmail : ∀ e ∈ t.mailbox, ∀ w, I w → I (w.handle e)) (h : I t.worker) : I t.stop.worker := by
  let unwanted : WorkerThread F M := { t with wanted := false }
  have hstop : t.stop =
      unwanted.undergo (.compute :: .replicate unwanted.computeFrame.turnsToRest .goOn) :=
    goOnFor_eq_undergo _ _
  rw [hstop]
  refine Stable.undergo (t := unwanted) hF hR (fun e he => hmail e ?_) (fun o ho => ?_) h
  · simpa [List.mem_replicate] using he
  · simp [List.mem_replicate] at ho

end Worker

namespace WorkerThread

variable {F M : Type} [Machine M] [Factory F M] {t : WorkerThread F M}

/-! ## The end of a thread -/

theorem goOnFor_of_gone (n : Nat) (h : t.place = .gone) : goOnFor n t = t := by
  induction n with
  | zero => rfl
  | succ n ih =>
    have hgo : t.goOn = t := by simp [goOn, h]
    rw [goOnFor, hgo, ih]

theorem place_goOnFor_of_unwanted (n : Nat) (hwanted : t.wanted = false)
    (hframe : t.isInFrame = false) : (goOnFor (n + 2) t).place = .gone := by
  have hidle : ∀ {u : WorkerThread F M} (n : Nat), u.wanted = false → u.place = .idle →
      (goOnFor (n + 1) u).place = .gone := by
    intro u n hu hplace
    have hgo : u.goOn.place = .gone := by simp [goOn, hplace, hu]
    rw [goOnFor, goOnFor_of_gone n hgo, hgo]
  cases hplace : t.place with
  | idle => exact hidle (n + 1) hwanted hplace
  | inFrame input => simp [isInFrame, hplace] at hframe
  | resting =>
    have hgo : t.goOn = t.takeMail t.worker := by simp [goOn, hplace]
    rw [goOnFor, hgo]
    exact hidle n hwanted rfl
  | gone => rw [goOnFor_of_gone _ hplace, hplace]

/-- **A thread that is stopped ends**, wherever it was. -/
theorem place_stop (t : WorkerThread F M) : t.stop.place = .gone := by
  let computed : WorkerThread F M := { t with wanted := false }.computeFrame
  have hcomputed : computed.wanted = false ∧ computed.isInFrame = false := by
    cases hplace : t.place <;> simp [computed, computeFrame, isInFrame, hplace]
  exact place_goOnFor_of_unwanted (computed.worker.waiting.length + computed.mailbox.length + 3)
    hcomputed.1 hcomputed.2

end WorkerThread

/-- Sound of the same instance, let out and muted alike; the queue and who drains it may differ. -/
structure Pipeline.Alike (p q : Pipeline) : Prop where
  owner : q.instanceId = p.instanceId
  enabled : q.enabled = p.enabled
  muted : q.muted = p.muted

namespace Instance

variable {F M : Type} [Machine M] [Factory F M]

/-- A course of the thread leads from one instance to another. -/
def Leads (i j : Instance F M) : Prop := i.thread.Leads j.thread

/-- Besides, the sound is muted as it was or as the mute policy says. -/
def Goes (i j : Instance F M) : Prop := i.thread.Goes j.thread

theorem Goes.refl (i : Instance F M) : i.Goes i := WorkerThread.Goes.refl i.thread

inductive Operation where
  | pushAudio (frames : List StereoFrame)
  | checkSaves
  | refreshMute
  | setOutput (o : OutputDevice)
  | openDevices (host : AudioHost) (config : Config)
  | playOut (buffer : List DeviceSample)
  | capturedIn (data : List DeviceSample)
  | closeDevices
  | ask (c : Command)
  | loseFocus
  | gainFocus
  | runOn (frames : Nat)

def operate (i : Instance F M) : Operation → Instance F M
  | .pushAudio frames => (i.pushAudio frames).2
  | .checkSaves => i.checkSaves.2
  | .refreshMute => i.refreshMute
  | .setOutput o => i.setOutput o
  | .openDevices host config => (i.openDevices host config).1
  | .playOut buffer => (i.playOut buffer).2
  | .capturedIn data => i.capturedIn data
  | .closeDevices => i.closeDevices
  | .ask c => (i.ask c).2
  | .loseFocus => i.loseFocus
  | .gainFocus => i.gainFocus
  | .runOn frames => i.runOn frames

/-! ## Operations of an instance -/

theorem alike_connect (host : AudioHost) (p : Pipeline) (audio : AudioConfig) :
    p.Alike (OutputDevice.connect host p audio).1 := by
  unfold OutputDevice.connect
  dsimp only
  split
  · exact ⟨rfl, rfl, rfl⟩
  · split
    · exact ⟨rfl, rfl, rfl⟩
    · split
      · exact ⟨rfl, rfl, rfl⟩
      · split
        · exact ⟨rfl, rfl, rfl⟩
        · split <;> exact ⟨rfl, rfl, rfl⟩

theorem alike_render (p : Pipeline) (r : Renderer) (n : Nat) : p.Alike (p.render r n).2.2 := by
  cases h : p.enabled with
  | false =>
    rw [Pipeline.render_of_disabled h]
    exact ⟨rfl, rfl, rfl⟩
  | true =>
    obtain ⟨used, hrender⟩ := Pipeline.render_of_enabled h r n
    rw [hrender]
    exact ⟨rfl, rfl, rfl⟩

theorem leads_audio (i : Instance F M) {audio : Pipeline}
    (h : audio.enabled = i.thread.worker.audio.enabled) :
    i.Leads (i.mapWorker fun w => { w with audio }) := by
  refine ⟨[.outside (.audio audio)], ?_⟩
  show (i.thread.mapWorker fun w => { w with audio }) = i.thread.mapWorker (·.outside (.audio audio))
  have hsame : ({ audio with enabled := i.thread.worker.audio.enabled } : Pipeline) = audio := by
    rw [← h]
  simp only [WorkerThread.mapWorker, Worker.outside, hsame]

theorem goes_alike (i : Instance F M) {audio : Pipeline} (h : i.thread.worker.audio.Alike audio) :
    i.Goes (i.mapWorker fun w => { w with audio }) :=
  ⟨i.leads_audio h.enabled, ⟨rfl, rfl, h.owner, .inl h.muted⟩⟩

theorem goes_refreshMute (i : Instance F M) : i.Goes i.refreshMute :=
  ⟨i.leads_audio rfl, ⟨rfl, rfl, rfl, .inr rfl⟩⟩

theorem goes_checkSaves (i : Instance F M) : i.Goes i.checkSaves.2 := by
  let cartFlushed : WorkerThread F M := i.thread.happen (.outside (.flush .cart))
  have hcart : i.thread.Goes cartFlushed :=
    WorkerThread.goes_outside (i.thread.worker.unmoved_flush .cart).toCompliant
  exact hcart.trans (WorkerThread.goes_outside (cartFlushed.worker.unmoved_flush .firmware).toCompliant)

theorem goes_setOutput (i : Instance F M) (o : OutputDevice) : i.Goes (i.setOutput o) := by
  unfold setOutput
  cases i.output with
  | none => exact .refl i
  | some old => exact i.goes_alike ⟨rfl, rfl, rfl⟩

theorem goes_openDevices (i : Instance F M) (host : AudioHost) (config : Config) :
    i.Goes (i.openDevices host config).1 := by
  have halike := alike_connect host i.thread.worker.audio config.audio
  unfold openDevices
  rcases hconnect : OutputDevice.connect host i.thread.worker.audio config.audio with ⟨audio, e | o⟩
  · rw [hconnect] at halike
    exact i.goes_alike halike
  · rw [hconnect] at halike
    have hopened := WorkerThread.Goes.trans (i.goes_alike halike) (goes_setOutput _ o)
    dsimp only
    split
    · exact hopened
    · split <;> exact hopened

theorem goes_playOut (i : Instance F M) (buffer : List DeviceSample) :
    i.Goes (i.playOut buffer).2 := by
  unfold playOut
  split
  · exact .refl i
  · exact i.goes_alike (alike_render _ _ _)

theorem goes_capturedIn (i : Instance F M) (data : List DeviceSample) :
    i.Goes (i.capturedIn data) := by
  unfold capturedIn
  split
  · exact .refl i
  · exact ⟨⟨[.outside (.mic _)], rfl⟩, .of_eq rfl rfl rfl⟩

theorem goes_closeDevices (i : Instance F M) : i.Goes i.closeDevices := by
  unfold closeDevices
  split
  · exact .refl i
  · exact i.goes_alike ⟨rfl, rfl, rfl⟩

theorem goes_ask (i : Instance F M) (c : Command) : i.Goes (i.ask c).2 :=
  i.thread.goes_askFor WorkerThread.director c

theorem goes_askForFocus (i : Instance F M) (c : Command) : i.Goes (i.askForFocus c).2 :=
  i.thread.goes_askFor WorkerThread.keeper c

theorem goes_loseFocus (i : Instance F M) : i.Goes i.loseFocus := by
  have hasked := i.goes_askForFocus .pause
  unfold loseFocus
  split
  · exact .refl i
  · split
    · next h =>
      rw [h] at hasked
      exact hasked
    · next h =>
      rw [h] at hasked
      exact hasked

theorem goes_gainFocus (i : Instance F M) : i.Goes i.gainFocus := by
  unfold gainFocus
  split
  · exact .refl i
  · exact { i with focusPaused := false }.goes_askForFocus .unpause

/-- **What is done with an instance is a course** of its thread that keeps to the mute policy. -/
theorem goes_operate (i : Instance F M) (o : Operation) : i.Goes (i.operate o) := by
  cases o with
  | pushAudio frames => exact i.goes_alike ⟨rfl, rfl, rfl⟩
  | checkSaves => exact i.goes_checkSaves
  | refreshMute => exact i.goes_refreshMute
  | setOutput o => exact i.goes_setOutput o
  | openDevices host config => exact i.goes_openDevices host config
  | playOut buffer => exact i.goes_playOut buffer
  | capturedIn data => exact i.goes_capturedIn data
  | closeDevices => exact i.goes_closeDevices
  | ask c => exact i.goes_ask c
  | loseFocus => exact i.goes_loseFocus
  | gainFocus => exact i.goes_gainFocus
  | runOn frames =>
    exact (WorkerThread.goes_goOnFor _ i.thread).trans (WorkerThread.goes_finishFrames frames _)

end Instance

end Handheld
