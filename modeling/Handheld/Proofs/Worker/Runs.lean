import Handheld.Machine.Script
import Handheld.Worker.Pass

/-!
# Runs of a worker

What a worker goes through, as data: commands it takes, polls of the hotkeys and of stop requests,
frames, and what others do around it, also while a frame is computed. A run is a fold of total steps
in any order; the passes of a worker are among them (`passes_eq_run`). `Adds` says what a stretch of
a run enters into the journal.
-/

namespace Handheld

/-- What happens around a worker. -/
inductive Outside (F : Type) where
  | input (input : InputState)
  /-- A wish to be stopped, as a machine has it. -/
  | raiseStop
  | wait (time : Nat)
  /-- A save is written, because that is due or because somebody wants it. What goes where is settled
  when the writer takes its snapshot; that is the moment of this event. -/
  | flush (kind : SaveKind)
  | disk (files : FileTree)
  | mute (mute : MuteState)
  | mic (mic : MicInput)
  /-- Sound is played, added or muted; only the worker lets it out. -/
  | audio (audio : Pipeline)
  | readNotices
  | factory (factory : F)

/-- What a worker goes through. -/
inductive Act (F : Type) where
  | take (e : Envelope)
  | poll
  /-- The frame of a pass, with what happens while the machine computes it. -/
  | frame (meanwhile : List (Outside F))
  | outside (o : Outside F)
  | shutdown

namespace Worker

variable {F M : Type}

def outside (w : Worker F M) : Outside F → Worker F M
  | .input input => { w with input }
  | .raiseStop => { w with stopRequested := true }
  | .wait time => { w with world.now := w.world.now + time }
  | .flush .cart => w.flushCart.2
  | .flush .firmware => w.flushFirmware.2
  | .disk files => { w with world.files := files }
  | .mute mute => { w with world.mute := mute }
  | .mic mic => { w with mic }
  | .audio audio => { w with audio := { audio with enabled := w.audio.enabled } }
  | .readNotices => w.takeNotices.2
  | .factory factory => { w with factory }

def outsideAll (w : Worker F M) (meanwhile : List (Outside F)) : Worker F M :=
  meanwhile.foldl outside w

variable [Machine M]

/-- The second part of a pass, with what happens between its two halves. -/
def frameWith (w : Worker F M) (meanwhile : List (Outside F)) : Worker F M :=
  if w.status.runsFrame then
    match w.machine with
    | none => w.settleFrame
    | some i =>
      let (input, begun) := w.beginFrame i
      ((begun.outsideAll meanwhile).endFrame input).settleFrame
  else w

variable [Factory F M]

def step (w : Worker F M) : Act F → Worker F M
  | .take e => w.handle e
  | .poll => w.poll
  | .frame meanwhile => w.frameWith meanwhile
  | .outside o => w.outside o
  | .shutdown => w.shutdown

def run (w : Worker F M) (acts : List (Act F)) : Worker F M := acts.foldl step w

theorem run_append (w : Worker F M) (early late : List (Act F)) :
    w.run (early ++ late) = (w.run early).run late := List.foldl_append

theorem run_concat (w : Worker F M) (acts : List (Act F)) (a : Act F) :
    w.run (acts ++ [a]) = (w.run acts).step a := w.run_append acts [a]

/-! ## Conditions along a run -/

/-- Something holds of every step of a run and the worker that takes it. -/
def Along (P : Worker F M → Act F → Prop) (w : Worker F M) (acts : List (Act F)) : Prop :=
  ∀ early a late, acts = early ++ a :: late → P (w.run early) a

theorem along_nil (P : Worker F M → Act F → Prop) (w : Worker F M) : w.Along P [] :=
  fun early a late h => by cases early <;> cases h

theorem along_cons {P : Worker F M → Act F → Prop} {w : Worker F M} {a : Act F}
    {acts : List (Act F)} : w.Along P (a :: acts) ↔ P w a ∧ (w.step a).Along P acts := by
  constructor
  · intro h
    refine ⟨h [] a acts rfl, fun early b late hacts => ?_⟩
    exact h (a :: early) b late (by rw [hacts, List.cons_append])
  · rintro ⟨hfirst, hrest⟩ early b late hacts
    cases early with
    | nil =>
      obtain ⟨rfl, -⟩ := List.cons.inj hacts
      exact hfirst
    | cons c early =>
      obtain ⟨rfl, htail⟩ := List.cons.inj hacts
      exact hrest early b late htail

theorem Along.of_append {P : Worker F M → Act F → Prop} {w : Worker F M} {early late : List (Act F)}
    (h : w.Along P (early ++ late)) : w.Along P early := fun early' a late' hacts =>
  h early' a (late' ++ late) (by rw [hacts, List.append_assoc, List.cons_append])

theorem Along.after {P : Worker F M → Act F → Prop} {w : Worker F M} {early late : List (Act F)}
    (h : w.Along P (early ++ late)) : (w.run early).Along P late := fun early' a late' hacts => by
  rw [← run_append]
  exact h (early ++ early') a late' (by rw [hacts, List.append_assoc])

theorem Along.concat {P : Worker F M → Act F → Prop} {w : Worker F M} {acts : List (Act F)} {a : Act F}
    (h : w.Along P acts) (ha : P (w.run acts) a) : w.Along P (acts ++ [a]) := by
  intro early b late hacts
  rcases List.append_eq_append_iff.mp hacts with ⟨more, rfl, hlate⟩ | ⟨more, rfl, hlate⟩
  · cases more with
    | nil =>
      obtain ⟨rfl, -⟩ := List.cons.inj hlate
      rwa [List.append_nil]
    | cons c more => simp at hlate
  · cases more with
    | nil =>
      obtain ⟨rfl, -⟩ := List.cons.inj hlate
      rwa [List.append_nil] at ha
    | cons c more =>
      obtain ⟨rfl, -⟩ := List.cons.inj hlate
      exact h early b more rfl

/-! ## Passes -/

omit [Factory F M] in
theorem frameWith_nil (w : Worker F M) : w.frameWith [] = w.frame := by
  unfold frameWith frame runFrame
  split
  · cases w.machine <;> rfl
  · rfl

theorem handleAll_eq_run (w : Worker F M) (mailbox : List Envelope) :
    w.handleAll mailbox = w.run (mailbox.map .take) := by
  rw [run, List.foldl_map]
  rfl

theorem pass_eq_run (w : Worker F M) (mailbox : List Envelope) :
    w.pass mailbox = w.run (.poll :: .frame [] :: mailbox.map .take) := by
  show w.poll.frame.handleAll mailbox = (w.poll.frameWith []).run (mailbox.map .take)
  rw [frameWith_nil, handleAll_eq_run]

theorem passes_eq_run (w : Worker F M) (mailboxes : List (List Envelope)) :
    w.passes mailboxes =
      w.run (mailboxes.flatMap fun m => .poll :: .frame [] :: m.map .take) := by
  induction mailboxes generalizing w with
  | nil => rfl
  | cons m mailboxes ih =>
    rw [List.flatMap_cons, run_append, ← pass_eq_run]
    exact ih (w.pass m)

omit [Machine M] [Factory F M]

theorem flushIf_eq_outsideAll (w : Worker F M) (cart : Bool) (firmware : Worker F M → Bool) :
    ∃ kinds : List SaveKind,
      (let v := if cart then w.flushCart.2 else w
       if firmware v then v.flushFirmware.2 else v) = w.outsideAll (kinds.map .flush) := by
  have hfirmware : ∀ v : Worker F M, ∃ kinds : List SaveKind,
      (if firmware v then v.flushFirmware.2 else v) = v.outsideAll (kinds.map .flush) := by
    intro v
    cases firmware v with
    | true => exact ⟨[.firmware], rfl⟩
    | false => exact ⟨[], rfl⟩
  cases cart with
  | false => exact hfirmware w
  | true =>
    obtain ⟨kinds, h⟩ := hfirmware w.flushCart.2
    exact ⟨.cart :: kinds, h⟩

theorem flushDue_eq_outsideAll (w : Worker F M) (debounce : Nat) :
    ∃ kinds : List SaveKind, w.flushDue debounce = w.outsideAll (kinds.map .flush) :=
  w.flushIf_eq_outsideAll _ fun v => v.firmware.isDue v.world.now debounce

theorem closeSaves_eq_outsideAll (w : Worker F M) :
    ∃ kinds : List SaveKind, w.closeSaves = w.outsideAll (kinds.map .flush) :=
  w.flushIf_eq_outsideAll _ fun v => v.firmware.isStale

/-! ## What a call changes -/

theorem receiveAll_eq (w : Worker F M) (boot : Nat) (requests : List Request) :
    ∃ cart firmware stopRequested journal, w.receiveAll boot requests =
      { w with cart, firmware, stopRequested, journal } := by
  induction requests generalizing w with
  | nil => exact ⟨_, _, _, _, rfl⟩
  | cons q requests ih =>
    obtain ⟨cart, firmware, stopRequested, journal, h⟩ := ih (receive boot w q)
    refine ⟨cart, firmware, stopRequested, journal, h.trans ?_⟩
    cases q <;> rfl

theorem use_eq {α : Type} (w : Worker F M) (i : Installed M) (call : α → Call)
    (act : M → Outcome M α) :
    ∃ machine cart firmware stopRequested journal, (w.use i call act).2 =
      { w with machine, cart, firmware, stopRequested, journal } := by
  obtain ⟨cart, firmware, stopRequested, journal, h⟩ := receiveAll_eq
    ({ w with machine := some { i with machine := (act i.machine).machine } }.note
      (.called i.boot (call (act i.machine).answer))) i.boot (act i.machine).requests
  exact ⟨_, cart, firmware, stopRequested, journal, h⟩

theorem useIfAny_eq (w : Worker F M) (call : Call) (act : M → Outcome M Unit) :
    ∃ machine cart firmware stopRequested journal, w.useIfAny call act =
      { w with machine, cart, firmware, stopRequested, journal } := by
  unfold useIfAny
  split
  · exact ⟨_, _, _, _, _, rfl⟩
  · exact w.use_eq _ _ act

/-! ## What settling changes -/

theorem answerSteps_eq (w : Worker F M) (r : Reply) :
    ∃ journal, w.answerSteps r = { w with waiting := [], journal } := by
  suffices ∀ (cs : List Caller) (v : Worker F M),
      ∃ journal, cs.foldl (fun v c => v.answer c r) v = { v with journal } from
    this w.waiting { w with waiting := [] }
  intro cs
  induction cs with
  | nil => exact fun v => ⟨v.journal, rfl⟩
  | cons c cs ih => exact fun v => ih (v.answer c r)

theorem settle_eq (w : Worker F M) : ∃ waiting shown journal,
    w.settle = { w with waiting, shown, journal } := by
  unfold settle
  split
  · exact ⟨_, _, _, rfl⟩
  all_goals
    obtain ⟨journal, h⟩ := w.answerSteps_eq _
    rw [h]
    exact ⟨_, _, _, rfl⟩

theorem settle_respond_eq (w : Worker F M) (c : Option Caller) (r : Reply) :
    ∃ waiting shown journal, w.settle.respond c r = { w with waiting, shown, journal } := by
  obtain ⟨waiting, shown, journal, h⟩ := w.settle_eq
  rw [h]
  cases c with
  | none => exact ⟨_, _, _, rfl⟩
  | some c => exact ⟨_, _, _, rfl⟩

theorem status_settle (w : Worker F M) : w.settle.status = w.status := by
  obtain ⟨_, _, _, h⟩ := w.settle_eq
  rw [h]

/-! ## What is entered into the journal -/

/-- The journal grows by events of a kind. -/
def Adds (P : Event → Prop) (w v : Worker F M) : Prop :=
  ∃ added, v.journal = added ++ w.journal ∧ ∀ e ∈ added, P e

variable {P : Event → Prop} {u v w : Worker F M}

theorem Adds.of_eq (h : v.journal = w.journal) : Adds P w v := ⟨[], h, by simp⟩

theorem Adds.trans (huv : Adds P u v) (hvw : Adds P v w) : Adds P u w := by
  obtain ⟨early, hv, hearly⟩ := huv
  obtain ⟨late, hw, hlate⟩ := hvw
  refine ⟨late ++ early, by rw [hw, hv, List.append_assoc], fun e he => ?_⟩
  rcases List.mem_append.mp he with he | he
  · exact hlate e he
  · exact hearly e he

theorem Adds.filterMap_eq {α : Type} (h : Adds P w v) {f : Event → Option α}
    (hf : ∀ e, P e → f e = none) : v.journal.filterMap f = w.journal.filterMap f := by
  obtain ⟨added, hjournal, hadded⟩ := h
  have hnone : added.filterMap f = [] :=
    List.filterMap_eq_nil_iff.mpr fun e he => hf e (hadded e he)
  rw [hjournal, List.filterMap_append, hnone, List.nil_append]

theorem adds_note (w : Worker F M) {e : Event} (h : P e) : Adds P w (w.note e) :=
  ⟨[e], rfl, by simpa using h⟩

theorem adds_respond (w : Worker F M) (c : Option Caller) (r : Reply)
    (h : ∀ d shown, P (.answered d r shown)) : Adds P w (w.respond c r) := by
  cases c with
  | none => exact .of_eq rfl
  | some d => exact w.adds_note (h d w.shown)

theorem adds_answerSteps (w : Worker F M) (r : Reply) (h : ∀ d shown, P (.answered d r shown)) :
    Adds P w (w.answerSteps r) := by
  suffices ∀ (cs : List Caller) (v : Worker F M), Adds P v (cs.foldl (fun v c => v.answer c r) v) from
    this w.waiting { w with waiting := [] }
  intro cs
  induction cs with
  | nil => exact fun v => .of_eq rfl
  | cons c cs ih => exact fun v => (v.adds_note (h c v.shown)).trans (ih (v.answer c r))

theorem adds_settle (w : Worker F M) (h : ∀ d r shown, P (.answered d r shown)) :
    Adds P w w.settle := by
  unfold settle
  split
  · exact .of_eq rfl
  all_goals exact w.adds_answerSteps _ fun d shown => h d _ shown

theorem adds_noteWrite (w : Worker F M) (kind : SaveKind) (write : Option SaveWrite)
    (h : ∀ s, P (.wrote kind s)) : Adds P w (w.noteWrite kind write) := by
  cases write with
  | none => exact .of_eq rfl
  | some s => exact w.adds_note (h s)

theorem adds_outside (w : Worker F M) (o : Outside F) (h : ∀ kind s, P (.wrote kind s)) :
    Adds P w (w.outside o) := by
  cases o with
  | flush kind =>
    cases kind with
    | cart => exact w.adds_noteWrite .cart _ (h .cart)
    | firmware => exact w.adds_noteWrite .firmware _ (h .firmware)
  | _ => exact .of_eq rfl

theorem journal_receiveAll (w : Worker F M) (boot : Nat) (requests : List Request) :
    (w.receiveAll boot requests).journal =
      (requests.map (Event.requested boot)).reverse ++ w.journal := by
  induction requests generalizing w with
  | nil => rfl
  | cons q requests ih =>
    rw [List.map_cons, List.reverse_cons, List.append_assoc]
    have h : (receive boot w q).journal = .requested boot q :: w.journal := by cases q <;> rfl
    exact (ih (receive boot w q)).trans (by rw [h]; rfl)

theorem adds_use {α : Type} (w : Worker F M) (i : Installed M) (call : α → Call)
    (act : M → Outcome M α) (hcall : P (.called i.boot (call (act i.machine).answer)))
    (hrequest : ∀ q, P (.requested i.boot q)) : Adds P w (w.use i call act).2 := by
  refine ⟨((act i.machine).requests.map (Event.requested i.boot)).reverse ++
    [.called i.boot (call (act i.machine).answer)], ?_, ?_⟩
  · rw [List.append_assoc]
    exact journal_receiveAll _ i.boot (act i.machine).requests
  · intro e he
    rcases List.mem_append.mp he with he | he
    · obtain ⟨q, -, rfl⟩ := List.mem_map.mp (List.mem_reverse.mp he)
      exact hrequest q
    · obtain rfl := List.mem_singleton.mp he
      exact hcall

theorem adds_useIfAny (w : Worker F M) (call : Call) (act : M → Outcome M Unit)
    (hcall : ∀ boot, P (.called boot call)) (hrequest : ∀ boot q, P (.requested boot q)) :
    Adds P w (w.useIfAny call act) := by
  unfold useIfAny
  split
  · exact .of_eq rfl
  · next i _ => exact w.adds_use i _ act (hcall i.boot) (hrequest i.boot)

/-! ## A rehearsal -/

/-- A worker that script machines can be tried on. -/
def rehearsal (script : Script) (files : FileTree) : Worker ScriptFactory ScriptMachine :=
  .new 0 { script } { files } none none (.new 0 {} {} {}) (.new files .silence none)

end Worker

end Handheld
