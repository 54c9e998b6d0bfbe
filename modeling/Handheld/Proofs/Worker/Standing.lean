import Handheld.Proofs.Worker.Callers
import Handheld.Proofs.Worker.Failing

/-!
# Machines, backups and replies

Whose machine is installed, what is kept for an undo, whether a machine wishes to be stopped, who waits
and what can be seen: this is the `Standing` of a worker, and it moves together with the journal.
`Standing.Step` lists the ways it can, and what is to be shown of all of them is shown of these ways. Some
are for some steps of a run only (`Licenses`): a backup, for one, is kept by nothing but a savestate load
while active. Boots are numbered as they come, so that the machine of the latest one was never called
before it starts; this takes that no boot is numbered ahead, which `Shifts` asks for.
-/

namespace Handheld

/-- What a worker has besides its control, and its journal. -/
structure Standing where
  /-- The boot that the installed machine comes from. -/
  boot : Option Nat
  boots : Nat
  backup : Option Backup
  stopRequested : Bool
  waiting : List Caller
  shown : Shown
  journal : List Event

/-- What takes a license. -/
inductive License where
  /-- Keep a state for an undo, or nothing where there was one. -/
  | keep
  /-- Use up the state that is kept. -/
  | forget
  /-- Raise the wish to be stopped without a request of a machine. -/
  | raise
  /-- Take the wish to be stopped. -/
  | lower
  /-- Let the machine go. -/
  | vacate
  /-- Publish, reply, and let callers wait or go. -/
  | settle
  /-- Send a message to the screen. -/
  | tell

/-- The calls on the machine of a boot among events. -/
def callsTo (boot : Nat) (events : List Event) : List Call :=
  (calls events).filterMap fun (b, call) => if b = boot then some call else none

variable {boot : Nat} {early late : List Event}

theorem callsTo_congr (h : calls late = calls early) : callsTo boot late = callsTo boot early := by
  rw [callsTo, callsTo, h]

theorem callsTo_of_cons {call : Call} (h : calls late = (boot, call) :: calls early) :
    callsTo boot late = call :: callsTo boot early := by
  simp [callsTo, h]

theorem callsTo_of_cons_ne {b : Nat} {call : Call} (h : calls late = (b, call) :: calls early)
    (hb : b ≠ boot) : callsTo boot late = callsTo boot early := by
  simp [callsTo, h, hb]

theorem callsTo_append (early late : List Event) :
    callsTo boot (early ++ late) = callsTo boot early ++ callsTo boot late := by
  rw [callsTo, calls_append, List.filterMap_append]
  rfl

theorem mem_callsTo {call : Call} {events : List Event} :
    call ∈ callsTo boot events ↔ .called boot call ∈ events := by
  rw [← mem_calls, callsTo, List.mem_filterMap]
  constructor
  · rintro ⟨⟨b, c⟩, hmem, hcall⟩
    simp only [Option.ite_none_right_eq_some, Option.some.injEq] at hcall
    obtain ⟨rfl, rfl⟩ := hcall
    exact hmem
  · intro h
    exact ⟨_, h, if_pos rfl⟩

/-- An event that tells of no change of the standing. -/
def Event.Apart : Event → Prop
  | .taken _ => True
  | .wrote _ _ => True
  | .pointed _ => True
  | _ => False

namespace Standing

def enter (s : Standing) (e : Event) : Standing := { s with journal := e :: s.journal }

/-- The latest boot has come to no machine so far. -/
structure Fresh (s : Standing) (b : Nat) : Prop where
  boots : s.boots = b + 1
  boot : s.boot ≠ some b
  uncalled : ∀ call, .called b call ∉ s.journal

/-- The latest call on the installed machine was to stop it. -/
def Halted (s : Standing) : Prop := ∀ b, s.boot = some b → (callsTo b s.journal).head? = some .stop

/-- How a standing changes, with the event that tells of it. A machine is let go only after a stop. -/
inductive Step (may : License → Prop) : Standing → Standing → Prop
  | enter {s : Standing} {e : Event} (h : e.Apart) : Step may s (s.enter e)
  | ask {s : Standing} (rom : Option Rom) :
    Step may s { s.enter (.asked s.boots rom) with boots := s.boots + 1 }
  | start {s : Standing} {b : Nat} (h : s.Fresh b) (hhalted : s.Halted) :
    Step may s { s.enter (.called b .start) with boot := some b, backup := none }
  | call {s : Standing} {b : Nat} {call : Call} (h : s.boot = some b) (hcall : call ≠ .start) :
    Step may s (s.enter (.called b call))
  | request {s : Standing} {b : Nat} (q : Request) (h : s.boot = some b ∨ s.Fresh b) :
    Step may s
      { s.enter (.requested b q) with stopRequested := s.stopRequested || decide (q = .stop) }
  | keep (s : Standing) (backup : Option Backup) (h : may .keep) : Step may s { s with backup }
  | forget (s : Standing) (h : may .forget) : Step may s { s with backup := none }
  | raise (s : Standing) (h : may .raise) : Step may s { s with stopRequested := true }
  | lower (s : Standing) (h : may .lower) : Step may s { s with stopRequested := false }
  | vacate (s : Standing) (h : may .vacate) (hhalted : s.Halted) : Step may s { s with boot := none }
  | publish (s : Standing) (shown : Shown) (h : may .settle) : Step may s { s with shown }
  | queue (s : Standing) (waiting : List Caller) (h : may .settle) : Step may s { s with waiting }
  | answer (s : Standing) (c : Caller) (r : Reply) (h : may .settle) :
    Step may s (s.enter (.answered c r s.shown))
  | tell (s : Standing) (message : String) (h : may .tell) : Step may s (s.enter (.notified message))

variable {may : License → Prop} {s t : Standing}

theorem Step.mono {might : License → Prop} (h : Step may s t) (hmay : ∀ l, may l → might l) :
    Step might s t := by
  cases h with
  | enter h => exact .enter h
  | ask rom => exact .ask rom
  | start h hhalted => exact .start h hhalted
  | call h hcall => exact .call h hcall
  | request q h => exact .request q h
  | keep backup h => exact .keep _ backup (hmay _ h)
  | forget h => exact .forget _ (hmay _ h)
  | raise h => exact .raise _ (hmay _ h)
  | lower h => exact .lower _ (hmay _ h)
  | vacate h hhalted => exact .vacate _ (hmay _ h) hhalted
  | publish shown h => exact .publish _ shown (hmay _ h)
  | queue waiting h => exact .queue _ waiting (hmay _ h)
  | answer c r h => exact .answer _ c r (hmay _ h)
  | tell message h => exact .tell _ message (hmay _ h)

theorem Step.journal (h : Step may s t) : ∃ added, t.journal = added ++ s.journal := by
  cases h with
  | enter | ask | start | call | request | answer | tell => exact ⟨[_], rfl⟩
  | _ => exact ⟨[], rfl⟩

theorem journal_steps (hsteps : Relation.ReflTransGen (Step may) s t) :
    ∃ added, t.journal = added ++ s.journal := by
  induction hsteps with
  | refl => exact ⟨[], rfl⟩
  | tail _ hstep ih =>
    obtain ⟨early, hearly⟩ := ih
    obtain ⟨late, hlate⟩ := hstep.journal
    exact ⟨late ++ early, by rw [hlate, hearly, List.append_assoc]⟩

/-- No boot is numbered ahead. -/
structure Numbered (s : Standing) : Prop where
  boot : ∀ b, s.boot = some b → b < s.boots
  called : ∀ b call, .called b call ∈ s.journal → b < s.boots

theorem Numbered.enter (h : Numbered s) {e : Event}
    (he : ∀ b call, e = .called b call → b < s.boots) : Numbered (s.enter e) where
  boot := h.boot
  called := fun b call hmem => by
    rcases List.mem_cons.mp hmem with heq | hmem
    · exact he b call heq.symm
    · exact h.called b call hmem

theorem Numbered.step (h : Numbered s) (hstep : Step may s t) : Numbered t := by
  cases hstep with
  | enter he =>
    refine h.enter ?_
    rintro b call rfl
    exact he.elim
  | ask rom =>
    have hentered : Numbered (s.enter (.asked s.boots rom)) := h.enter nofun
    exact ⟨fun b hb => Nat.lt_succ_of_lt (hentered.boot b hb),
      fun b call hmem => Nat.lt_succ_of_lt (hentered.called b call hmem)⟩
  | @start b hfresh =>
    have hlt : b < s.boots := by
      rw [hfresh.boots]
      exact Nat.lt_succ_self b
    have hentered : Numbered (s.enter (.called b .start)) := by
      refine h.enter ?_
      rintro c call heq
      obtain ⟨rfl, -⟩ := Event.called.inj heq
      exact hlt
    refine ⟨fun c hc => ?_, hentered.called⟩
    obtain rfl := Option.some.inj hc
    exact hlt
  | @call b call hb =>
    refine h.enter ?_
    rintro c other heq
    obtain ⟨rfl, -⟩ := Event.called.inj heq
    exact h.boot b hb
  | @request b q =>
    have hentered : Numbered (s.enter (.requested b q)) := h.enter nofun
    exact ⟨hentered.boot, hentered.called⟩
  | forget | keep | raise | lower | publish | queue => exact ⟨h.boot, h.called⟩
  | vacate => exact ⟨nofun, h.called⟩
  | answer | tell => exact h.enter nofun

theorem Numbered.steps (h : Numbered s) (hsteps : Relation.ReflTransGen (Step may) s t) :
    Numbered t := by
  induction hsteps with
  | refl => exact h
  | tail _ hstep ih => exact ih.step hstep

end Standing

/-! ## What a step has a license for -/

/-- Others raise the wish to be stopped, around the worker or while a frame is computed. -/
def Act.Raises {F : Type} : Act F → Prop
  | .outside o => o = .raiseStop
  | .frame meanwhile => .raiseStop ∈ meanwhile
  | _ => False

namespace Worker

variable {F M : Type}

def Loads (w : Worker F M) (a : Act F) : Prop :=
  w.status ≠ .exiting ∧ ∃ path caller, a = .take ⟨.loadState path, caller⟩

def Undoes (w : Worker F M) (a : Act F) : Prop :=
  w.status ≠ .exiting ∧ ∃ caller, a = .take ⟨.undoLoad, caller⟩

def Licenses (w : Worker F M) (a : Act F) : License → Prop
  | .keep => w.Loads a ∧ w.active = true
  | .forget => w.Undoes a
  | .raise => a.Raises
  | .lower => a = .poll
  | .vacate => a = .shutdown
  | .settle => ∀ o, a ≠ .outside o
  | .tell => a = .poll ∨ ∃ e, a = .take e

def standing (w : Worker F M) : Standing :=
  ⟨w.installedBoot, w.boots, w.backup, w.stopRequested, w.waiting, w.shown, w.journal⟩

/-- The standing of the second worker comes from that of the first. -/
def Shifts (may : License → Prop) (w v : Worker F M) : Prop :=
  w.standing.Numbered → Relation.ReflTransGen (Standing.Step may) w.standing v.standing

variable {may : License → Prop} {u v w : Worker F M}

theorem Shifts.trans (huv : Shifts may u v) (hvw : Shifts may v w) : Shifts may u w :=
  fun h => (huv h).trans (hvw (h.steps (huv h)))

theorem Shifts.of_eq (h : v.standing = w.standing) : Shifts may w v := by
  intro _
  rw [h]

theorem Shifts.single (h : Standing.Step may w.standing v.standing) : Shifts may w v :=
  fun _ => .single h

theorem Shifts.mono {might : License → Prop} (h : Shifts may w v) (hmay : ∀ l, may l → might l) :
    Shifts might w v :=
  fun hw => Relation.ReflTransGen.mono (fun _ _ hstep => hstep.mono hmay) _ _ (h hw)

theorem numbered_new (id : Nat) (factory : F) (world : World) (cartSave firmwareSave : Option Path)
    (audio : Pipeline) (mic : MicInput) :
    (new id factory world cartSave firmwareSave audio mic : Worker F M).standing.Numbered where
  boot := nofun
  called := nofun

end Worker

end Handheld
