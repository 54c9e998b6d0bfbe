import Handheld.Mic.Input
import Mathlib.Data.List.Forall2

/-!
# What is captured reaches the machine

Between a capture device and the frames of a machine, samples wait in a ring. Of each delivery the ring
accepts what it has room for, and each frame begins with the oldest samples of the ring and is filled up
by copies of the last one. The beginnings of all frames in order, and what still waits, are just what was
accepted, in order (`capture_is_conserved`).
-/

namespace Handheld

/-- What is done to a microphone. -/
inductive MicOp where
  /-- The capture device delivers samples. -/
  | deliver (samples : List Int16)
  /-- The worker wants a frame, with the hotkey held or not. -/
  | fill (held : Bool)

/-- What came of it. -/
inductive MicEvent where
  /-- So many of the samples were accepted while so many others waited. -/
  | delivered (samples : List Int16) (accepted waiting : Nat)
  /-- A frame, or none, and how many samples still waited after it. -/
  | filled (frame : Option (List Int16)) (left : Nat)

def acceptedParts (events : List MicEvent) : List (List Int16) :=
  events.filterMap fun e =>
    match e with
    | .delivered samples accepted _ => some (samples.take accepted)
    | .filled _ _ => none

/-- The frames, each with what was left after it. -/
def filledFrames (events : List MicEvent) : List (Option (List Int16) × Nat) :=
  events.filterMap fun e =>
    match e with
    | .delivered _ _ _ => none
    | .filled frame left => some (frame, left)

/-- A frame begins with captured samples and goes on with copies of the last of them, or with zeros if
there are none; it is short of samples only if none are left. -/
def BeginsWith (captured : List Int16) (filled : Option (List Int16) × Nat) : Prop :=
  captured.length ≤ micFrameLength ∧
    filled.1 = some (captured ++
      List.replicate (micFrameLength - captured.length) (captured.getLast?.getD 0)) ∧
    (captured.length < micFrameLength → filled.2 = 0)

namespace MicInput

variable {m : MicInput}

def step (m : MicInput) : MicOp → MicEvent × MicInput
  | .deliver samples =>
    let (accepted, m') := m.pushCapture samples
    (.delivered samples accepted m.buffered, m')
  | .fill held =>
    let (frame, m') := m.nextFrame held
    (.filled frame m'.buffered, m')

def history (m : MicInput) : List MicOp → List MicEvent × MicInput
  | [] => ([], m)
  | op :: ops =>
    let (e, m) := m.step op
    let (events, m) := m.history ops
    (e :: events, m)

theorem history_cons (m : MicInput) (op : MicOp) (ops : List MicOp) :
    m.history (op :: ops) =
      ((m.step op).1 :: ((m.step op).2.history ops).1, ((m.step op).2.history ops).2) := rfl

theorem step_deliver (h : m.mode = .external) (samples : List Int16) :
    m.step (.deliver samples) =
      (.delivered samples (min m.ring.room samples.length) m.ring.length,
        { m with ring := (m.ring.push samples).2 }) := by
  simp [step, pushCapture, h, Ring.push, buffered]

theorem step_fill (h : m.mode = .external) (held : Bool) :
    m.step (.fill held) =
      (.filled (some (padFrame (m.ring.pop micFrameLength).1)) (m.ring.length - micFrameLength),
        { m with ring := (m.ring.pop micFrameLength).2 }) := by
  simp [step, nextFrame, h, buffered, Ring.length]

theorem beginsWith_pop (r : Ring Int16) :
    BeginsWith (r.pop micFrameLength).1
      (some (padFrame (r.pop micFrameLength).1), r.length - micFrameLength) := by
  have hcount : (r.pop micFrameLength).1.length = min micFrameLength r.length := List.length_take
  refine ⟨by omega, rfl, fun hshort => ?_⟩
  show r.length - micFrameLength = 0
  omega

theorem history_conserves (h : m.mode = .external) (ops : List MicOp) :
    (∀ samples accepted waiting, .delivered samples accepted waiting ∈ (m.history ops).1 →
      accepted = min samples.length (m.ring.capacity - waiting)) ∧
    ∃ parts, List.Forall₂ BeginsWith parts (filledFrames (m.history ops).1) ∧
      parts.flatten ++ (m.history ops).2.ring.items =
        m.ring.items ++ (acceptedParts (m.history ops).1).flatten := by
  induction ops generalizing m with
  | nil => exact ⟨fun _ _ _ hmem => absurd hmem List.not_mem_nil, [], .nil, (List.append_nil _).symm⟩
  | cons op ops ih =>
    rw [history_cons]
    cases op with
    | deliver samples =>
      rw [step_deliver h]
      let later : MicInput := { m with ring := (m.ring.push samples).2 }
      obtain ⟨hcounts, parts, hparts, hsame⟩ := ih (m := later) h
      refine ⟨fun other accepted waiting hmem => ?_, parts, hparts, ?_⟩
      · rcases List.mem_cons.mp hmem with heq | hmem
        · injection heq with hother haccepted hwaiting
          rw [haccepted, hother, hwaiting, Nat.min_comm]
          rfl
        · exact hcounts other accepted waiting hmem
      · have htake : samples.take m.ring.room = samples.take (min m.ring.room samples.length) :=
          List.take_eq_take_min
        show parts.flatten ++ _ = m.ring.items ++ (samples.take _ :: acceptedParts _).flatten
        rw [hsame, Ring.items_push, htake, List.flatten_cons, List.append_assoc]
    | fill held =>
      rw [step_fill h]
      let later : MicInput := { m with ring := (m.ring.pop micFrameLength).2 }
      obtain ⟨hcounts, parts, hparts, hsame⟩ := ih (m := later) h
      refine ⟨fun other accepted waiting hmem => ?_, (m.ring.pop micFrameLength).1 :: parts,
        .cons (beginsWith_pop m.ring) hparts, ?_⟩
      · rcases List.mem_cons.mp hmem with heq | hmem
        · cases heq
        · exact hcounts other accepted waiting hmem
      · show (_ :: parts).flatten ++ _ = m.ring.items ++ (acceptedParts (later.history ops).1).flatten
        rw [List.flatten_cons, List.append_assoc]
        show (m.ring.pop micFrameLength).1 ++ (parts.flatten ++ (later.history ops).2.ring.items) = _
        rw [hsame, ← List.append_assoc, Ring.pop_append_items]

/-- **Nothing that is accepted is lost, repeated or put elsewhere.** Whatever is delivered to a microphone
that listens to a capture device, and whenever frames are wanted of it: each delivery is accepted as far
as there is room, each frame begins with captured samples and is filled up by the last of them, it is
short of samples only if none are left, and the beginnings of all frames, followed by what still waits,
are what was accepted. -/
theorem capture_is_conserved (m : MicInput) (t : FileTree) (wav : Option Path) (ops : List MicOp) :
    let done := (m.reconfigure t .external wav).history ops
    (∀ samples accepted waiting, .delivered samples accepted waiting ∈ done.1 →
      accepted = min samples.length (m.ring.capacity - waiting)) ∧
    ∃ parts, List.Forall₂ BeginsWith parts (filledFrames done.1) ∧
      parts.flatten ++ done.2.ring.items = (acceptedParts done.1).flatten :=
  history_conserves rfl ops

end MicInput

end Handheld
