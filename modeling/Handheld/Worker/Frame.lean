import Handheld.Worker.Basic

/-!
# Frames

A frame begins with the microphone and the input as they are then, and ends with the machine's output
in the audio queue. The two halves are apart so that things can happen while the machine computes.
-/

namespace Handheld

/-- Frames of output moved from the machine to the audio queue at a time. -/
def outputChunk : Nat := 1024

namespace Worker

variable {F M : Type} [Machine M]

/-- Let the machine hear the microphone, and look at the input. -/
def beginFrame (w : Worker F M) (i : Installed M) : FrameInput × Worker F M :=
  let (signal, mic) := w.mic.nextFrame (w.edges.down .mic)
  let w := { w with mic }
  (w.input.frameInput, (w.use i (fun _ => .hearMic signal) (Machine.hearMic · signal)).2)

/-- Move output to the audio queue, in at most so many reads, until the machine has none left or does
not deliver it. -/
def moveOutput : Nat → Worker F M → Worker F M
  | 0, w => w
  | reads + 1, w =>
    match w.machine with
    | none => w
    | some i =>
      if Machine.outputLength i.machine = 0 then w
      else
        let (out, w) := w.use i (fun out => .readOutput outputChunk out.length)
          (Machine.readOutput · outputChunk)
        if out.isEmpty then w else moveOutput reads { w with audio := (w.audio.push out).2 }

/-- Move all output. Every read but an empty one takes something, and an empty one is the last, so
that there is at most one read more than frames to be read. This rests on a machine that hands out in
order what it reports (`HandsOut`): one that has more to report after a read keeps the rest until the
next frame, where a loop without a bound would read on. -/
def moveAllOutput (w : Worker F M) : Worker F M :=
  match w.machine with
  | none => w
  | some i => w.moveOutput (Machine.outputLength i.machine + 1)

/-- Let the machine compute a frame from its input, and move the output. -/
def endFrame (w : Worker F M) (input : FrameInput) : Worker F M :=
  match w.machine with
  | none => w
  | some i =>
    let w := (w.use i (fun _ => .runFrame input) (Machine.runFrame · input)).2.moveAllOutput
    { w with frames := w.frames + 1 }

/-- Run a frame. Without a machine there is none to run. -/
def runFrame (w : Worker F M) : Worker F M :=
  match w.machine with
  | none => w
  | some i =>
    let (input, w) := w.beginFrame i
    w.endFrame input

omit [Machine M] in
/-- After a frame: a step is over and its caller gets a reply; when no more callers wait, the worker
is paused again. -/
def settleFrame (w : Worker F M) : Worker F M :=
  if w.status = .frameStep then
    match w.waiting with
    | [] => { w with status := .paused }.publish
    | [c] => ({ w with status := .paused, waiting := [] }.publish).answer c (.ok ())
    | c :: rest => ({ w with waiting := rest }.publish).answer c (.ok ())
  else w.publish

end Worker

end Handheld
