import Handheld.Mic.Mode
import Handheld.Ring
import Handheld.Signal
import Handheld.Wav.Samples

/-!
# Microphone input

Once per frame the worker asks for the samples of that frame. They come from a capture device through
a ring, from a looped recording, from a noise source, or not at all.
-/

namespace Handheld

/-- Samples that wait between the capture device and the worker. -/
def micRingCapacity : Nat := 4096

structure MicInput where
  mode : MicMode := .silence
  ring : Ring Int16 := .empty micRingCapacity
  wav : Array Int16 := #[]
  /-- Where the recording goes on. -/
  position : Nat := 0
  noise : Lcg := ⟨1⟩

namespace MicInput

/-- Switch to another source: what was captured is dropped, and the recording, if there is to be
one, is loaded and starts over. One that cannot be loaded is empty. -/
def reconfigure (m : MicInput) (t : FileTree) (mode : MicMode) (wav : Option Path) : MicInput :=
  let samples :=
    match mode, wav with
    | .wav, some p => (Wav.load t p).toOption.getD #[]
    | _, _ => #[]
  { m with mode, ring := m.ring.clear, wav := samples, position := 0 }

def new (t : FileTree) (mode : MicMode) (wav : Option Path) : MicInput :=
  reconfigure {} t mode wav

/-- Samples from the capture device; ignored unless it is the source. -/
def pushCapture (m : MicInput) (samples : List Int16) : Nat × MicInput :=
  if m.mode = .external then
    let (n, ring) := m.ring.push samples
    (n, { m with ring })
  else (0, m)

def buffered (m : MicInput) : Nat := m.ring.length

/-- Extend a short frame by its last sample, an empty one by zeros. -/
def padFrame (samples : List Int16) : List Int16 :=
  samples ++ List.replicate (micFrameLength - samples.length) (samples.getLast?.getD 0)

/-- One frame of a recording from a position on, in a loop. -/
def loopFrame (wav : Array Int16) (position : Nat) : List Int16 :=
  (List.range micFrameLength).map fun i => wav.getD ((position + i) % wav.size) 0

/-- The samples of the next frame; none where there is no signal. A capture device is always live,
the other sources while the hotkey is held. -/
def nextFrame (m : MicInput) (held : Bool) : Option (List Int16) × MicInput :=
  match m.mode, held with
  | .external, _ =>
    let (samples, ring) := m.ring.pop micFrameLength
    (some (padFrame samples), { m with ring })
  | .wav, true =>
    if m.wav.isEmpty then (none, { m with position := 0 })
    else
      (some (loopFrame m.wav m.position),
        { m with position := (m.position + micFrameLength) % m.wav.size })
  | .noise, true =>
    let (samples, noise) := Lcg.run Lcg.sample micFrameLength m.noise #[]
    (some samples.toList, { m with noise })
  | _, _ => (none, { m with position := 0 })

end MicInput

end Handheld
