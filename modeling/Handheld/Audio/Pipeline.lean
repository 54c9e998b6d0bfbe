import Handheld.Audio.Mute
import Handheld.Config.Basic
import Handheld.Machine.Basic
import Handheld.Ring

/-!
# The way of sound

The worker queues machine output, and waits while more is queued than a device takes at once and there
is somebody to take it.
-/

namespace Handheld

/-- Room beyond the device buffer, so that one frame of output always fits. -/
def queueHeadroom : Nat := 4096

/-- The queue between worker and device. -/
structure SampleQueue where
  /-- Device buffer size: the producer waits while more is queued. -/
  threshold : Nat
  ring : Ring StereoFrame

namespace SampleQueue

def empty (threshold : Nat) : SampleQueue := ⟨threshold, .empty (threshold + queueHeadroom)⟩

instance : Inhabited SampleQueue := ⟨empty 0⟩

def push (q : SampleQueue) (frames : List StereoFrame) : Nat × SampleQueue :=
  let (n, ring) := q.ring.push frames
  (n, { q with ring })

def read (q : SampleQueue) (n : Nat) : List StereoFrame × SampleQueue :=
  let (frames, ring) := q.ring.pop n
  (frames, { q with ring })

def clear (q : SampleQueue) : SampleQueue := { q with ring := q.ring.clear }

/-- No more is queued than the device buffer holds, so that the producer need not wait. -/
def hasSpace (q : SampleQueue) : Bool := q.ring.length ≤ q.threshold

end SampleQueue

/-- What a volume hotkey changes. -/
def volumeStep : UInt16 := 16

structure Pipeline where
  instanceId : Nat
  queue : SampleQueue
  enabled : Bool := false
  muted : Bool := false
  volume : UInt16
  /-- Renderers that drain the queue. -/
  renderers : Nat := 0
  coreRate : Float
  targetFps : Float

namespace Pipeline

def refreshMute (p : Pipeline) (mute : MuteState) : Pipeline :=
  { p with muted := mute.isMuted p.instanceId }

def new (instanceId : Nat) (audio : AudioConfig) (emu : EmuConfig) (mute : MuteState) : Pipeline :=
  refreshMute
    { instanceId
      queue := .empty audio.bufferSize.toNat
      volume := min audio.volume maxVolume
      coreRate := emu.coreSampleRate
      targetFps := emu.targetFps }
    mute

def enable (p : Pipeline) : Pipeline := { p with enabled := true }

def disable (p : Pipeline) : Pipeline := { p with enabled := false }

def setVolume (p : Pipeline) (volume : UInt16) : Pipeline :=
  { p with volume := min volume maxVolume }

def nextVolume (p : Pipeline) (up : Bool) : UInt16 :=
  if up then min (p.volume + volumeStep) maxVolume
  else if p.volume < volumeStep then 0 else p.volume - volumeStep

def stepVolume (p : Pipeline) (up : Bool) : UInt16 × Pipeline :=
  (p.nextVolume up, p.setVolume (p.nextVolume up))

def hasRenderer (p : Pipeline) : Bool := 0 < p.renderers

/-- Queue machine output, and say how much of it fit. -/
def push (p : Pipeline) (frames : List StereoFrame) : Nat × Pipeline :=
  let (n, queue) := p.queue.push frames
  (n, { p with queue })

/-- Whether the producer may go on at once; it never waits while disabled or unheard. -/
def sync (p : Pipeline) : Bool := !p.enabled || !p.hasRenderer || p.queue.hasSpace

end Pipeline

end Handheld
