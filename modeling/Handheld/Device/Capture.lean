import Handheld.Device.Host
import Handheld.Mic.Input

/-!
# Sound capture

A capture stream mixes its channels down to one, brings it to the microphone rate by picking the
nearest earlier sample, and feeds the microphone.
-/

namespace Handheld

def sum32 (samples : List Int16) : Int32 := samples.foldl (fun sum s => sum + s.toInt32) 0

def meanSample (samples : List Int16) : Int16 :=
  (sum32 samples / Int32.ofNat samples.length).toInt16

/-- Whole frames of so many samples; a rest is dropped. -/
def wholeFrames {α : Type} (size : Nat) : Nat → List α → List (List α)
  | 0, _ => []
  | n + 1, xs => xs.take size :: wholeFrames size n (xs.drop size)

/-- One sample for each whole frame. A device without channels counts as having one. -/
def downmix (f : SampleFormat) (channels : Nat) (data : List DeviceSample) : List Int16 :=
  let size := max channels 1
  (wholeFrames size (data.length / size) data).map fun frame =>
    meanSample (frame.map (DeviceSample.toInt16 f))

/-- The read position, relative to the next callback, and the distance between two reads. -/
structure CaptureResampler (α : Type) where
  step : α
  position : α

namespace CaptureResampler

variable {α : Type} [Scalar α]

/-- A resampler from a capture rate; a rate of zero counts as one. -/
def new (rate : Nat) : CaptureResampler α :=
  ⟨Scalar.ofNat (max rate 1) / Scalar.ofNat micRate, Scalar.ofNat 0⟩

/-- Read on while the position is inside the input; `none` where a read leaves it, or where the end of
it takes more than `fuel` reads. -/
@[specialize] def readOn? (input : Array Int16) (step : α) (fuel : Nat) (position : α)
    (done : Array Int16) : Option (Array Int16 × α) :=
  if Scalar.less position (Scalar.ofNat input.size) then
    match fuel with
    | 0 => none
    | fuel + 1 => do
      let sample ← input[Scalar.toWord position]?
      readOn? input step fuel (position + step) (done.push sample)
  else some (done, position)

/-- No callback of so many samples takes more reads: no step is shorter than one part in 44100. -/
def maxReads (samples : Nat) : Nat := micRate * (samples + 1)

/-- Resample a callback, and carry the position over to the next one. -/
@[specialize] def process? (r : CaptureResampler α) (input : Array Int16) :
    Option (Array Int16 × CaptureResampler α) := do
  let (out, position) ← readOn? input r.step (maxReads input.size) r.position #[]
  return (out, { r with position := position - Scalar.ofNat input.size })

end CaptureResampler

structure CaptureDevice where
  stream : AudioStream
  resampler : CaptureResampler Float

namespace CaptureDevice

/-- The input device with a name, or the default one. Devices whose name cannot be read are passed
over. -/
def select (host : AudioHost) (name : Option String) : Except DeviceError AudioDevice :=
  match name with
  | none =>
    match host.input with
    | none => .error (.noDevice false)
    | some d => .ok d
  | some n =>
    match host.inputs with
    | .error e => .error (.config e)
    | .ok devices =>
      match devices.find? fun d => d.name = some n with
      | none => .error (.notFound n)
      | some d => .ok d

def connect (host : AudioHost) (name : Option String) : Except DeviceError CaptureDevice := do
  let d ← select host name
  match d.default with
  | .error e => .error (.config e)
  | .ok shape =>
    AudioDevice.checkFormat shape.format
    let stream ← d.build { shape, library := host.library }
    d.play
    return ⟨stream, .new shape.rate⟩

/-- Feed what was captured to a microphone. A callback that cannot be resampled feeds nothing. -/
def callback (c : CaptureDevice) (m : MicInput) (data : List DeviceSample) :
    CaptureDevice × MicInput :=
  let shape := c.stream.shape
  let mono := downmix shape.format shape.channels data
  match c.resampler.process? mono.toArray with
  | none => (c, m)
  | some (samples, resampler) => ({ c with resampler }, (m.pushCapture samples.toList).2)

end CaptureDevice

end Handheld
