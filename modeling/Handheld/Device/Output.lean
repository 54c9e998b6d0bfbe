import Handheld.Audio.Render
import Handheld.Device.Host

/-!
# Sound output

An output stream renders a pipeline and spreads its stereo frames over the channels of the device. The
renderer is attached before it is known whether there will be a stream.
-/

namespace Handheld

/-- The shape to open a device with: the wanted rate in the default format and with the default
channels where the device offers it, else the default. -/
def AudioDevice.outputShape (d : AudioDevice) (rate : Nat) : Except DeviceError StreamShape :=
  match d.default with
  | .error e => .error (.config e)
  | .ok default =>
    let offered := d.configs.toOption.getD []
    let fitting := offered.find? fun r =>
      r.format = default.format && r.channels = default.channels &&
        r.minRate ≤ rate && rate ≤ r.maxRate
    .ok ((fitting.map fun r => r.atRate rate).getD default)

/-- The buffer size to ask for: the wanted one, where the device says it takes it. -/
def StreamShape.fixedBuffer (s : StreamShape) (wanted : Nat) : Option Nat :=
  match s.bufferRange with
  | some (low, high) => if low ≤ wanted && wanted ≤ high then some wanted else none
  | none => none

def midpoint (a b : Int16) : Int16 := ((a.toInt32 + b.toInt32) / 2).toInt16

/-- Write a stereo frame over the samples of a device frame: mono hears the middle, channels past the
second hear nothing. -/
def spread (f : SampleFormat) (frame : StereoFrame) : List DeviceSample → List DeviceSample
  | [] => []
  | [_] => [.ofInt16 f (midpoint frame.left frame.right)]
  | _ :: _ :: rest =>
    .ofInt16 f frame.left :: .ofInt16 f frame.right :: rest.map fun _ => .equilibrium f

/-- Write frames over the whole device frames of a buffer, one after the other, as long as there are
both. -/
def overwrite (f : SampleFormat) (channels : Nat) :
    List StereoFrame → List DeviceSample → List DeviceSample
  | [], buffer => buffer
  | frame :: frames, buffer =>
    let front := buffer.take channels
    if front.length < channels then buffer
    else spread f frame front ++ overwrite f channels frames (buffer.drop channels)

def silenceFrom (f : SampleFormat) (position : Nat) (buffer : List DeviceSample) :
    List DeviceSample :=
  buffer.take position ++ (buffer.drop position).map fun _ => .equilibrium f

/-- Overwrite a device buffer with frames; what is behind them is silent. Without channels the buffer
is left alone. -/
def interleave (f : SampleFormat) (channels : Nat) (frames : List StereoFrame)
    (buffer : List DeviceSample) : List DeviceSample :=
  if channels = 0 then buffer
  else silenceFrom f (frames.length * channels) (overwrite f channels frames buffer)

/-- A callback with a renderer is done with. The renderer goes with it, if it is dropped. -/
def Pipeline.release (p : Pipeline) (dropped : Bool) : Pipeline :=
  { p with renderers := if dropped then p.renderers - 1 else p.renderers }

/-- A stream, and the renderer that its callback owns. -/
structure OutputDevice where
  stream : AudioStream
  renderer : Renderer

namespace OutputDevice

/-- Drop a device, and with it its stream. -/
def close (o : OutputDevice) (p : Pipeline) : Pipeline := p.release o.stream.library.dropsWithStream

/-- Open the default output device for a pipeline. The renderer is attached once the shape of the stream
is known; a format for which there is no callback drops it, else it moves into the callback, and goes
where that goes. -/
def connect (host : AudioHost) (p : Pipeline) (audio : AudioConfig) :
    Pipeline × Except DeviceError OutputDevice :=
  match host.output with
  | none => (p, .error (.noDevice true))
  | some d =>
    match d.outputShape audio.frequency.toNat with
    | .error e => (p, .error e)
    | .ok shape =>
      let (renderer, attached) := p.attach shape.rate
      match AudioDevice.checkFormat shape.format with
      | .error e => (attached.detach, .error e)
      | .ok () =>
        let wanted : AudioStream :=
          { shape, bufferSize := shape.fixedBuffer audio.bufferSize.toNat, library := host.library }
        match d.build wanted with
        | .error e => (attached.release host.library.dropsUnbuilt, .error e)
        | .ok stream =>
          let o : OutputDevice := ⟨stream, renderer⟩
          match d.play with
          | .error e => (o.close attached, .error e)
          | .ok () => (attached, .ok o)

def callback (o : OutputDevice) (p : Pipeline) (buffer : List DeviceSample) :
    List DeviceSample × OutputDevice × Pipeline :=
  let shape := o.stream.shape
  let (frames, renderer, p) := p.render o.renderer (buffer.length / max shape.channels 1)
  (interleave shape.format shape.channels frames buffer, { o with renderer }, p)

end OutputDevice

end Handheld
