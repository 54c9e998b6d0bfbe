import Handheld.Device.Sample

/-!
# Audio hardware

Devices as they describe themselves: what they do by default, what else they can do, and whether
building and starting a stream works. What becomes of the callback of a stream is up to the library that
runs it.
-/

namespace Handheld

structure StreamShape where
  channels : Nat
  rate : Nat
  format : SampleFormat
  /-- The buffer sizes a device takes, where it says so. -/
  bufferRange : Option (Nat × Nat) := none
deriving DecidableEq

/-- A family of stream shapes with rates from `minRate` to `maxRate`. -/
structure ShapeRange where
  channels : Nat
  minRate : Nat
  maxRate : Nat
  format : SampleFormat
  bufferRange : Option (Nat × Nat) := none
deriving DecidableEq

/-- The member of a family with a given rate. -/
def ShapeRange.atRate (r : ShapeRange) (rate : Nat) : StreamShape :=
  ⟨r.channels, rate, r.format, r.bufferRange⟩

/-- A device. Queries fail with a text of its own. -/
structure AudioDevice where
  /-- None where reading the name fails. -/
  name : Option String
  default : Except String StreamShape
  configs : Except String (List ShapeRange)
  buildError : Option String := none
  playError : Option String := none

/-- What a library does with the callbacks it was given. A callback owns what it works with, and gives
it up when it is dropped. -/
structure AudioLibrary where
  /-- A callback for which no stream can be built is dropped. -/
  dropsUnbuilt : Bool := true
  /-- A callback is dropped with its stream. -/
  dropsWithStream : Bool := true
deriving DecidableEq

structure AudioHost where
  output : Option AudioDevice := none
  input : Option AudioDevice := none
  inputs : Except String (List AudioDevice) := .ok []
  /-- The library that runs their streams. -/
  library : AudioLibrary := {}

inductive DeviceError where
  /-- There is no default device; the argument says whether an output was wanted. -/
  | noDevice (output : Bool)
  | notFound (name : String)
  | config (reason : String)
  | unsupportedFormat (name : String)
  | build (reason : String)
  | play (reason : String)
deriving DecidableEq

def DeviceError.message : DeviceError → String
  | .noDevice true => "no audio output device available"
  | .noDevice false => "no audio input device available"
  | .notFound name => "audio device '" ++ name ++ "' not found"
  | .config reason => "failed to query audio device configuration: " ++ reason
  | .unsupportedFormat name => "unsupported sample format: " ++ name
  | .build reason => "failed to build audio stream: " ++ reason
  | .play reason => "failed to start audio stream: " ++ reason

def DeviceError.kind : DeviceError → String
  | .noDevice _ => "NoDevice"
  | .notFound _ => "NotFound"
  | .config _ => "Config"
  | .unsupportedFormat _ => "UnsupportedFormat"
  | .build _ => "Build"
  | .play _ => "Play"

/-- A stream that was built: its shape, its buffer size where one was asked for, and what runs it. -/
structure AudioStream where
  shape : StreamShape
  bufferSize : Option Nat := none
  library : AudioLibrary := {}
deriving DecidableEq

namespace AudioDevice

/-- A stream can be built for samples of this format. -/
def checkFormat (f : SampleFormat) : Except DeviceError Unit :=
  if f.isSupported then .ok () else .error (.unsupportedFormat f.name)

def build (d : AudioDevice) (s : AudioStream) : Except DeviceError AudioStream :=
  match d.buildError with
  | some e => .error (.build e)
  | none => .ok s

/-- Start the stream that was built on a device. -/
def play (d : AudioDevice) : Except DeviceError Unit :=
  match d.playError with
  | some e => .error (.play e)
  | none => .ok ()

end AudioDevice

end Handheld
