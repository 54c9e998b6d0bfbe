import Handheld.Audio.Mute
import Handheld.Files.Path
import Handheld.Mic.Mode

/-!
# Configuration

The settings of a frontend, their defaults, and `sanitize`, which replaces numbers nobody can use.
-/

namespace Handheld

/-- The volume that plays samples as they are; no volume is larger. -/
def maxVolume : UInt16 := 256

structure AudioConfig where
  volume : UInt16 := maxVolume
  /-- Device buffer size in stereo frames. -/
  bufferSize : UInt32 := 1024
  /-- Wanted device sample rate. -/
  frequency : UInt32 := 48000
  multiInstance : MuteMode := .all
  /-- Longest wait for the device to drain, in milliseconds. -/
  syncTimeout : UInt64 := 500

structure MicConfig where
  input : MicMode := .silence
  /-- Name of the capture device; none for the default one. -/
  device : Option (List Char) := none
  wavPath : Option Path := none

structure EmuConfig where
  /-- Time budget of a frame in microseconds. -/
  framePeriod : UInt64 := 16667
  /-- Sleep between passes while paused, in milliseconds. -/
  idlePeriod : UInt64 := 75
  pauseOnFocusLoss : Bool := false
  /-- Rate at which the machine produces audio. -/
  coreSampleRate : Float := 32823.6328125
  targetFps : Float := 60

/-- Save persistence, in milliseconds. -/
structure SaveConfig where
  /-- Quiet time before a save is written. -/
  debounce : UInt64 := 2000
  /-- Interval between looks at the clock. -/
  poll : UInt64 := 100

structure Config where
  audio : AudioConfig := {}
  mic : MicConfig := {}
  emu : EmuConfig := {}
  save : SaveConfig := {}

namespace Config

/-- Replace values out of range by usable ones. A rate that is not a number is kept. -/
def sanitize (c : Config) : Config :=
  let audio := { c.audio with
    volume := min c.audio.volume maxVolume
    bufferSize := if c.audio.bufferSize = 0 then 1024 else c.audio.bufferSize
    frequency := if c.audio.frequency = 0 then 48000 else c.audio.frequency }
  let emu := { c.emu with
    targetFps := if c.emu.targetFps ≤ 0 then 60 else c.emu.targetFps
    coreSampleRate := if c.emu.coreSampleRate ≤ 0 then 32823.6328125 else c.emu.coreSampleRate }
  { c with audio, emu }

/-- Two configurations are equal as values: rates are compared as numbers, so one that is not a
number is never the same. -/
def same (a b : Config) : Bool :=
  a.audio.volume == b.audio.volume && a.audio.bufferSize == b.audio.bufferSize &&
  a.audio.frequency == b.audio.frequency && a.audio.multiInstance == b.audio.multiInstance &&
  a.audio.syncTimeout == b.audio.syncTimeout && a.mic.input == b.mic.input &&
  a.mic.device == b.mic.device && a.mic.wavPath == b.mic.wavPath &&
  a.emu.framePeriod == b.emu.framePeriod && a.emu.idlePeriod == b.emu.idlePeriod &&
  a.emu.pauseOnFocusLoss == b.emu.pauseOnFocusLoss &&
  a.emu.coreSampleRate == b.emu.coreSampleRate && a.emu.targetFps == b.emu.targetFps &&
  a.save.debounce == b.save.debounce && a.save.poll == b.save.poll

end Config

end Handheld
