import Handheld.Config.Basic
import Handheld.Toml.Document
import Handheld.Toml.Writer

/-!
# Configuration as TOML

Every setting is optional and has its key in one of four sections. A section may also be given as an
array of its settings in order, and whatever follows them there is not looked at. A key nobody knows
may stand for anything but a void numeral.
-/

namespace Handheld

namespace MuteMode

/-- The name of a mode in a configuration file. -/
def key : MuteMode → List Char
  | .all => "all".toList
  | .firstOnly => "first_only".toList
  | .activeOnly => "active_only".toList

def ofKey? (s : List Char) : Option MuteMode :=
  [all, firstOnly, activeOnly].find? fun m => m.key = s

end MuteMode

namespace MicMode

/-- The name of a source in a configuration file. -/
def key : MicMode → List Char
  | .silence => "silence".toList
  | .external => "external".toList
  | .wav => "wav".toList
  | .noise => "noise".toList

def ofKey? (s : List Char) : Option MicMode :=
  [silence, external, wav, noise].find? fun m => m.key = s

end MicMode

namespace Config

open Toml (Value Entries Key Leaf Section)

/-! ## Reading -/

/-- A natural number below `bound`. -/
def natural? (bound : Nat) : Value → Option Nat
  | .integer n => if 0 ≤ n && n < bound then some n.toNat else none
  | _ => none

def word16? (v : Value) : Option UInt16 := (natural? UInt16.size v).map Nat.toUInt16

def word32? (v : Value) : Option UInt32 := (natural? UInt32.size v).map Nat.toUInt32

def word64? (v : Value) : Option UInt64 := (natural? UInt64.size v).map Nat.toUInt64

def floatOfInt (n : Int) : Float :=
  let f := Float.ofBits (Binary64.ofDecimal n.natAbs 0)
  if n < 0 then -f else f

/-- A rate; an integer of at most 64 bits will do. -/
def rate? : Value → Option Float
  | .float bits => some (Float.ofBits bits)
  | .integer n => if -(Int.pow 2 63) ≤ n && n < Int.pow 2 64 then some (floatOfInt n) else none
  | _ => none

def flag? : Value → Option Bool
  | .boolean b => some b
  | _ => none

def text? : Value → Option (List Char)
  | .text s => some s
  | _ => none

/-- One of a few names: as text, or as the only key of a table, with nothing under it. -/
def choice? {α : Type} (ofKey? : List Char → Option α) : Value → Option α
  | .text s => ofKey? s
  | .table _ [(k, .table _ [])] => ofKey? k
  | .table _ [(k, .array _ [])] => ofKey? k
  | _ => none

/-- Whatever a table holds under other keys than these is sound. -/
def othersSound (keys : List String) (es : Entries) : Bool :=
  es.all fun e => keys.any (fun k => k.toList = e.1) || e.2.isSound

/-- What a section says about its settings, in the order of their keys; none outside for a value that
is no section. A moment is a section that says nothing. -/
def settings (keys : List String) : Value → Option (List (Option Value))
  | .table _ es =>
    if othersSound keys es then some (keys.map fun k => Entries.get? es k.toList) else none
  | .array _ items => some ((List.range keys.length).map fun i => items[i]?)
  | .moment => some (keys.map fun _ => none)
  | _ => none

/-- A setting read by `read`, or the default where the section does not say. -/
def get {α : Type} (read : Value → Option α) (default : α) : Option Value → Option α
  | some v => read v
  | none => some default

def audioKeys : List String :=
  ["volume", "buffer_size", "frequency", "multi_instance", "sync_timeout_ms"]

def readAudio (v : Value) : Option AudioConfig := do
  let default : AudioConfig := {}
  let [volume, bufferSize, frequency, multiInstance, syncTimeout] ← settings audioKeys v | none
  return {
    volume := ← get word16? default.volume volume
    bufferSize := ← get word32? default.bufferSize bufferSize
    frequency := ← get word32? default.frequency frequency
    multiInstance := ← get (choice? MuteMode.ofKey?) default.multiInstance multiInstance
    syncTimeout := ← get word64? default.syncTimeout syncTimeout }

def micKeys : List String := ["input", "device", "wav_path"]

def readMic (v : Value) : Option MicConfig := do
  let default : MicConfig := {}
  let [input, device, wavPath] ← settings micKeys v | none
  return {
    input := ← get (choice? MicMode.ofKey?) default.input input
    device := ← get (fun x => (text? x).map some) default.device device
    wavPath := ← get (fun x => (text? x).map fun s => some ⟨s⟩) default.wavPath wavPath }

def emuKeys : List String :=
  ["frame_period_us", "idle_period_ms", "pause_on_focus_loss", "core_sample_rate", "target_fps"]

def readEmu (v : Value) : Option EmuConfig := do
  let default : EmuConfig := {}
  let [framePeriod, idlePeriod, pauseOnFocusLoss, coreSampleRate, targetFps] ← settings emuKeys v
    | none
  return {
    framePeriod := ← get word64? default.framePeriod framePeriod
    idlePeriod := ← get word64? default.idlePeriod idlePeriod
    pauseOnFocusLoss := ← get flag? default.pauseOnFocusLoss pauseOnFocusLoss
    coreSampleRate := ← get rate? default.coreSampleRate coreSampleRate
    targetFps := ← get rate? default.targetFps targetFps }

def saveKeys : List String := ["debounce_ms", "poll_ms"]

def readSave (v : Value) : Option SaveConfig := do
  let default : SaveConfig := {}
  let [debounce, poll] ← settings saveKeys v | none
  return {
    debounce := ← get word64? default.debounce debounce
    poll := ← get word64? default.poll poll }

def sectionKeys : List String := ["audio", "mic", "emu", "save"]

def ofEntries? (es : Entries) : Option Config := do
  let [audio, mic, emu, save] ← settings sectionKeys (.table .header es) | none
  return {
    audio := ← get readAudio {} audio
    mic := ← get readMic {} mic
    emu := ← get readEmu {} emu
    save := ← get readSave {} save }

/-- The configuration a text describes, as it stands there. -/
def ofText? (s : List Char) : Option Config := do ofEntries? (← Toml.parse s)

/-! ## Writing -/

def word (k : String) (n : Nat) : Key × Leaf := (k.toList, .integer n)

/-- The bits of a rate; every one that is not a number is written alike. -/
def rateBits (x : Float) : UInt64 := if x.isNaN then Toml.Scalar.nanBits else x.toBits

/-- The sections of a configuration file; settings without a value have no line. -/
def sections (c : Config) : List Section :=
  [ ⟨"audio".toList,
      [ word "volume" c.audio.volume.toNat, word "buffer_size" c.audio.bufferSize.toNat,
        word "frequency" c.audio.frequency.toNat,
        ("multi_instance".toList, .text c.audio.multiInstance.key),
        word "sync_timeout_ms" c.audio.syncTimeout.toNat ]⟩,
    ⟨"mic".toList,
      [("input".toList, .text c.mic.input.key)] ++
      (c.mic.device.map fun s => ("device".toList, Leaf.text s)).toList ++
      (c.mic.wavPath.map fun p => ("wav_path".toList, Leaf.text p.text)).toList⟩,
    ⟨"emu".toList,
      [ word "frame_period_us" c.emu.framePeriod.toNat,
        word "idle_period_ms" c.emu.idlePeriod.toNat,
        ("pause_on_focus_loss".toList, .boolean c.emu.pauseOnFocusLoss),
        ("core_sample_rate".toList, .float (rateBits c.emu.coreSampleRate)),
        ("target_fps".toList, .float (rateBits c.emu.targetFps)) ]⟩,
    ⟨"save".toList,
      [word "debounce_ms" c.save.debounce.toNat, word "poll_ms" c.save.poll.toNat]⟩ ]

def toText (c : Config) : List Char := Toml.writeSections c.sections

end Config

end Handheld
