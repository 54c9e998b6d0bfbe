import Handheld.Machine.Rom

/-!
# Emulated machines

A machine is opaque: the worker advances it one frame at a time, takes its sound and forwards
commands. Whatever it wants of its host (a save written, itself stopped) it asks for in the outcome
of a call.
-/

namespace Handheld

structure StereoFrame where
  left : Int16
  right : Int16
deriving DecidableEq, Inhabited

namespace StereoFrame

def silence : StereoFrame := ⟨0, 0⟩

end StereoFrame

/-- Microphone samples for one frame: 44100 a second, sixty frames a second. -/
def micFrameLength : Nat := 735

/-- All twelve buttons released; a pressed button clears its bit. -/
def keysReleased : UInt16 := 0x0FFF

/-- What the player does during one frame. -/
structure FrameInput where
  keys : UInt16 := keysReleased
  /-- Where the touch screen is touched, if it is. -/
  touch : Option (UInt16 × UInt16) := none
deriving DecidableEq

/-- Why a machine, or the way to one, fails. -/
inductive MachineError where
  | file (e : FileError)
  | noMachine
  | noPath
  | invalidState (reason : String)
  /-- The machine cannot boot, for a reason it words itself. -/
  | boot (reason : String)
deriving DecidableEq

def MachineError.message : MachineError → String
  | .file e => e.message
  | .noMachine => "no machine is running"
  | .noPath => "no file path provided"
  | .invalidState reason => "invalid savestate: " ++ reason
  | .boot reason => reason

def MachineError.kind : MachineError → String
  | .file _ => "Io"
  | .noMachine => "NoMachine"
  | .noPath => "NoPath"
  | .invalidState _ => "InvalidState"
  | .boot _ => "Boot"

/-- What a machine asks of its host. The range is the part of the image it just changed. -/
inductive Request where
  | saveCart (image : Bytes) (offset length : Nat)
  | saveFirmware (image : Bytes) (offset length : Nat)
  | stop
deriving DecidableEq

/-- A machine after a call, what it asked for, and what it answered. -/
structure Outcome (M : Type) (α : Type) where
  machine : M
  requests : List Request := []
  answer : α

/-- The same outcome for a machine seen in another way. -/
def Outcome.mapMachine {M N α : Type} (f : M → N) (r : Outcome M α) : Outcome N α :=
  ⟨f r.machine, r.requests, r.answer⟩

class Machine (M : Type) where
  start : M → Outcome M Unit
  stop : M → Outcome M Unit
  reset : M → Outcome M Unit
  runFrame : M → FrameInput → Outcome M Unit
  /-- Stereo frames ready to be read. -/
  outputLength : M → Nat
  /-- Take at most so many frames of output. -/
  readOutput : M → Nat → Outcome M (List StereoFrame)
  /-- The microphone during the next frame; none for no signal. -/
  hearMic : M → Option (List Int16) → Outcome M Unit
  saveState : M → Outcome M (Except MachineError Bytes)
  loadState : M → Bytes → Outcome M (Except MachineError Unit)
  insertCart : M → Rom → Outcome M (Except MachineError Unit)
  ejectCart : M → Outcome M Unit
  /-- Replace the cartridge save by an external one. -/
  importSave : M → Bytes → Outcome M (Except MachineError Unit)
  setCheats : M → Bool → Outcome M Unit

/-- A factory after it was asked to boot, what it asked for, and the machine it made. -/
structure Boot (F M : Type) where
  factory : F
  requests : List Request := []
  machine : Except MachineError M

class Factory (F : Type) (M : outParam Type) where
  bootRom : F → Rom → Boot F M
  /-- Boot to the firmware menu, without a cartridge. -/
  bootFirmware : F → Boot F M

def Rom.load (t : FileTree) (paths : List Path) : Except MachineError Rom :=
  match paths with
  | [] => .error .noPath
  | p :: _ =>
    match t.read p with
    | .ok data => .ok ⟨data, p⟩
    | .error e => .error (.file e)

end Handheld
