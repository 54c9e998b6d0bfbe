import Handheld.Digest
import Handheld.Worker.Journal

/-!
# Journal lines

One line of text for each call in a journal. What can be long is shown by its length and its digest.
-/

namespace Handheld

def decimal (n : Int) : List Char := (toString n).toList

namespace Call

/-- A microphone frame: its length, its first sample and its digest. -/
def signalLine (signal : List Int16) : List Char :=
  "mic ".toList ++ decimal signal.length ++ [' '] ++ decimal (signal.head?.getD 0).toInt ++ [' '] ++
    Digest.hex16 (Digest.ofSamples signal)

/-- The buttons, and the touched point if there is one. -/
def inputLine (input : FrameInput) : List Char :=
  "frame ".toList ++ decimal input.keys.toNat ++ [' '] ++
    match input.touch with
    | none => ['-']
    | some (x, y) => decimal x.toNat ++ [','] ++ decimal y.toNat

/-- The line of a call. Live noise is only named, since no two frames of it are alike. -/
def line (noisy : Bool) : Call → List Char
  | .start => "start".toList
  | .stop => "stop".toList
  | .reset => "reset".toList
  | .hearMic none => "mic -".toList
  | .hearMic (some signal) => if noisy then "mic live".toList else signalLine signal
  | .runFrame input => inputLine input
  | .readOutput room count => "read ".toList ++ decimal room ++ [' '] ++ decimal count
  | .saveState _ => "save_state".toList
  | .loadState data => "load_state ".toList ++ Digest.hexBytes data
  | .insertCart rom => "insert_cart ".toList ++ rom.name
  | .ejectCart => "eject_cart".toList
  | .importSave data => "import_save ".toList ++ decimal data.size
  | .setCheats on => "cheats ".toList ++ (if on then "true" else "false").toList

/-- A call that every frame makes. -/
def isPerFrame : Call → Bool
  | .hearMic _ => true
  | .runFrame _ => true
  | .readOutput _ _ => true
  | _ => false

end Call

namespace Event

def bootLine : Option Rom → List Char
  | none => "boot_firmware".toList
  | some rom =>
    "boot_rom ".toList ++ rom.name ++ [' '] ++ decimal rom.data.size ++ " [".toList ++ rom.dir.text ++
      [']']

/-- The line of an event: boots and calls have one, and those of every frame only if `frames` says
so. -/
def line? (noisy frames : Bool) : Event → Option (List Char)
  | .asked _ rom => some (bootLine rom)
  | .called _ c => if c.isPerFrame && !frames then none else some (c.line noisy)
  | _ => none

end Event

end Handheld
