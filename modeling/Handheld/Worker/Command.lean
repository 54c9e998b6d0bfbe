import Handheld.Machine.Basic

/-!
# Commands

What the outside asks of a worker, and what it gets back. A caller waits for one reply; a command
without a caller is carried out all the same.
-/

namespace Handheld

inductive Command where
  /-- Drop all pauses and run. -/
  | run
  | pause
  | unpause
  /-- Stop emulation. A request from outside the machine stops the machine as well. -/
  | stop (external : Bool)
  /-- Pause unless paused already, then run one frame. -/
  | frameStep
  | reset
  | exit
  | bootRom (paths : List Path)
  | bootFirmware
  | insertCart (paths : List Path)
  | ejectCart
  | saveState (path : Path)
  | loadState (path : Path)
  /-- Go back to before the latest savestate load. -/
  | undoLoad
  | importSave (path : Path)
  | setCheats (on : Bool)
deriving DecidableEq

/-- The command with a name. Some take paths, one path, or a switch; toggling the pause is up to what
is given for it. -/
def Command.named? (name : String) (paths : List Path) (path : Path) (on : Bool)
    (toggle : Command) : Option Command :=
  match name with
  | "run" => some .run
  | "pause" => some .pause
  | "unpause" => some .unpause
  | "toggle_pause" => some toggle
  | "stop" => some (.stop on)
  | "frame_step" => some .frameStep
  | "reset" => some .reset
  | "exit" => some .exit
  | "boot_rom" => some (.bootRom paths)
  | "boot_firmware" => some .bootFirmware
  | "insert_cart" => some (.insertCart paths)
  | "eject_cart" => some .ejectCart
  | "save_state" => some (.saveState path)
  | "load_state" => some (.loadState path)
  | "undo" => some .undoLoad
  | "import" => some (.importSave path)
  | "cheats" => some (.setCheats on)
  | _ => none

inductive WorkerError where
  | machine (e : MachineError)
  /-- The worker is gone. -/
  | disconnected
  /-- The worker has been told to exit. -/
  | exiting
  | nothingToUndo
deriving DecidableEq

def WorkerError.message : WorkerError → String
  | .machine e => e.message
  | .disconnected => "emulation worker is not running"
  | .exiting => "emulation worker is exiting"
  | .nothingToUndo => "no savestate load to undo"

def WorkerError.kind : WorkerError → String
  | .machine e => e.kind
  | .disconnected => "Disconnected"
  | .exiting => "Exiting"
  | .nothingToUndo => "NothingToUndo"

instance (priority := 1100) decidableEqExcept {ε α : Type} [DecidableEq ε] [DecidableEq α] :
    DecidableEq (Except ε α)
  | .ok a, .ok b => decidable_of_iff (a = b) ⟨congrArg _, Except.ok.inj⟩
  | .error a, .error b => decidable_of_iff (a = b) ⟨congrArg _, Except.error.inj⟩
  | .ok _, .error _ => isFalse nofun
  | .error _, .ok _ => isFalse nofun

abbrev Reply := Except WorkerError Unit

/-- Who waits for a reply. -/
abbrev Caller := Nat

/-- A command on its way, with who waits for it. -/
structure Envelope where
  command : Command
  caller : Option Caller := none
deriving DecidableEq

end Handheld
