import Handheld.Worker.Boot
import Handheld.Worker.Savestate

/-!
# Carrying out commands

Running, pausing, stopping, and the one function `apply` that carries out any command. A command that
fails says why; what it did before it failed is in the worker that comes back.
-/

namespace Handheld

namespace Worker

variable {F M : Type}

def goLive (w : Worker F M) : Worker F M :=
  { w with status := .running, pauses := w.pauses.clear, active := true }.enableAudio

/-- Add a pause. Only the first one of a nest changes the status. -/
def pause (w : Worker F M) : Worker F M :=
  let (first, pauses) := w.pauses.push w.status
  let paused := { w with pauses }
  if !first then paused
  else if w.status = .paused then paused
  else
    let silent := { paused with status := .paused }.disableAudio
    { silent with audio := silent.audio.refreshMute silent.world.mute }.notify "Paused"

/-- Drop a pause. Only the last one of a nest changes the status. -/
def unpause (w : Worker F M) : Worker F M :=
  match w.pauses.pop with
  | (none, pauses) => { w with pauses }
  | (some restored, pauses) =>
    let w := { w with pauses, status := restored }
    if restored = .paused then w else w.enableAudio.notify "Resumed"

/-- Run one frame, from a pause that is taken if there is none. -/
def frameStep (w : Worker F M) : Worker F M :=
  { (if w.pauses.depth = 0 then w.pause else w) with status := .frameStep }

/-- Leave the pauses as they are and emulate nothing. -/
def halt (w : Worker F M) : Worker F M :=
  { w with status := .paused, active := false }.disableAudio

/-- Enter the state that is never left. -/
def exit (w : Worker F M) : Worker F M :=
  { w with status := .exiting, pauses := w.pauses.clear }.disableAudio

variable [Machine M]

/-- Stop emulation, and the machine too if the request comes from outside it. -/
def stop (w : Worker F M) (external : Bool) : Worker F M :=
  (if external then w.useIfAny .stop Machine.stop else w).halt

def reset (w : Worker F M) : Worker F M × Reply :=
  match w.machine with
  | none => (w, .error (.machine .noMachine))
  | some i => ((w.use i (fun _ => .reset) Machine.reset).2.goLive.notify "Reset", .ok ())

variable [Factory F M]

def apply (w : Worker F M) : Command → Worker F M × Reply
  | .run => (w.goLive, .ok ())
  | .pause => (w.pause, .ok ())
  | .unpause => (w.unpause, .ok ())
  | .stop external => (w.stop external, .ok ())
  | .frameStep => (w.frameStep, .ok ())
  | .reset => w.reset
  | .exit => (w.exit, .ok ())
  | .bootRom paths => w.bootRom paths
  | .bootFirmware => w.bootFirmware
  | .insertCart paths => w.insertCart paths
  | .ejectCart => (w.ejectCart, .ok ())
  | .saveState path => w.saveState path
  | .loadState path => w.loadState path
  | .undoLoad => w.undoLoad
  | .importSave path => w.importSave path
  | .setCheats on => (w.useIfAny (.setCheats on) (Machine.setCheats · on), .ok ())

end Worker

end Handheld
