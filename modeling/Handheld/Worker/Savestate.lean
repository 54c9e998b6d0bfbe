import Handheld.Worker.Saves

/-!
# Savestates

A load keeps what was there before, so that it can be undone once.
-/

namespace Handheld

namespace Worker

variable {F M : Type} [Machine M]

def takeState (w : Worker F M) (i : Installed M) : Except MachineError Bytes × Worker F M :=
  w.use i Call.saveState Machine.saveState

def writeFile (w : Worker F M) (path : Path) (data : Bytes) : Worker F M × Reply :=
  match w.world.files.createParents path with
  | (t, .error e) => ({ w with world.files := t }, .error (.machine (.file e)))
  | (t, .ok ()) =>
    match t.write path data with
    | .error e => ({ w with world.files := t }, .error (.machine (.file e)))
    | .ok t => ({ w with world.files := t }, .ok ())

def saveState (w : Worker F M) (path : Path) : Worker F M × Reply :=
  match w.machine with
  | none => (w, .error (.machine .noMachine))
  | some i =>
    match w.takeState i with
    | (.error e, w) => (w, .error (.machine e))
    | (.ok data, w) => w.writeFile path data

/-- Keep the machine's state for an undo, or nothing where the machine does not hand it out. -/
def takeBackup (w : Worker F M) (i : Installed M) : Worker F M :=
  match w.takeState i with
  | (.ok data, w) => { w with backup := some ⟨data, w.cart.path⟩ }
  | (.error _, w) => { w with backup := none }

def giveState (w : Worker F M) (data : Bytes) : Worker F M × Reply :=
  match w.machine with
  | none => (w, .error (.machine .noMachine))
  | some i =>
    match w.use i (fun _ => .loadState data) (Machine.loadState · data) with
    | (.ok (), w) => (w, .ok ())
    | (.error e, w) => (w, .error (.machine e))

/-- Load the machine's state from a file. Only while emulation is active is there anything to keep
for an undo. -/
def loadState (w : Worker F M) (path : Path) : Worker F M × Reply :=
  match w.machine with
  | none => (w, .error (.machine .noMachine))
  | some i =>
    let w := if w.active then w.takeBackup i else w
    match w.world.files.read path with
    | .error e => (w, .error (.machine (.file e)))
    | .ok data => w.giveState data

/-- Go back to the state kept by the latest load, and to its save file if there was one. -/
def undoLoad (w : Worker F M) : Worker F M × Reply :=
  match w.machine, w.backup with
  | none, _ => (w, .error (.machine .noMachine))
  | some _, none => (w, .error .nothingToUndo)
  | some _, some b =>
    match { w with backup := none }.giveState b.data with
    | (w, .error e) => (w, .error e)
    | (w, .ok ()) =>
      if b.savePath.isSome then (w.setCartPath b.savePath, .ok ()) else (w, .ok ())

/-- Give the machine an external cartridge save. -/
def importSave (w : Worker F M) (path : Path) : Worker F M × Reply :=
  match w.machine with
  | none => (w, .error (.machine .noMachine))
  | some i =>
    match w.world.files.read path with
    | .error e => (w, .error (.machine (.file e)))
    | .ok data =>
      match w.use i (fun _ => .importSave data) (Machine.importSave · data) with
      | (.ok (), w) => (w, .ok ())
      | (.error e, w) => (w, .error (.machine e))

end Worker

end Handheld
