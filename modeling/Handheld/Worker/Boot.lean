import Handheld.Worker.Saves

/-!
# Booting and cartridges

A new machine takes the place of the installed one only when its boot succeeds. The cartridge save
moves first, so that the machine saves to its own file from the start; a failure moves it back.
-/

namespace Handheld

namespace Worker

variable {F M : Type} [Machine M]

/-- Put a machine in the place of the installed one: stop that, start this, and forget the backup. -/
def install (w : Worker F M) (i : Installed M) : Worker F M :=
  let w := w.useIfAny .stop Machine.stop
  ({ w with backup := none }.use i (fun _ => .start) Machine.start).2

variable [Factory F M]

/-- Ask a factory for a machine with a ROM, or for one with none. -/
def askFactory (f : F) : Option Rom → Boot F M
  | some rom => Factory.bootRom f rom
  | none => Factory.bootFirmware f

def boot (w : Worker F M) (rom : Option Rom) (savePath : Option Path) : Worker F M × Reply :=
  let previous := w.cart.path
  let number := w.boots
  let w := { (w.retarget savePath).note (.asked number rom) with boots := number + 1 }
  let b := askFactory w.factory rom
  let w := { w with factory := b.factory }.receiveAll number b.requests
  match b.machine with
  | .ok m => (w.install ⟨number, m⟩, .ok ())
  | .error e => (w.setCartPath previous, .error (.machine e))

def bootRom (w : Worker F M) (paths : List Path) : Worker F M × Reply :=
  match Rom.load w.world.files paths with
  | .error e => (w, .error (.machine e))
  | .ok rom => w.boot (some rom) (some (cartSavePath rom.path w.id))

def bootFirmware (w : Worker F M) : Worker F M × Reply := w.boot none none

omit [Factory F M]

def insertCart (w : Worker F M) (paths : List Path) : Worker F M × Reply :=
  match w.machine with
  | none => (w, .error (.machine .noMachine))
  | some i =>
    match Rom.load w.world.files paths with
    | .error e => (w, .error (.machine e))
    | .ok rom =>
      let previous := w.cart.path
      let w := w.retarget (some (cartSavePath rom.path w.id))
      match w.use i (fun _ => .insertCart rom) (Machine.insertCart · rom) with
      | (.ok (), w) => (w, .ok ())
      | (.error e, w) => (w.setCartPath previous, .error (.machine e))

def ejectCart (w : Worker F M) : Worker F M :=
  (w.useIfAny .ejectCart Machine.ejectCart).retarget none

end Worker

end Handheld
