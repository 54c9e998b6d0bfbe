import Handheld.Worker.Basic

/-!
# Where a worker's saves go

A worker writes what is pending before it points the cartridge save elsewhere. Writes that are due
come from a thread of their own; either kind goes into the journal.
-/

namespace Handheld

namespace Worker

variable {F M : Type}

def noteWrite (w : Worker F M) (kind : SaveKind) (write : Option SaveWrite) : Worker F M :=
  match write with
  | none => w
  | some s => w.note (.wrote kind s)

/-- Write the cartridge save now, if it is pending, and say whether nothing is left to do. -/
def flushCart (w : Worker F M) : Bool × Worker F M :=
  let r := w.cart.checkFlush w.world.files
  (r.done, { w.noteWrite .cart r.written with cart := r.store, world.files := r.files })

/-- Write the firmware save now, if it is pending, and say whether nothing is left to do. -/
def flushFirmware (w : Worker F M) : Bool × Worker F M :=
  let r := w.firmware.checkFlush w.world.files
  (r.done, { w.noteWrite .firmware r.written with firmware := r.store, world.files := r.files })

/-- Write whatever has been quiet for the debounce time. -/
def flushDue (w : Worker F M) (debounce : Nat) : Worker F M :=
  let w := if w.cart.isDue w.world.now debounce then w.flushCart.2 else w
  if w.firmware.isDue w.world.now debounce then w.flushFirmware.2 else w

/-- The last writes of a worker that is done: whatever never made it to disk. -/
def closeSaves (w : Worker F M) : Worker F M :=
  let w := if w.cart.isStale then w.flushCart.2 else w
  if w.firmware.isStale then w.flushFirmware.2 else w

/-- Point the cartridge save at another file, with no write before. -/
def setCartPath (w : Worker F M) (path : Option Path) : Worker F M :=
  { w.note (.pointed path) with cart := w.cart.setPath path }

/-- Write the cartridge save, and point it elsewhere whether that worked or not. -/
def retarget (w : Worker F M) (path : Option Path) : Worker F M := w.flushCart.2.setCartPath path

end Worker

end Handheld
