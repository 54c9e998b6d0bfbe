import Handheld.Save.Store
import Handheld.Worker.Command
import Handheld.Worker.Status

/-!
# What a worker did

A worker keeps a journal: every call on a machine, every request a machine made, every reply, every
image written and every change of the file that the cartridge save goes to. Machines are told apart
by the boot they come from.
-/

namespace Handheld

/-- What everybody can see of a worker: its state as last published. -/
structure Shown where
  status : Status := .paused
  depth : Nat := 0
  active : Bool := false
deriving DecidableEq

/-- A call on a machine, with what it was given and, where it matters, what it answered. -/
inductive Call where
  | start
  | stop
  | reset
  | hearMic (signal : Option (List Int16))
  | runFrame (input : FrameInput)
  | readOutput (room count : Nat)
  | saveState (answer : Except MachineError Bytes)
  | loadState (data : Bytes)
  | insertCart (rom : Rom)
  | ejectCart
  | importSave (data : Bytes)
  | setCheats (on : Bool)
deriving DecidableEq

/-- One of the two save stores of a machine. -/
inductive SaveKind where
  | cart
  | firmware
deriving DecidableEq

/-- One thing that happened in a worker. -/
inductive Event where
  /-- A command was taken from the mailbox. -/
  | taken (envelope : Envelope)
  /-- The factory was asked for a machine with a ROM, or for one with none. -/
  | asked (boot : Nat) (rom : Option Rom)
  | called (boot : Nat) (call : Call)
  /-- The machine of a boot asked for something. -/
  | requested (boot : Nat) (request : Request)
  /-- A save image was put on disk. -/
  | wrote (kind : SaveKind) (write : SaveWrite)
  /-- The cartridge save was pointed at a file, or at none. -/
  | pointed (path : Option Path)
  | notified (message : String)
  /-- A caller got its reply, at a moment when this was published. -/
  | answered (caller : Caller) (reply : Reply) (shown : Shown)
deriving DecidableEq

/-- The replies among events, in the same order. -/
def replies (events : List Event) : List (Caller × Reply) :=
  events.filterMap fun e =>
    match e with
    | .answered c reply _ => some (c, reply)
    | _ => none

/-- The latest reply to a caller among events, newest first. -/
def replyTo? (c : Caller) : List Event → Option Reply
  | [] => none
  | .answered d reply _ :: rest => if d = c then some reply else replyTo? c rest
  | _ :: rest => replyTo? c rest

end Handheld
