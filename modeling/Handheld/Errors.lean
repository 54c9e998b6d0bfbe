import Handheld.Registry

/-!
# The catalogue of errors

Every kind of error that carries a wording of its own, with that wording.
-/

namespace Handheld

/-- The kinds of errors and their wordings, where those that give a reason give this one, and those
that name a number name this one. Zero stands for an output device. -/
def errorCatalogue (reason : String) (number : Nat) : List (String × String) :=
  [MachineError.noMachine, .noPath, .invalidState reason, .boot reason].map
    (fun e => (e.kind, e.message)) ++
  [WorkerError.disconnected, .exiting, .nothingToUndo].map (fun e => (e.kind, e.message)) ++
  [DeviceError.noDevice (number = 0), .notFound reason, .config reason, .unsupportedFormat reason,
    .build reason, .play reason].map (fun e => (e.kind, e.message)) ++
  [RegistryError.full number, .unknownInstance number].map (fun e => (e.kind, e.message))

end Handheld
