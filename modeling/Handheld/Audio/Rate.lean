import Handheld.Audio.Scalar

/-!
# Rate conversion

How many frames of machine output belong to a device callback. The fraction that is left over is
carried into the next call, so that in the long run exactly as much is consumed as is produced.
-/

namespace Handheld

/-- The frame rate at which the nominal rate of a machine is given. -/
def nominalFps : Nat := 60

/-- The rates on both sides, and the fraction of a frame still to be consumed. -/
structure RateConverter (α : Type) where
  coreRate : α
  targetFps : α
  deviceRate : α
  phase : α

namespace RateConverter

variable {α : Type} [Scalar α]

/-- A converter that owes nothing. A device rate of zero counts as one. -/
def new (coreRate targetFps : α) (deviceRate : Nat) : RateConverter α :=
  ⟨coreRate, targetFps, Scalar.ofNat (max deviceRate 1), Scalar.ofNat 0⟩

/-- Machine frames to consume for `n` device frames. -/
def inputLength (c : RateConverter α) (n : Nat) : Nat × RateConverter α :=
  let exact :=
    Scalar.ofNat n * c.coreRate * (c.targetFps / Scalar.ofNat nominalFps) / c.deviceRate + c.phase
  let whole := Scalar.floor exact
  (Scalar.toWord whole, { c with phase := exact - whole })

/-- The same for several callbacks of one length, in all. -/
def inputLengths (c : RateConverter α) (n : Nat) : Nat → Nat × RateConverter α
  | 0 => (0, c)
  | times + 1 =>
    let (k, c) := c.inputLength n
    let (rest, c) := c.inputLengths n times
    (k + rest, c)

end RateConverter

end Handheld
