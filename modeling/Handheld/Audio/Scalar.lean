/-!
# Numbers to resample with

The arithmetic that the resamplers need, so that each of them is written once and can be read over
machine numbers as well as over exact ones.
-/

namespace Handheld

/-- Numbers with the four operations, an order, and ways to and from the integers. -/
class Scalar (α : Type) extends Add α, Sub α, Mul α, Div α where
  ofNat : Nat → α
  ofInt : Int → α
  /-- The largest whole number that is not larger. -/
  floor : α → α
  /-- The nearest integer, halves away from zero, cut to 32 bits. -/
  roundToInt32 : α → Int32
  /-- The integer part as a natural; what is below zero or no number gives zero. Machine numbers have
  words of 64 bits for it: what is too large gives the largest. -/
  toWord : α → Nat
  less : α → α → Bool

namespace Scalar

/-! ## Machine numbers -/

/-- A word as the nearest machine number. -/
def floatOfWord (n : Nat) : Float := n.toUInt64.toFloat

/-- Machine numbers of this magnitude or more have nothing behind the point. -/
def wholeFrom : Float := floatOfWord (Nat.pow 2 52)

/-- The magnitude of a number, without what stands behind the point. -/
def truncate (x : Float) : UInt64 := x.abs.toUInt64

/-- The largest whole number that is not larger; what is no number stays. -/
def floatFloor (x : Float) : Float :=
  let whole := (truncate x).toFloat
  if x.abs < wholeFrom then
    if x.abs == whole then x
    else if x < floatOfWord 0 then -(whole + floatOfWord 1)
    else whole
  else x

/-- The nearest integer, halves away from zero; for what is no number, zero. -/
def nearest (x : Float) : Int :=
  let whole := truncate x
  let half := floatOfWord 1 / floatOfWord 2
  let n : Nat := if half ≤ x.abs - whole.toFloat then whole.toNat + 1 else whole.toNat
  if x < floatOfWord 0 then -n else n

instance : Scalar Float where
  ofNat := floatOfWord
  ofInt n := if n < 0 then -(floatOfWord n.natAbs) else floatOfWord n.natAbs
  floor := floatFloor
  roundToInt32 x := .ofIntClamp (nearest x)
  toWord x := x.toUInt64.toNat
  less x y := x < y

/-! ## Exact numbers -/

instance : Scalar Rat where
  ofNat n := n
  ofInt n := n
  floor x := x.floor
  roundToInt32 x := .ofIntClamp (if x < 0 then -(1 / 2 - x).floor else (x + 1 / 2).floor)
  toWord x := x.floor.toNat
  less x y := x < y

end Scalar

end Handheld
