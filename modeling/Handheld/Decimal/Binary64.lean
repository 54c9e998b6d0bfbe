/-!
# Decimal numerals and binary64

A finite binary64 number is `m * 2 ^ q` for naturals `m` and integers `q`. Reading a decimal numeral
gives the number nearest to it, ties to the even significand; writing gives the fewest digits that
read back, and of those the digits nearest to the number. All arithmetic is exact.
-/

namespace Handheld.Binary64

/-- What a bit pattern stands for. -/
inductive Value where
  | nan
  | infinite (negative : Bool)
  /-- The number `m * 2 ^ q`, or its negation. -/
  | finite (negative : Bool) (m : Nat) (q : Int)
deriving DecidableEq

def fractionBits : Nat := 52

/-- The exponent of the smallest positive number. -/
def minExponent : Int := -1074

/-- What a bit pattern stands for. -/
def decode (bits : UInt64) : Value :=
  let n := bits.toNat
  let negative := n / Nat.pow 2 63 = 1
  let exponent := n / Nat.pow 2 fractionBits % 2048
  let fraction := n % Nat.pow 2 fractionBits
  if exponent = 2047 then
    if fraction = 0 then .infinite negative else .nan
  else if exponent = 0 then .finite negative fraction minExponent
  else .finite negative (Nat.pow 2 fractionBits + fraction) (exponent - 1075)

def infinityBits : Nat := 2047 * Nat.pow 2 fractionBits

/-- `a / b` to the nearest natural, halves to the even neighbour. -/
def divideToEven (a b : Nat) : Nat :=
  let d := a / b
  let twice := 2 * (a % b)
  if twice < b then d
  else if b < twice then d + 1
  else if d % 2 = 0 then d else d + 1

/-- The largest `e` with `2 ^ e * b ≤ a`, for positive `a` and `b`. -/
def floorLog2 (a b : Nat) : Int :=
  let e : Int := (a.log2 : Int) - b.log2
  if 0 ≤ e then (if b * Nat.pow 2 e.toNat ≤ a then e else e - 1)
  else (if b ≤ a * Nat.pow 2 (-e).toNat then e else e - 1)

/-- The bits of the number nearest to the positive fraction `a / b`. -/
def nearestBits (a b : Nat) : Nat :=
  let q := max (floorLog2 a b - fractionBits) minExponent
  let m := if 0 ≤ q then divideToEven a (b * Nat.pow 2 q.toNat) else divideToEven (a * Nat.pow 2 (-q).toNat) b
  let bits := if q = minExponent then m else (q + 1074).toNat * Nat.pow 2 fractionBits + m
  min bits infinityBits

def digitCount (n : Nat) : Nat := (Nat.toDigits 10 n).length

/-- The bits of the number nearest to `m * 10 ^ e`; too large a numeral gives infinity. -/
def ofDecimal (m : Nat) (e : Int) : UInt64 :=
  let magnitude : Int := digitCount m + e
  if m = 0 || magnitude < -330 then 0
  else if 310 < magnitude then infinityBits.toUInt64
  else if 0 ≤ e then (nearestBits (m * Nat.pow 10 e.toNat) 1).toUInt64
  else (nearestBits m (Nat.pow 10 (-e).toNat)).toUInt64

/-! ## The fewest digits -/

/-- Twice-doubled bounds of the reals that round to `m * 2 ^ q`: the interval is from `low / 4` to
`high / 4` times `2 ^ q`. It is narrower below a power of two. -/
def roundingInterval (m : Nat) (q : Int) : Nat × Nat :=
  (if m = Nat.pow 2 fractionBits && q ≠ minExponent then 4 * m - 1 else 4 * m - 2, 4 * m + 2)

/-- Scale `x * 2 ^ q` against `10 ^ k`, as a fraction of naturals. -/
def scaled (x : Nat) (q k : Int) : Nat × Nat :=
  (x * Nat.pow 2 q.toNat * Nat.pow 10 (-k).toNat, Nat.pow 2 (-q).toNat * Nat.pow 10 k.toNat)

/-- The point `d * 10 ^ k` rounds to `m * 2 ^ q`. -/
def readsBack (m : Nat) (q : Int) (d : Nat) (k : Int) : Bool :=
  let (low, high) := roundingInterval m q
  let (a, b) := scaled low (q - 2) k
  let (c, e) := scaled high (q - 2) k
  if m % 2 = 0 then a ≤ d * b && d * e ≤ c else a < d * b && d * e < c

/-- The exponent of the leading decimal digit of `m * 2 ^ q`. -/
def leadingExponent (m : Nat) (q : Int) : Int :=
  if 0 ≤ q then (digitCount (m * Nat.pow 2 q.toNat) : Int) - 1
  else
    let whole := m / Nat.pow 2 (-q).toNat
    if 0 < whole then (digitCount whole : Int) - 1
    else
      -- `10 ^ s * m / 2 ^ -q` is positive for this `s`, and its digits show the place.
      let s := (-q).toNat
      (digitCount (m * Nat.pow 10 s / Nat.pow 2 s) : Int) - 1 - s

/-- The better of the two points of the grid `10 ^ k` beside `m * 2 ^ q`, if one reads back. -/
def gridPoint? (m : Nat) (q k : Int) : Option Nat :=
  let (a, b) := scaled m q k
  let d := a / b
  match readsBack m q d k, readsBack m q (d + 1) k with
  | true, true => if 2 * (a % b) < b then some d else some (d + 1)
  | true, false => some d
  | false, true => some (d + 1)
  | false, false => none

/-- The first grid with a point that reads back, from one digit on. -/
def shortestFrom (m : Nat) (q lead : Int) : Nat → Nat → Nat × Int
  | 0, digits => (m, lead - digits)
  | fuel + 1, digits =>
    let k := lead - digits + 1
    match gridPoint? m q k with
    | some d => (d, k)
    | none => shortestFrom m q lead fuel (digits + 1)

/-- Digits and exponent of the shortest numeral `d * 10 ^ k` that reads back as `m * 2 ^ q`, for
positive `m`; seventeen digits always do. -/
def shortest (m : Nat) (q : Int) : Nat × Int := shortestFrom m q (leadingExponent m q) 17 1

end Handheld.Binary64
