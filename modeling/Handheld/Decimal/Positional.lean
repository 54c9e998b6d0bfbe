import Handheld.Decimal.Binary64

/-!
# Positional numerals

The fewest digits of a binary64 number written out in full, without an exponent. A whole number
keeps one zero behind its point.
-/

namespace Handheld.Positional

def digits (n : Nat) : List Char := Nat.toDigits 10 n

/-- Move trailing zeros of `d` into the exponent, as long as the exponent is negative. -/
def normalize : Nat → Nat × Int → Nat × Int
  | 0, p => p
  | fuel + 1, (d, k) => if k < 0 && d % 10 = 0 then normalize fuel (d / 10, k + 1) else (d, k)

/-- The numeral of `d * 10 ^ k`. -/
def write (d : Nat) (k : Int) : List Char :=
  let (d, k) := normalize 20 (d, k)
  let ds := digits d
  if 0 ≤ k then ds ++ List.replicate k.toNat '0' ++ ['.', '0']
  else
    let places := (-k).toNat
    if places < ds.length then ds.take (ds.length - places) ++ '.' :: ds.drop (ds.length - places)
    else '0' :: '.' :: List.replicate (places - ds.length) '0' ++ ds

/-- The numeral of the number a bit pattern stands for. -/
def ofBits (bits : UInt64) : List Char :=
  match Binary64.decode bits with
  | .nan => ['n', 'a', 'n']
  | .infinite negative => if negative then ['-', 'i', 'n', 'f'] else ['i', 'n', 'f']
  | .finite negative m q =>
    let body :=
      if m = 0 then ['0', '.', '0']
      else
        let (d, k) := Binary64.shortest m q
        write d k
    if negative then '-' :: body else body

end Handheld.Positional
