import Handheld.Machine.Basic

/-!
# Digests

FNV-1a in 64 bits, to show long sequences in a short form.
-/

namespace Handheld

namespace Digest

def offsetBasis : UInt64 := 0xcbf29ce484222325

def prime : UInt64 := 0x100000001b3

def step (h : UInt64) (b : UInt8) : UInt64 := (h ^^^ b.toUInt64) * prime

def ofBytes (b : Bytes) : UInt64 := b.foldl step offsetBasis

/-- A sample as two bytes, low byte first. -/
def sampleBytes (s : Int16) : List UInt8 :=
  let w := s.toUInt16
  [w.toUInt8, (w >>> 8).toUInt8]

def ofSamples (s : List Int16) : UInt64 := ofBytes (s.flatMap sampleBytes).toArray

def hexDigit (n : Nat) : Char := Char.ofNat (if n < 10 then 48 + n else 87 + n)

/-- So many lower-case hexadecimal digits of a number, its least ones. -/
def hexDigits (count n : Nat) : List Char :=
  (List.range count).map fun i => hexDigit (n / Nat.pow 16 (count - 1 - i) % 16)

def hex16 (h : UInt64) : List Char := hexDigits 16 h.toNat

def hexBytes (b : Bytes) : List Char :=
  b.toList.flatMap fun x => hexDigits 2 x.toNat

end Digest

end Handheld
