/-!
# UTF-8

Decoding refuses what the standard calls ill-formed: stray and missing continuation octets, longer
spellings than needed, surrogates and anything past the last code point.
-/

namespace Handheld.Utf8

/-- The payload of a continuation octet. -/
def continuation? (b : UInt8) : Option Nat :=
  if b.toNat / 64 = 2 then some (b.toNat % 64) else none

def scalar? (n : Nat) : Option Char :=
  if h : n.isValidChar then some (Char.ofNatAux n h) else none

/-- The first character of a byte sequence and the number of continuation octets it takes. -/
def decodeFirst (b : UInt8) (rest : List UInt8) : Option (Char × Nat) :=
  let lead := b.toNat
  if lead < 0x80 then (scalar? lead).map (·, 0)
  else if lead < 0xC2 then none
  else if lead < 0xE0 then do
    let x ← rest[0]? >>= continuation?
    (scalar? ((lead - 0xC0) * 64 + x)).map (·, 1)
  else if lead < 0xF0 then do
    let x ← rest[0]? >>= continuation?
    let y ← rest[1]? >>= continuation?
    let n := ((lead - 0xE0) * 64 + x) * 64 + y
    if n < 0x800 then none else (scalar? n).map (·, 2)
  else if lead < 0xF5 then do
    let x ← rest[0]? >>= continuation?
    let y ← rest[1]? >>= continuation?
    let z ← rest[2]? >>= continuation?
    let n := (((lead - 0xF0) * 64 + x) * 64 + y) * 64 + z
    if n < 0x10000 then none else (scalar? n).map (·, 3)
  else none

def decode : List UInt8 → Option (List Char)
  | [] => some []
  | b :: rest => do
    let (c, n) ← decodeFirst b rest
    return c :: (← decode (rest.drop n))
termination_by bytes => bytes.length
decreasing_by simp only [List.length_drop, List.length_cons]; omega

def encodeChar (c : Char) : List UInt8 :=
  let n := c.toNat
  if n < 0x80 then [n.toUInt8]
  else if n < 0x800 then [(0xC0 + n / 64).toUInt8, (0x80 + n % 64).toUInt8]
  else if n < 0x10000 then
    [(0xE0 + n / 4096).toUInt8, (0x80 + n / 64 % 64).toUInt8, (0x80 + n % 64).toUInt8]
  else
    [(0xF0 + n / 262144).toUInt8, (0x80 + n / 4096 % 64).toUInt8, (0x80 + n / 64 % 64).toUInt8,
      (0x80 + n % 64).toUInt8]

def encode (text : List Char) : List UInt8 := text.flatMap encodeChar

end Handheld.Utf8
