import Handheld.Decimal.Binary64
import Handheld.Toml.Value

/-!
# Unquoted TOML scalars

Booleans, integers, floats and moments are first cut out whole and then classified. A numeral stands
for a number if an integer fits the widest machine words, and a finite numeral stays finite. Those
that miss this, and some with digits their base lacks, are void.
-/

namespace Handheld.Toml

def endsScalar (c : Char) : Bool :=
  c = ' ' || c = '\t' || c = '\n' || c = '\r' || c = '#' || c = ',' || c = '=' || c = '[' || c = ']' ||
    c = '\x7b' || c = '\x7d'

/-- A character of an unquoted scalar. Most of them are in none. -/
def isScalarChar (c : Char) : Bool := !endsScalar c

namespace Scalar

/-- Digits with single underscores between them, without the underscores. -/
def digits? (ok : Char → Bool) (s : List Char) : Option (List Char) :=
  let doubled := (s.zip s.tail).any fun p => p.1 = '_' && p.2 = '_'
  if s.all (fun c => ok c || c = '_') && s.head?.any ok && s.getLast?.any ok && !doubled then
    some (s.filter (· ≠ '_'))
  else none

def digitValue (c : Char) : Nat :=
  let n := c.toNat
  if n < 58 then n - 48 else if n < 71 then n - 55 else n - 87

def number (base : Nat) (s : List Char) : Nat := s.foldl (fun n c => n * base + digitValue c) 0

/-- A decimal numeral; it has no superfluous leading zero. -/
def decimal? (s : List Char) : Option (List Char) :=
  if s.head? = some '0' && 1 < s.length then none else digits? Char.isDigit s

def sign (s : List Char) : Bool × List Char :=
  match s with
  | '-' :: r => (true, r)
  | '+' :: r => (false, r)
  | r => (false, r)

def isHexDigit (c : Char) : Bool := c.isDigit || ('a' ≤ c && c ≤ 'f') || ('A' ≤ c && c ≤ 'F')

def isOctalDigit (c : Char) : Bool := '0' ≤ c && c ≤ '7'

def isBinaryDigit (c : Char) : Bool := c = '0' || c = '1'

/-- An integer, without regard to its size. -/
def unbounded? (s : List Char) : Option Int :=
  match s with
  | '0' :: 'x' :: r => (digits? isHexDigit r).map fun d => (number 16 d : Int)
  | '0' :: 'o' :: r => (digits? isOctalDigit r).map fun d => (number 8 d : Int)
  | '0' :: 'b' :: r => (digits? isBinaryDigit r).map fun d => (number 2 d : Int)
  | _ =>
    let (negative, r) := sign s
    (decimal? r).map fun d => if negative then -(number 10 d : Int) else number 10 d

/-- An integer of at most 128 bits, signed or not. -/
def isWord (n : Int) : Bool := -(Int.pow 2 127) ≤ n && n < Int.pow 2 128

/-- Every underscore has hexadecimal digits on both sides. -/
def separatesDigits (s : List Char) : Bool :=
  s.head? ≠ some '_' && s.getLast? ≠ some '_' &&
    (s.zip s.tail).all fun p => (p.1 ≠ '_' || isHexDigit p.2) && (p.2 ≠ '_' || isHexDigit p.1)

/-- A numeral without digits behind the mark of its base, or a decimal one that has something else
than digits behind its first underscore. What makes a float does not pass. -/
def isVoid (s : List Char) : Bool :=
  if s = ['0', 'x'] || s = ['0', 'o'] || s = ['0', 'b'] then true
  else
    let r := (sign s).2
    let (digits, rest) := r.span Char.isDigit
    rest.head? = some '_' && digits.head? ≠ some '0' && separatesDigits r &&
      !rest.any fun c => c = '.' || c = 'e' || c = 'E'

def nanBits : UInt64 := 0x7FF8000000000000

def signBit : UInt64 := 0x8000000000000000

def infinityBits : UInt64 := 0x7FF0000000000000

/-- Whole and fractional digits of a mantissa; there are fractional ones exactly behind a point. -/
def mantissa? (s : List Char) : Option (List Char × List Char) :=
  match s.span (· ≠ '.') with
  | (whole, []) => (decimal? whole).map fun w => (w, [])
  | (whole, _ :: fraction) => do
    let w ← decimal? whole
    let f ← digits? Char.isDigit fraction
    return (w, f)

/-- The bits nearest to a numeral without a sign that has a point or an exponent. -/
def finite? (s : List Char) : Option UInt64 := do
  let (whole, fraction, exponent) ←
    match s.span (fun c => c ≠ 'e' && c ≠ 'E') with
    | (m, []) => do
      let (w, f) ← mantissa? m
      if f = [] then none else some (w, f, (0 : Int))
    | (m, _ :: e) => do
      let (w, f) ← mantissa? m
      let (negative, e) := sign e
      let d ← digits? Char.isDigit e
      some (w, f, if negative then -(number 10 d : Int) else number 10 d)
  some (Binary64.ofDecimal (number 10 (whole ++ fraction)) (exponent - fraction.length))

/-- A float; a numeral too large for a finite one is void. -/
def float? (s : List Char) : Option Value :=
  let (negative, r) := sign s
  let signed (bits : UInt64) : Value := .float (if negative then bits ||| signBit else bits)
  if r = ['i', 'n', 'f'] then some (signed infinityBits)
  else if r = ['n', 'a', 'n'] then some (signed nanBits)
  else (finite? r).map fun bits => if bits = infinityBits then .void else signed bits

/-! ## Moments -/

/-- Exactly `count` digits, and the number they denote. -/
def field? (count : Nat) (s : List Char) : Option (Nat × List Char) :=
  let d := s.take count
  if d.length = count && d.all Char.isDigit then some (number 10 d, s.drop count) else none

def daysIn (year month : Nat) : Nat :=
  if month = 2 then
    if (year % 4 = 0 && year % 100 ≠ 0) || year % 400 = 0 then 29 else 28
  else if month = 4 || month = 6 || month = 9 || month = 11 then 30
  else 31

def afterDate? (s : List Char) : Option (List Char) := do
  let (year, s) ← field? 4 s
  let '-' :: s := s | none
  let (month, s) ← field? 2 s
  let '-' :: s := s | none
  let (day, s) ← field? 2 s
  if 1 ≤ month && month ≤ 12 && 1 ≤ day && day ≤ daysIn year month then some s else none

/-- What follows a time of day; seconds may be left out. -/
def afterTime? (s : List Char) : Option (List Char) := do
  let (hour, s) ← field? 2 s
  let ':' :: s := s | none
  let (minute, s) ← field? 2 s
  if 23 < hour || 59 < minute then none
  else match s with
    | ':' :: s => do
      let (second, s) ← field? 2 s
      if 60 < second then none
      else match s with
        | '.' :: s => if s.head?.any Char.isDigit then some (s.dropWhile Char.isDigit) else none
        | s => some s
    | s => some s

/-- What follows an offset from universal time. -/
def afterOffset? (s : List Char) : Option (List Char) :=
  match s with
  | [] => some []
  | c :: s =>
    if c = 'Z' || c = 'z' then some s
    else if c = '+' || c = '-' then do
      let (hour, s) ← field? 2 s
      let ':' :: s := s | none
      let (minute, s) ← field? 2 s
      if 23 < hour || 59 < minute then none else some s
    else none

/-- A date, a time, or both with or without an offset. -/
def isMoment (s : List Char) : Bool :=
  match afterDate? s with
  | some [] => true
  | some (c :: r) =>
    (c = 'T' || c = 't' || c = ' ') && (afterTime? r >>= afterOffset?) == some []
  | none => afterTime? s == some []

end Scalar

def scalar? (s : List Char) : Option Value :=
  if s = ['t', 'r', 'u', 'e'] then some (.boolean true)
  else if s = ['f', 'a', 'l', 's', 'e'] then some (.boolean false)
  else if Scalar.isMoment s then some .moment
  else match Scalar.unbounded? s with
    | some n => some (if Scalar.isWord n then .integer n else .void)
    | none => if Scalar.isVoid s then some .void else Scalar.float? s

/-- Cut an unquoted scalar off a text. A date may go on behind a single blank. -/
def readScalar (s : List Char) : Option (Value × List Char) :=
  let (word, rest) := s.span isScalarChar
  match rest with
  | ' ' :: more =>
    let (time, rest') := more.span isScalarChar
    if Scalar.afterDate? word = some [] && time.head?.any Char.isDigit then
      (scalar? (word ++ ' ' :: time)).map (·, rest')
    else (scalar? word).map (·, rest)
  | _ => (scalar? word).map (·, rest)

end Handheld.Toml
