import Handheld.Machine.Basic

/-!
# WAV headers

A RIFF file of type WAVE holds chunks; a format chunk says how the samples of the data chunk behind
it are stored. Bytes are read strictly in order, and running out of them is an error of its own.
-/

namespace Handheld.Wav

inductive Error where
  /-- The file cannot be read, or ends too early. -/
  | unreadable
  /-- It breaks the rules of the format. -/
  | malformed
  /-- It follows them, in a way nobody here understands. -/
  | unsupported
  /-- Samples are wider than 32 bits. -/
  | tooWide
deriving DecidableEq

def Error.kind : Error → String
  | .unreadable => "IoError"
  | .malformed => "FormatError"
  | .unsupported => "Unsupported"
  | .tooWide => "TooWide"

structure Format where
  channels : Nat
  rate : Nat
  /-- Bytes a sample takes. -/
  width : Nat
  /-- Bits of a sample that count. -/
  bits : Nat
  float : Bool
deriving DecidableEq

structure Cursor where
  data : Bytes
  position : Nat

/-- What reads something and moves on. -/
abbrev Reader (α : Type) := StateT Cursor (Except Error) α

def take (n : Nat) : Reader Bytes := fun c =>
  if c.data.size < c.position + n then .error .unreadable
  else .ok (c.data.extract c.position (c.position + n), { c with position := c.position + n })

/-- The number that bytes denote, least significant first. -/
def littleEndian (bytes : Bytes) : Nat := bytes.toList.foldr (fun b n => b.toNat + 256 * n) 0

/-- The next number of `n` bytes. -/
def word (n : Nat) : Reader Nat := do return littleEndian (← take n)

/-- Refuse the file for a reason unless a condition holds. -/
def ensure (ok : Bool) (e : Error) : Reader Unit := if ok then pure () else throw e

/-- Refuse the file as malformed unless a condition holds. -/
def check (ok : Bool) : Reader Unit := ensure ok .malformed

def tag (s : String) : Bytes := (s.toList.map fun c => c.toNat.toUInt8).toArray

/-- The tail that the known sample formats of an extensible header share. -/
def subformatTail : Bytes := #[0, 0, 0, 0, 0x10, 0, 0x80, 0, 0, 0xAA, 0, 0x38, 0x9B, 0x71]

/-- What follows the common part of a format chunk of plain integers. -/
def plainExtra (length : Nat) (f : Format) : Reader Format := do
  check (length = 16 || length = 18 || length = 40)
  if length ≠ 16 then
    let _ ← word 2
    check (f.bits = 8 || f.bits = 16 || f.bits = 24)
  if length = 40 then
    let _ ← take 22
  return f

/-- What follows the common part of a format chunk of floats. -/
def floatExtra (length : Nat) (f : Format) : Reader Format := do
  check (length = 16 || length = 18)
  if length = 18 then
    check ((← word 2) = 0)
  check (f.bits = 32)
  return { f with float := true }

/-- What follows the common part of an extensible format chunk. -/
def extensibleExtra (length : Nat) (f : Format) : Reader Format := do
  check (40 ≤ length)
  check ((← word 2) = 22)
  let valid ← word 2
  let _ ← word 4
  let kind ← word 2
  let tail ← take 14
  ensure ((kind = 1 || kind = 3) && tail = subformatTail) .unsupported
  return { f with float := kind = 3, bits := if 0 < valid then valid else f.bits }

def format (length : Nat) : Reader Format := do
  check (16 ≤ length)
  let kind ← word 2
  let channels ← word 2
  let rate ← word 4
  let byteRate ← word 4
  let blockAlign ← word 2
  let bits ← word 2
  check (channels ≠ 0)
  let width := blockAlign / channels
  check (width * 8 < UInt16.size && bits ≤ width * 8)
  check (byteRate = blockAlign * rate)
  check (bits % 8 = 0)
  check (bits ≠ 0)
  let f : Format := { channels, rate, width, bits, float := false }
  if kind = 1 then plainExtra length f
  else if kind = 3 then floatExtra length f
  else if kind = 0xFFFE then extensibleExtra length f
  else throw .unsupported

/-- Read chunks up to the body of the data chunk; answers the format and the length of the data. A
fact chunk is taken to hold one number. -/
def chunks : Nat → Option Format → Reader (Format × Nat)
  | 0, _ => throw .unreadable
  | fuel + 1, known => do
    let kind ← take 4
    let length ← word 4
    if kind = tag "fmt " then
      chunks fuel (some (← format length))
    else if kind = tag "fact" then
      fun c => match take 4 c with
        | .ok (_, c) => chunks fuel known c
        | .error _ => .error .unreadable
    else if kind = tag "data" then
      match known with
      | some f => return (f, length)
      | none => throw .malformed
    else
      let _ ← take length
      chunks fuel known

/-- Read everything in front of the samples. The data has to be whole frames. -/
def header (fuel : Nat) : Reader (Format × Nat) := do
  check ((← take 4) = tag "RIFF")
  let _ ← word 4
  check ((← take 4) = tag "WAVE")
  let (f, length) ← chunks fuel none
  check (length % f.width = 0)
  check (length / f.width % f.channels = 0)
  return (f, length)

end Handheld.Wav
