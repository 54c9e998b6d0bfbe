import Handheld.Audio.Resample
import Handheld.Wav.Header

/-!
# Recordings for the microphone

The first channel of a WAV file, brought to 16 bits and to the rate of the microphone.
-/

namespace Handheld

def micRate : Nat := 44100

namespace Wav

/-- The integer that `bits` low bits denote in two's complement. -/
def signed (bits n : Nat) : Int :=
  let n := n % Nat.pow 2 bits
  if n < Nat.pow 2 (bits - 1) then n else (n : Int) - Nat.pow 2 bits

/-- Bring an integer sample to 16 bits: wide ones keep their top bits, narrow ones are scaled up. -/
def narrow (sample : Int) (bits : Nat) : Int16 :=
  if 16 < bits then (Int32.ofInt sample >>> Int32.ofNat (bits - 16)).toInt16
  else (Int32.ofInt sample <<< Int32.ofNat (16 - bits)).toInt16

/-- Bring a float sample to 16 bits, cutting what is too loud. -/
def quantize (bits : UInt32) : Int16 :=
  let n := (Float32.ofBits bits * 32768).toInt32
  if n < -32768 then -32768 else if 32767 < n then 32767 else n.toInt16

def sample (f : Format) (stored : Nat) : Except Error Int16 :=
  if f.float then
    if f.width = 4 && f.bits = 32 then .ok (quantize stored.toUInt32)
    else if 4 < f.width then .error .tooWide
    else .error .unsupported
  else if f.width = 1 && f.bits = 8 then .ok (narrow ((stored : Int) - 128) 8)
  else if f.width = 2 && f.bits = 16 then .ok (narrow (signed 16 stored) 16)
  else if (f.width = 3 || f.width = 4) && f.bits = 24 then .ok (narrow (signed 24 stored) 24)
  else if f.width = 4 && f.bits = 32 then .ok (narrow (signed 32 stored) 32)
  else if 4 < f.width then .error .tooWide
  else .error .unsupported

/-- The first channel of so many frames, behind the samples already read. -/
def firstChannel (f : Format) (data : Bytes) : Nat → Nat → Array Int16 → Except Error (Array Int16)
  | 0, _, done => .ok done
  | n + 1, position, done => do
    -- Samples of an unknown kind are refused unread.
    let _ ← sample f 0
    if data.size < position + f.width then .error .unreadable
    else
      let s ← sample f (littleEndian (data.extract position (position + f.width)))
      firstChannel f data n (position + f.width * f.channels) (done.push s)

/-- Samples picked at the pace of a cursor, behind those already picked. -/
@[specialize] def pick {α : Type} [Scalar α] (samples : Array Int16) (step : α) :
    Nat → Resample.Cursor α → Array Int16 → Array Int16
  | 0, _, done => done
  | n + 1, c, done =>
    pick samples step n (c.advance step) (done.push (samples.getD (min c.index (samples.size - 1)) 0))

theorem size_pick {α : Type} [Scalar α] (samples : Array Int16) (step : α) (n : Nat)
    (c : Resample.Cursor α) (done : Array Int16) :
    (pick samples step n c done).size = done.size + n := by
  induction n generalizing c done with
  | zero => rfl
  | succ n ih =>
    rw [pick, ih, Array.size_push]
    omega

/-- How many samples a recording has at the microphone rate; it fills a frame at least. -/
def micLength (samples rate : Nat) : Nat := max (samples * micRate / max rate 1) micFrameLength

/-- Bring samples to the microphone rate, repeating and skipping as needed. -/
@[specialize] def toMicRate (α : Type) [Scalar α] (samples : Array Int16) (rate : Nat) :
    Array Int16 :=
  if samples.isEmpty then #[]
  else
    let n := micLength samples.size rate
    let step : α := Scalar.ofNat samples.size / Scalar.ofNat n
    pick samples step n ⟨0, Scalar.ofNat 0⟩ #[]

theorem size_toMicRate {α : Type} [Scalar α] {samples : Array Int16} (h : samples.isEmpty = false)
    (rate : Nat) : (toMicRate α samples rate).size = micLength samples.size rate := by
  rw [toMicRate, if_neg (by simp [h]), size_pick, Array.size_empty, Nat.zero_add]

/-- The samples of a WAV file, for the microphone. -/
def decode (data : Bytes) : Except Error (Array Int16) := do
  let ((f, length), c) ← (header (data.size + 1)).run ⟨data, 0⟩
  let samples ← firstChannel f data (length / f.width / f.channels) c.position #[]
  return toMicRate Float samples f.rate

def load (t : FileTree) (p : Path) : Except Error (Array Int16) :=
  match t.read p with
  | .ok data => decode data
  | .error _ => .error .unreadable

end Wav

end Handheld
