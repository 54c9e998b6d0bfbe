import Handheld.Audio.Scalar
import Handheld.Machine.Basic

/-!
# Linear resampling

A block of stereo frames is stretched or squeezed to a given length by a straight line between
neighbours, and scaled by a volume of which 256 is unity.
-/

namespace Handheld.Resample

variable {α : Type} [Scalar α]

/-- The read position in a block: the frame to the left, and how far on from it. -/
structure Cursor (α : Type) where
  index : Nat
  timer : α

/-- Whole frames that a timer has gained are moved into the index. -/
@[specialize] def Cursor.carry (c : Cursor α) : Cursor α :=
  if Scalar.less c.timer (Scalar.ofNat 1) then c
  else
    let whole := Scalar.floor c.timer
    ⟨c.index + Scalar.toWord whole, c.timer - whole⟩

@[specialize] def Cursor.advance (c : Cursor α) (step : α) : Cursor α :=
  Cursor.carry ⟨c.index, c.timer + step⟩

/-- The point at `timer` on the line from `a` to `b`. -/
@[specialize] def interpolate (a b : Int16) (timer : α) : α :=
  let x : α := Scalar.ofInt a.toInt
  let y : α := Scalar.ofInt b.toInt
  x + (y - x) * timer

/-- Scale by a volume; what leaves the range of samples is cut. -/
def scale (s : Int32) (volume : UInt16) : Int16 :=
  let scaled := (s * Int32.ofNat volume.toNat) >>> 8
  if scaled < -32768 then -32768
  else if 32767 < scaled then 32767
  else scaled.toInt16

/-- The frame at `timer` between two, at a volume. -/
@[specialize] def between (a b : StereoFrame) (timer : α) (volume : UInt16) : StereoFrame :=
  ⟨scale (Scalar.roundToInt32 (interpolate a.left b.left timer)) volume,
    scale (Scalar.roundToInt32 (interpolate a.right b.right timer)) volume⟩

/-- The output frame at a cursor. Past the end the last frame stands. -/
@[specialize] def frameAt (input : Array StereoFrame) (volume : UInt16) (c : Cursor α) : StereoFrame :=
  let last := input.size - 1
  let a := input.getD (min c.index last) .silence
  let b := input.getD (min (c.index + 1) last) .silence
  between a b c.timer volume

/-- So many output frames from a cursor on, behind those already made. -/
@[specialize] def frames (input : Array StereoFrame) (volume : UInt16) (step : α) :
    Nat → Cursor α → Array StereoFrame → Array StereoFrame
  | 0, _, done => done
  | n + 1, c, done =>
    frames input volume step n (c.advance step) (done.push (frameAt input volume c))

/-- Half a frame before the first. -/
def start : Cursor α := ⟨0, Scalar.ofInt (-1) / Scalar.ofNat 2⟩

/-- Resample a block to `n` frames; an empty one gives silence. -/
@[specialize] def block (α : Type) [Scalar α] (input : Array StereoFrame) (n : Nat) (volume : UInt16) :
    Array StereoFrame :=
  if input.isEmpty then Array.replicate n .silence
  else
    let step : α := Scalar.ofNat input.size / Scalar.ofNat n
    frames input volume step n start #[]

/-! ## Into a buffer -/

/-- The output frame at a cursor; `none` where the block has no frame to read. -/
@[specialize] def frameAt? (input : Array StereoFrame) (volume : UInt16) (c : Cursor α) :
    Option StereoFrame := do
  let last := input.size - 1
  let a ← input[min c.index last]?
  let b ← input[min (c.index + 1) last]?
  return between a b c.timer volume

/-- Write over the frames of a buffer, one after the other, from a cursor on. -/
@[specialize] def overwrite? (input : Array StereoFrame) (volume : UInt16) (step : α) :
    Cursor α → List StereoFrame → Option (List StereoFrame)
  | _, [] => some []
  | c, _ :: rest => do
    let frame ← frameAt? input volume c
    let rest ← overwrite? input volume step (c.advance step) rest
    return frame :: rest

/-- Resample a block over a buffer; `none` where a read leaves the block. -/
@[specialize] def into? (α : Type) [Scalar α] (input : Array StereoFrame) (out : List StereoFrame)
    (volume : UInt16) : Option (List StereoFrame) :=
  if input.isEmpty then some (out.map fun _ => .silence)
  else
    let step : α := Scalar.ofNat input.size / Scalar.ofNat out.length
    overwrite? input volume step start out

theorem frameAt?_eq {input : Array StereoFrame} (h : 0 < input.size) (volume : UInt16) (c : Cursor α) :
    frameAt? input volume c = some (frameAt input volume c) := by
  have hread (i : Nat) :
      input[min i (input.size - 1)]? = some (input.getD (min i (input.size - 1)) .silence) := by
    have hi : min i (input.size - 1) < input.size := by omega
    rw [Array.getElem?_eq_getElem hi, Array.getD, dif_pos hi]
    rfl
  simp only [frameAt?, hread]
  rfl

theorem overwrite?_eq {input : Array StereoFrame} (h : 0 < input.size) (volume : UInt16) (step : α)
    (c : Cursor α) (out : List StereoFrame) (done : Array StereoFrame) :
    (overwrite? input volume step c out).map (done.toList ++ ·) =
      some (frames input volume step out.length c done).toList := by
  induction out generalizing c done with
  | nil => simp [overwrite?, frames]
  | cons _ rest ih =>
    specialize ih (c.advance step) (done.push (frameAt input volume c))
    obtain ⟨tail, htail, heq⟩ := Option.map_eq_some_iff.mp ih
    simp [overwrite?, frameAt?_eq h, htail, frames, ← heq]

/-- What stood in the buffer is written over, all of it, and no read leaves the block. -/
theorem into?_eq (input : Array StereoFrame) (out : List StereoFrame) (volume : UInt16) :
    into? α input out volume = some (block α input out.length volume).toList := by
  unfold into? block
  split
  · simp [List.map_const']
  case isFalse h =>
    have hsize : 0 < input.size := by
      simpa [Array.isEmpty_iff, Array.size_pos_iff] using h
    simpa using overwrite?_eq hsize volume
      (Scalar.ofNat input.size / Scalar.ofNat out.length : α) start out #[]

end Handheld.Resample
