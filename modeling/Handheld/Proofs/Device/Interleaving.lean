import Handheld.Device.Output
import Handheld.Proofs.Audio.Rendering
import Handheld.Proofs.Device.Downmixing

/-!
# Every sample of a device buffer is written

A device hands over a buffer of any length with whatever was in it. What comes back depends on its
length alone (`interleave_eq`): one device frame after the other, and behind the last whole one silence.
`interleave_fills_buffer` says which sample stands where.
-/

namespace Handheld

theorem getElem?_flatMap_mul_add {α β : Type} {g : α → List β} {size : Nat}
    (hsize : ∀ a, (g a).length = size) {xs : List α} {j : Nat} {a : α} (hj : xs[j]? = some a) {i : Nat}
    (hi : i < size) : (xs.flatMap g)[j * size + i]? = (g a)[i]? := by
  induction xs generalizing j with
  | nil => simp at hj
  | cons x xs ih =>
    have hfirst := hsize x
    rw [List.flatMap_cons]
    cases j with
    | zero =>
      rw [List.getElem?_cons_zero, Option.some_inj] at hj
      rw [List.getElem?_append_left (by omega), Nat.zero_mul, Nat.zero_add, hj]
    | succ j =>
      have hplace : (j + 1) * size + i = (g x).length + (j * size + i) := by
        rw [Nat.succ_mul]
        omega
      rw [hplace, List.getElem?_append_right (by omega), Nat.add_sub_cancel_left]
      exact ih hj

/-! ## A device frame -/

theorem midpoint_eq_meanSample (a b : Int16) : midpoint a b = meanSample [a, b] := by
  simp [midpoint, meanSample, sum32]

theorem toInt_midpoint (a b : Int16) : (midpoint a b).toInt = (a.toInt + b.toInt).tdiv 2 := by
  rw [midpoint_eq_meanSample, toInt_meanSample (by simp) (by simp)]
  simp [total]

/-- What a stereo frame sounds like on a device with so many channels. -/
def StereoFrame.across (f : SampleFormat) (channels : Nat) (frame : StereoFrame) : List DeviceSample :=
  if channels = 1 then [.ofInt16 f (midpoint frame.left frame.right)]
  else .ofInt16 f frame.left :: .ofInt16 f frame.right :: List.replicate (channels - 2) (.equilibrium f)

variable (f : SampleFormat) {channels : Nat}

theorem length_across (hchannels : 1 ≤ channels) (frame : StereoFrame) :
    (frame.across f channels).length = channels := by
  unfold StereoFrame.across
  split
  · next hone => rw [List.length_singleton, hone]
  · rw [List.length_cons, List.length_cons, List.length_replicate]
    omega

theorem spread_eq (frame : StereoFrame) {front : List DeviceSample} (hfront : 1 ≤ front.length) :
    spread f frame front = frame.across f front.length := by
  match front, hfront with
  | [_], _ => rfl
  | _ :: _ :: rest, _ => simp [spread, StereoFrame.across, List.map_const']

/-! ## A buffer -/

theorem overwrite_eq (hchannels : 1 ≤ channels) {frames : List StereoFrame}
    {buffer : List DeviceSample} (hroom : frames.length * channels ≤ buffer.length) :
    overwrite f channels frames buffer =
      frames.flatMap (·.across f channels) ++ buffer.drop (frames.length * channels) := by
  induction frames generalizing buffer with
  | nil => simp [overwrite]
  | cons frame frames ih =>
    rw [List.length_cons, Nat.succ_mul] at hroom ⊢
    have hfront : (buffer.take channels).length = channels := by
      rw [List.length_take]
      omega
    have hrest : frames.length * channels ≤ (buffer.drop channels).length := by
      rw [List.length_drop]
      omega
    rw [overwrite, if_neg (by omega), spread_eq f frame (by omega), hfront, ih hrest, List.drop_drop,
      List.flatMap_cons, List.append_assoc, Nat.add_comm channels]

theorem length_flatMap_across (hchannels : 1 ≤ channels) (frames : List StereoFrame) :
    (frames.flatMap (·.across f channels)).length = frames.length * channels := by
  simp [List.length_flatMap, length_across f hchannels, List.map_const']

theorem interleave_eq (hchannels : 1 ≤ channels) {frames : List StereoFrame}
    {buffer : List DeviceSample} (hroom : frames.length * channels ≤ buffer.length) :
    interleave f channels frames buffer = frames.flatMap (·.across f channels) ++
      List.replicate (buffer.length - frames.length * channels) (.equilibrium f) := by
  have hlength := length_flatMap_across f hchannels frames
  rw [interleave, if_neg (by omega), silenceFrom, overwrite_eq f hchannels hroom,
    ← hlength, List.take_left, List.drop_left, List.map_const', List.length_drop]

/-- What a buffer of `n` samples holds in which stereo frames are spread over the channels of a device:
the middle of both sides where there is one channel only, else both sides and silence on the channels
past them, and silence behind the last frame. -/
structure Interleaved (f : SampleFormat) (channels : Nat) (frames : List StereoFrame) (n : Nat)
    (out : List DeviceSample) : Prop where
  length : out.length = n
  middle : channels = 1 → ∀ (j : Nat) frame, frames[j]? = some frame → ∃ mean : Int16,
    mean.toInt = (frame.left.toInt + frame.right.toInt).tdiv 2 ∧ out[j]? = some (.ofInt16 f mean)
  left : 2 ≤ channels → ∀ (j : Nat) frame, frames[j]? = some frame →
    out[j * channels]? = some (.ofInt16 f frame.left)
  right : 2 ≤ channels → ∀ (j : Nat) frame, frames[j]? = some frame →
    out[j * channels + 1]? = some (.ofInt16 f frame.right)
  further : ∀ j < frames.length, ∀ i < channels, 2 ≤ i →
    out[j * channels + i]? = some (.equilibrium f)
  behind : ∀ k < n, frames.length * channels ≤ k → out[k]? = some (.equilibrium f)

theorem interleaved_of_room (hchannels : 1 ≤ channels) {frames : List StereoFrame}
    {buffer : List DeviceSample} (hroom : frames.length * channels ≤ buffer.length) :
    Interleaved f channels frames buffer.length (interleave f channels frames buffer) := by
  have hlength := length_flatMap_across f hchannels frames
  have hinside {j : Nat} {frame : StereoFrame} (hj : frames[j]? = some frame) {i : Nat}
      (hi : i < channels) :
      (interleave f channels frames buffer)[j * channels + i]? = (frame.across f channels)[i]? := by
    obtain ⟨hlt, -⟩ := List.getElem?_eq_some_iff.mp hj
    have hnext : (j + 1) * channels ≤ frames.length * channels := Nat.mul_le_mul_right _ hlt
    rw [Nat.succ_mul] at hnext
    rw [interleave_eq f hchannels hroom, List.getElem?_append_left (by omega),
      getElem?_flatMap_mul_add (length_across f hchannels) hj hi]
  constructor
  case length =>
    rw [interleave_eq f hchannels hroom, List.length_append, hlength, List.length_replicate]
    omega
  case middle =>
    rintro rfl j frame hj
    refine ⟨midpoint frame.left frame.right, toInt_midpoint .., ?_⟩
    simpa [StereoFrame.across] using hinside hj Nat.one_pos
  case left =>
    intro htwo j frame hj
    simpa [StereoFrame.across, show channels ≠ 1 by omega] using hinside hj (i := 0) (by omega)
  case right =>
    intro htwo j frame hj
    simpa [StereoFrame.across, show channels ≠ 1 by omega] using hinside hj (i := 1) (by omega)
  case further =>
    intro j hj i hi htwo
    obtain ⟨i, rfl⟩ : ∃ i', i = i' + 2 := ⟨i - 2, by omega⟩
    rw [hinside (List.getElem?_eq_getElem hj) hi, StereoFrame.across, if_neg (by omega)]
    simp only [List.getElem?_cons_succ]
    exact List.getElem?_replicate_of_lt (by omega)
  case behind =>
    intro k hk hbehind
    rw [interleave_eq f hchannels hroom, List.getElem?_append_right (by omega), hlength]
    exact List.getElem?_replicate_of_lt (by omega)

theorem room_of_length {frames : List StereoFrame} {buffer : List DeviceSample}
    (hframes : frames.length = buffer.length / channels) :
    frames.length * channels ≤ buffer.length := by
  rw [hframes]
  exact Nat.div_mul_le_self ..

/-- **A buffer is written from end to end** where as many frames are rendered as it has whole device
frames: every sample of it is what `Interleaved` says, and nothing of what it held before is left. -/
theorem interleave_fills_buffer (hchannels : 1 ≤ channels) (frames : List StereoFrame)
    (buffer : List DeviceSample) (hframes : frames.length = buffer.length / channels) :
    Interleaved f channels frames buffer.length (interleave f channels frames buffer) ∧
      ∀ stale : List DeviceSample, stale.length = buffer.length →
        interleave f channels frames stale = interleave f channels frames buffer := by
  have hroom := room_of_length hframes
  refine ⟨interleaved_of_room f hchannels hroom, ?_⟩
  intro stale hstale
  rw [interleave_eq f hchannels hroom, interleave_eq f hchannels (by omega), hstale]

/-- Two frames on three channels, in a buffer that ends within a third. -/
theorem interleave_fills_partial_frame :
    let frames : List StereoFrame := [⟨100, -100⟩, ⟨200, -200⟩]
    let buffer : List DeviceSample := List.replicate 8 (.integer 7)
    (1 ≤ 3 ∧ frames.length = buffer.length / 3) ∧
      Interleaved .u16 3 frames 8 (interleave .u16 3 frames buffer) ∧
      (interleave .u16 3 frames buffer)[7]? = some (.integer 32768) := by
  intro frames buffer
  obtain ⟨hfilled, -⟩ := interleave_fills_buffer .u16 (show 1 ≤ 3 by decide) frames buffer (by decide)
  exact ⟨⟨by decide, by decide⟩, hfilled, hfilled.behind 7 (by decide) (by decide)⟩

theorem OutputDevice.callback_fills_buffer (o : OutputDevice) (p : Pipeline)
    (buffer : List DeviceSample) (hchannels : 1 ≤ o.stream.shape.channels) :
    Interleaved o.stream.shape.format o.stream.shape.channels
      (p.render o.renderer (buffer.length / o.stream.shape.channels)).1 buffer.length
      (o.callback p buffer).1 := by
  have hlength := p.length_render o.renderer (buffer.length / o.stream.shape.channels)
  rw [callback, Nat.max_eq_left hchannels]
  exact interleaved_of_room _ hchannels (room_of_length hlength)

end Handheld
