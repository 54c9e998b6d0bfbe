import Handheld.Device.Capture
import Mathlib.Algebra.Order.Ring.Int
import Mathlib.Data.List.Induction

/-!
# Captured frames are averaged exactly

The samples of a frame are added in 32 bits. As many of them as a device can have channels never
overflow (`toInt_sum32`), and their mean is a sample again (`toInt_meanSample`), so that what a frame is
mixed down to is its mean in exact arithmetic, cut toward zero (`downmix_takes_means`). There is not
much room left: 65535 channels at the lowest sample come within 32768 of the lowest number there is.
-/

namespace Handheld

def total (samples : List Int16) : Int := (samples.map Int16.toInt).sum

@[simp] theorem total_nil : total [] = 0 := rfl

@[simp] theorem total_concat (samples : List Int16) (s : Int16) :
    total (samples ++ [s]) = total samples + s.toInt := by
  simp [total]

@[simp] theorem sum32_concat (samples : List Int16) (s : Int16) :
    sum32 (samples ++ [s]) = sum32 samples + s.toInt32 := by
  simp [sum32]

theorem total_replicate (n : Nat) (s : Int16) : total (List.replicate n s) = n * s.toInt := by
  simp [total]

theorem total_between (samples : List Int16) :
    -32768 * samples.length ≤ total samples ∧ total samples ≤ 32767 * samples.length := by
  induction samples using List.reverseRecOn with
  | nil => simp
  | append_singleton samples s ih =>
    have hlow := s.le_toInt
    have hhigh := s.toInt_lt
    rw [total_concat, List.length_append, List.length_singleton]
    omega

theorem toInt_sum32 {samples : List Int16} (h : samples.length ≤ 65535) :
    (sum32 samples).toInt = total samples := by
  induction samples using List.reverseRecOn with
  | nil => rfl
  | append_singleton samples s ih =>
    have hbetween := total_between (samples ++ [s])
    rw [total_concat] at hbetween
    rw [List.length_append, List.length_singleton] at h hbetween
    rw [sum32_concat, total_concat, Int32.toInt_add, Int16.toInt_toInt32, ih (by omega),
      Int.bmod_eq_of_le (by omega) (by omega)]

theorem mean_between {samples : List Int16} (h : 1 ≤ samples.length) :
    -32768 ≤ (total samples).tdiv samples.length ∧ (total samples).tdiv samples.length ≤ 32767 := by
  obtain ⟨hlow, hhigh⟩ := total_between samples
  have hpos : (0 : Int) < samples.length := by omega
  constructor
  · calc (-32768 : Int) = (-32768 * (samples.length : Int)).tdiv samples.length :=
          (Int.mul_tdiv_cancel _ (by omega)).symm
      _ ≤ (total samples).tdiv samples.length := Int.tdiv_le_tdiv hpos hlow
  · calc (total samples).tdiv samples.length
        ≤ (32767 * (samples.length : Int)).tdiv samples.length := Int.tdiv_le_tdiv hpos hhigh
      _ = 32767 := Int.mul_tdiv_cancel _ (by omega)

theorem toInt_meanSample {samples : List Int16} (hsome : 1 ≤ samples.length)
    (h : samples.length ≤ 65535) :
    (meanSample samples).toInt = (total samples).tdiv samples.length := by
  have hcount : (Int32.ofNat samples.length).toInt = samples.length :=
    Int32.toInt_ofNat_of_lt (by omega)
  have hne : Int32.ofNat samples.length ≠ -1 := by
    intro heq
    rw [heq] at hcount
    have hminus : (-1 : Int32).toInt = -1 := rfl
    omega
  obtain ⟨hlow, hhigh⟩ := mean_between hsome
  rw [meanSample, Int32.toInt_toInt16, Int32.toInt_div_of_ne_right _ _ hne, toInt_sum32 h, hcount,
    Int.bmod_eq_of_le (by omega) (by omega)]

/-! ## Frames -/

theorem length_wholeFrames {α : Type} (size n : Nat) (xs : List α) :
    (wholeFrames size n xs).length = n := by
  induction n generalizing xs with
  | zero => rfl
  | succ n ih => simp [wholeFrames, ih]

theorem getElem?_wholeFrames {α : Type} (size : Nat) {n j : Nat} (hj : j < n) (xs : List α) :
    (wholeFrames size n xs)[j]? = some ((xs.drop (j * size)).take size) := by
  induction n generalizing j xs with
  | zero => omega
  | succ n ih =>
    cases j with
    | zero => simp [wholeFrames]
    | succ j =>
      rw [wholeFrames, List.getElem?_cons_succ, ih (by omega), List.drop_drop, Nat.succ_mul,
        Nat.add_comm size]

/-- Frame `j` of what was captured, as 16-bit samples. -/
def capturedFrame (f : SampleFormat) (size : Nat) (data : List DeviceSample) (j : Nat) : List Int16 :=
  ((data.drop (j * size)).take size).map (DeviceSample.toInt16 f)

theorem length_capturedFrame (f : SampleFormat) {size : Nat} {data : List DeviceSample} {j : Nat}
    (hj : j < data.length / size) : (capturedFrame f size data j).length = size := by
  have hend : (j + 1) * size ≤ data.length :=
    Nat.le_trans (Nat.mul_le_mul_right size hj) (Nat.div_mul_le_self ..)
  rw [Nat.succ_mul] at hend
  simp only [capturedFrame, List.length_map, List.length_take, List.length_drop]
  omega

theorem capturedFrame_replicate (f : SampleFormat) (size : Nat) (s : DeviceSample) :
    capturedFrame f size (List.replicate size s) 0 = List.replicate size (s.toInt16 f) := by
  simp [capturedFrame]

/-- A sample is the mean of a frame: adding up the frame never leaves 32 bits, on the way neither, and
dividing by the number of its samples never leaves 16. -/
structure IsMeanOf (frame : List Int16) (mean : Int16) : Prop where
  sums_exact : ∀ k, (sum32 (frame.take k)).toInt = total (frame.take k)
  sums_fit : ∀ k, -2 ^ 31 ≤ total (frame.take k) ∧ total (frame.take k) < 2 ^ 31
  mean_exact : mean.toInt = (total frame).tdiv frame.length
  mean_fits : -2 ^ 15 ≤ (total frame).tdiv frame.length ∧ (total frame).tdiv frame.length < 2 ^ 15

theorem isMeanOf_meanSample {frame : List Int16} (hsome : 1 ≤ frame.length)
    (h : frame.length ≤ 65535) : IsMeanOf frame (meanSample frame) := by
  have hsums (k : Nat) : (sum32 (frame.take k)).toInt = total (frame.take k) :=
    toInt_sum32 (Nat.le_trans (List.length_take_le' k frame) h)
  have hmean := toInt_meanSample hsome h
  constructor
  case sums_exact => exact hsums
  case sums_fit =>
    intro k
    rw [← hsums k]
    exact ⟨Int32.le_toInt _, Int32.toInt_lt _⟩
  case mean_exact => exact hmean
  case mean_fits =>
    rw [← hmean]
    exact ⟨Int16.le_toInt _, Int16.toInt_lt _⟩

/-- Whatever was captured on however many channels a device can have, there is one sample for each
whole frame, and it is the mean of that frame. -/
theorem downmix_takes_means (f : SampleFormat) {channels : Nat} (hchannels : channels ≤ 65535)
    (data : List DeviceSample) :
    (downmix f channels data).length = data.length / max channels 1 ∧
      ∀ j < data.length / max channels 1,
        (capturedFrame f (max channels 1) data j).length = max channels 1 ∧
        ∃ mean, (downmix f channels data)[j]? = some mean ∧
          IsMeanOf (capturedFrame f (max channels 1) data j) mean := by
  constructor
  · simp [downmix, length_wholeFrames]
  · intro j hj
    have hlength := length_capturedFrame f hj
    refine ⟨hlength, meanSample (capturedFrame f (max channels 1) data j), ?_, ?_⟩
    · rw [downmix, List.getElem?_map, getElem?_wholeFrames _ hj]
      rfl
    · apply isMeanOf_meanSample <;> omega

/-- The lowest sample on as many channels as there can be stays the lowest sample. -/
theorem downmix_takes_lowest_mean : 65535 ≤ 65535 ∧
    downmix .i16 65535 (List.replicate 65535 (.integer (-32768))) = [-32768] := by
  obtain ⟨hlength, hmeans⟩ := downmix_takes_means .i16 (Nat.le_refl 65535)
    (List.replicate 65535 (.integer (-32768)))
  rw [List.length_replicate] at hlength hmeans
  obtain ⟨mean, hmix⟩ := List.length_eq_one_iff.mp hlength
  obtain ⟨-, mean', hget, hmean⟩ := hmeans 0 (by decide)
  have hsame : mean = mean' := by
    rw [hmix] at hget
    simpa using hget
  have hlowest : mean'.toInt = (-32768 : Int16).toInt := by
    rw [hmean.mean_exact, show max 65535 1 = 65535 by decide, capturedFrame_replicate, total_replicate,
      List.length_replicate, Int.mul_tdiv_cancel_left _ (by decide)]
    rfl
  refine ⟨Nat.le_refl _, ?_⟩
  rw [hmix, hsame, Int16.toInt_inj.mp hlowest]

end Handheld
