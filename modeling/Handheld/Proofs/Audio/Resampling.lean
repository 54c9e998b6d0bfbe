import Handheld.Proofs.Audio.Rendering
import Handheld.Proofs.Audio.Scalars

/-!
# What a resampled block stays within

Between two frames a resampled block stays within them: the machine's interpolation rounds to nothing
beyond the line between the two (`denotes_interpolate`), and the rounding to a sample and the scaling
keep the order (`exactSample_mono`). But a block starts half a frame before its first one, on the line
through the first two carried on. `block_in_range_iff` says when this leaves the range of the samples:
the first output frame decides it, for those that follow are nearer to the first frame of the block.
-/

namespace Handheld

open Binary64 Scalar

inductive Side where
  | left
  | right
deriving DecidableEq

def StereoFrame.on (f : StereoFrame) : Side → Int16
  | .left => f.left
  | .right => f.right

/-! ## The nearest integer -/

namespace Scalar

theorem halfAway_intCast (n : ℤ) : halfAway n = n := by
  unfold halfAway
  split
  · rw [neg_eq_iff_eq_neg, Int.floor_eq_iff]
    push_cast
    exact ⟨by linarith, by linarith⟩
  · rw [Int.floor_eq_iff]
    exact ⟨by linarith, by linarith⟩

theorem halfAway_mono {p q : ℚ} (h : p ≤ q) : halfAway p ≤ halfAway q := by
  unfold halfAway
  split
  · next hp =>
    split
    · exact neg_le_neg (Int.floor_le_floor (by linarith))
    · next hq =>
      have hlow : 0 ≤ ⌊1 / 2 - p⌋ := Int.floor_nonneg.mpr (by linarith)
      have hhigh : 0 ≤ ⌊q + 1 / 2⌋ := Int.floor_nonneg.mpr (by linarith)
      omega
  · next hp =>
    rw [if_neg (by linarith)]
    exact Int.floor_le_floor (by linarith)

theorem le_halfAway {n : ℤ} {q : ℚ} (h : n ≤ q) : n ≤ halfAway q :=
  (halfAway_intCast n).symm.trans_le (halfAway_mono h)

theorem halfAway_le {n : ℤ} {q : ℚ} (h : q ≤ n) : halfAway q ≤ n :=
  (halfAway_mono h).trans_eq (halfAway_intCast n)

end Scalar

namespace Resample

/-! ## Volumes -/

/-- Scale a sample by a volume in exact arithmetic; what leaves the range of samples is cut. -/
def scaled (n : ℤ) (volume : UInt16) : ℤ := max (-32768) (min 32767 ((n * volume.toNat) >>> (8 : ℕ)))

theorem shiftRight_eight (n : ℤ) : n >>> (8 : ℕ) = n / 256 := by
  rw [Int.shiftRight_eq_div_pow]
  norm_num

theorem toInt_shiftRight_eight (n : Int32) : (n >>> 8).toInt = n.toInt >>> (8 : ℕ) := by
  have hshift : (8 : Int32).toBitVec.smod 32 = 8#32 := by decide
  show (n.toBitVec.sshiftRight' ((8 : Int32).toBitVec.smod 32)).toInt = _
  rw [hshift, BitVec.sshiftRight', BitVec.toInt_sshiftRight]
  rfl

theorem toInt_cut (m : Int32) :
    (if m < -32768 then -32768 else if 32767 < m then 32767 else m.toInt16 : Int16).toInt =
      max (-32768) (min 32767 m.toInt) := by
  have hbelow : m < -32768 ↔ m.toInt < -32768 := Int32.lt_iff_toInt_lt
  have habove : 32767 < m ↔ 32767 < m.toInt := Int32.lt_iff_toInt_lt
  split
  · next h =>
    have := hbelow.mp h
    show (-32768 : ℤ) = _
    omega
  · next h =>
    have := mt hbelow.mpr h
    split
    · next h' =>
      have := habove.mp h'
      show (32767 : ℤ) = _
      omega
    · next h' =>
      have := mt habove.mpr h'
      rw [Int32.toInt_toInt16, Int.bmod_eq_of_le (by omega) (by omega)]
      omega

theorem toInt_scale {n : ℤ} (hn : |n| ≤ 2 ^ 17) {volume : UInt16} (hvolume : volume ≤ 256) :
    (scale (.ofIntClamp n) volume).toInt = scaled n volume := by
  obtain ⟨hlow, hhigh⟩ := abs_le.mp hn
  have hvolume : volume.toNat ≤ 256 := hvolume
  have hword : (Int32.ofIntClamp n).toInt = n :=
    Int32.toInt_ofIntClamp (by show -2147483648 ≤ n; omega) (by show n ≤ 2147483647; omega)
  have hproduct_low : -(2 ^ 25) ≤ n * volume.toNat := by nlinarith
  have hproduct_high : n * volume.toNat ≤ 2 ^ 25 := by nlinarith
  have hproduct : (Int32.ofIntClamp n * Int32.ofNat volume.toNat).toInt = n * volume.toNat := by
    rw [Int32.toInt_mul, hword, Int32.toInt_ofNat_of_lt (by omega), Int.bmod_eq_of_le (by omega) (by omega)]
  rw [scale, toInt_cut, toInt_shiftRight_eight, hproduct, scaled]

theorem scaled_mono {m n : ℤ} (h : m ≤ n) (volume : UInt16) : scaled m volume ≤ scaled n volume := by
  have hproduct : m * volume.toNat ≤ n * volume.toNat := Int.mul_le_mul_of_nonneg_right h (by omega)
  unfold scaled
  rw [shiftRight_eight, shiftRight_eight]
  omega

theorem scaled_sample (s : Int16) {volume : UInt16} (hvolume : volume ≤ 256) :
    scaled s.toInt volume = (s.toInt * volume.toNat) >>> (8 : ℕ) := by
  have hvolume : volume.toNat ≤ 256 := hvolume
  have hlow := s.le_toInt
  have hhigh := s.toInt_lt
  have hproduct_low : -8388608 ≤ s.toInt * volume.toNat := by nlinarith
  have hproduct_high : s.toInt * volume.toNat < 8388608 := by nlinarith
  unfold scaled
  rw [shiftRight_eight]
  omega

/-! ## Lines -/

/-- The point at `t` on the line through two samples. -/
def line (a b : Int16) (t : ℚ) : ℚ := a.toInt + (b.toInt - a.toInt : ℤ) * t

theorem abs_sub_toInt_le (a b : Int16) : |b.toInt - a.toInt| ≤ 65535 := by
  have ha := a.le_toInt
  have ha' := a.toInt_lt
  have hb := b.le_toInt
  have hb' := b.toInt_lt
  exact abs_le.mpr ⟨by omega, by omega⟩

theorem denotes_sample (s : Int16) : Denotes (Scalar.ofInt s.toInt : Float) s.toInt := by
  have hlow := s.le_toInt
  have hhigh := s.toInt_lt
  exact denotes_ofInt (by omega)

theorem denotes_difference (a b : Int16) :
    Denotes (Scalar.ofInt b.toInt - Scalar.ofInt a.toInt : Float) (b.toInt - a.toInt : ℤ) := by
  have hbound := abs_sub_toInt_le a b
  have hlimit : |(b.toInt : ℚ) - a.toInt| ≤ limit := by
    refine le_trans ?_ (two_pow_le_limit (n := 16) (by norm_num))
    exact_mod_cast hbound.trans (by norm_num)
  obtain ⟨r, hr, hfaithful⟩ := (denotes_sample b).sub (denotes_sample a) hlimit
  rw [← Int.cast_sub] at hfaithful
  rwa [hfaithful.eq (representable_intCast (hbound.trans_lt (by norm_num)))] at hr

/-- The points at half steps near two samples, and their distances from the first, are numbers of the
format. -/
theorem representable_at_half (a b : Int16) {j : ℤ} (hj : |j| ≤ 2) :
    Representable ((b.toInt - a.toInt : ℤ) * (j / 2)) ∧ Representable (line a b (j / 2)) := by
  have ha := a.le_toInt
  have ha' := a.toInt_lt
  have hbound := abs_sub_toInt_le a b
  unfold line
  generalize b.toInt - a.toInt = d at *
  obtain ⟨hlow, hhigh⟩ := abs_le.mp hj
  obtain ⟨hdlow, hdhigh⟩ := abs_le.mp hbound
  have hproduct : |d * j| ≤ 131070 := abs_le.mpr ⟨by nlinarith, by nlinarith⟩
  obtain ⟨hproduct_low, hproduct_high⟩ := abs_le.mp hproduct
  have hdistance : (d : ℚ) * (j / 2) = (d * j : ℤ) / 2 := by
    push_cast
    ring
  have hpoint : (a.toInt : ℚ) + d * (j / 2) = (2 * a.toInt + d * j : ℤ) / 2 := by
    push_cast
    ring
  rw [hpoint, hdistance]
  exact ⟨representable_half (abs_lt.mpr ⟨by omega, by omega⟩),
    representable_half (abs_lt.mpr ⟨by omega, by omega⟩)⟩

theorem mul_between {d t u v : ℚ} (hut : u ≤ t) (htv : t ≤ v) :
    min (d * u) (d * v) ≤ d * t ∧ d * t ≤ max (d * u) (d * v) := by
  rcases le_total 0 d with hd | hd
  · exact ⟨min_le_of_left_le (mul_le_mul_of_nonneg_left hut hd),
      le_max_of_le_right (mul_le_mul_of_nonneg_left htv hd)⟩
  · exact ⟨min_le_of_right_le (mul_le_mul_of_nonpos_left htv hd),
      le_max_of_le_left (mul_le_mul_of_nonpos_left hut hd)⟩

theorem abs_line_le (a b : Int16) {t : ℚ} (ht : |t| ≤ 1) : |line a b t| ≤ 2 ^ 17 := by
  have hfirst : |(a.toInt : ℚ)| ≤ 2 ^ 15 := by
    have hlow := a.le_toInt
    have hhigh := a.toInt_lt
    exact_mod_cast (abs_le.mpr ⟨by omega, by omega⟩ : |a.toInt| ≤ 2 ^ 15)
  have hdifference : |((b.toInt - a.toInt : ℤ) : ℚ)| ≤ 65535 := by exact_mod_cast abs_sub_toInt_le a b
  calc |line a b t| ≤ |(a.toInt : ℚ)| + |((b.toInt - a.toInt : ℤ) : ℚ) * t| := abs_add_le _ _
    _ ≤ 2 ^ 15 + 65535 := by
      rw [abs_mul]
      exact add_le_add hfirst ((mul_le_of_le_one_right (abs_nonneg _) ht).trans hdifference)
    _ ≤ 2 ^ 17 := by norm_num

theorem abs_half_le {j : ℤ} (hj : |j| ≤ 2) : |(j / 2 : ℚ)| ≤ 1 := by
  have hjq : |(j : ℚ)| ≤ 2 := by exact_mod_cast hj
  rw [abs_div, abs_of_pos (two_pos : (0 : ℚ) < 2)]
  linarith

theorem abs_le_of_mem_line {a b : Int16} {j k : ℤ} (hj : |j| ≤ 2) (hk : |k| ≤ 2) {z : ℚ}
    (hz : z ∈ Set.uIcc (line a b (j / 2)) (line a b (k / 2))) : |z| ≤ 2 ^ 17 :=
  abs_le.mpr (Set.uIcc_subset_Icc (abs_le.mp (abs_line_le a b (abs_half_le hj)))
    (abs_le.mp (abs_line_le a b (abs_half_le hk))) hz)

/-- The machine's interpolation at a place between two half steps stays between the points there. -/
theorem denotes_interpolate (a b : Int16) {timer : Float} {t : ℚ} (ht : Denotes timer t) {j k : ℤ}
    (hj : |j| ≤ 2) (hk : |k| ≤ 2) (hjt : (j / 2 : ℚ) ≤ t) (htk : t ≤ (k / 2 : ℚ)) :
    ∃ z, Denotes (interpolate a b timer) z ∧ z ∈ Set.uIcc (line a b (j / 2)) (line a b (k / 2)) := by
  obtain ⟨hjstep, hjpoint⟩ := representable_at_half a b hj
  obtain ⟨hkstep, hkpoint⟩ := representable_at_half a b hk
  have hlimit : (2 : ℚ) ^ 16 ≤ limit := two_pow_le_limit (by norm_num)
  have hdifference : |((b.toInt - a.toInt : ℤ) : ℚ)| ≤ 2 ^ 16 := by
    exact_mod_cast (abs_sub_toInt_le a b).trans (by norm_num)
  have htbound : |t| ≤ 1 :=
    abs_le.mpr ⟨(abs_le.mp (abs_half_le hj)).1.trans hjt, htk.trans (abs_le.mp (abs_half_le hk)).2⟩
  have hproduct : |((b.toInt - a.toInt : ℤ) : ℚ) * t| ≤ limit := by
    rw [abs_mul]
    exact (mul_le_of_le_one_right (abs_nonneg _) htbound).trans (hdifference.trans hlimit)
  obtain ⟨p, hp, hfaithful⟩ := (denotes_difference a b).mul ht hproduct
  -- each rounding keeps to the bounds, since these are numbers of the format
  obtain ⟨hlow, hhigh⟩ := hfaithful.between (hjstep.min hkstep) (hjstep.max hkstep) (mul_between hjt htk)
  have hsum : (a.toInt : ℚ) + p ∈ Set.uIcc (line a b (j / 2)) (line a b (k / 2)) := by
    unfold line
    rw [Set.uIcc, min_add_add_left, max_add_add_left]
    exact ⟨by gcongr, by gcongr⟩
  have hsum_bound : |(a.toInt : ℚ) + p| ≤ limit :=
    (abs_le_of_mem_line hj hk hsum).trans (two_pow_le_limit (n := 17) (by norm_num))
  obtain ⟨z, hz, hfaithful'⟩ := (denotes_sample a).add hp hsum_bound
  exact ⟨z, hz, hfaithful'.between (hjpoint.min hkpoint) (hjpoint.max hkpoint) hsum⟩

/-! ## Cursors -/

/-- A cursor is at most half a frame before the first one, and otherwise less than one beyond its index. -/
structure Stays (c : Cursor Float) (t : ℚ) : Prop where
  denotes : Denotes c.timer t
  low : -1 / 2 ≤ t
  high : t < 1
  first : t < 0 → c.index = 0

theorem denotes_one : Denotes (Scalar.ofNat 1 : Float) 1 := by
  have hone := denotes_floatOfWord_of_lt (n := 1) (by norm_num)
  rw [Nat.cast_one] at hone
  exact hone

theorem less_one_iff {c : Cursor Float} {t : ℚ} (ht : Denotes c.timer t) :
    Scalar.less c.timer (Scalar.ofNat 1) = true ↔ t < 1 := by
  show decide (c.timer < _) = true ↔ _
  rw [decide_eq_true_iff, ht.lt_iff denotes_one]

theorem stays_start : Stays start (-1 / 2) where
  denotes := by
    have hhalf := denotes_div_two (denotes_ofInt (n := -1) (by norm_num)) (by norm_num)
    rwa [Int.cast_neg, Int.cast_one] at hhalf
  low := le_rfl
  high := by norm_num
  first _ := rfl

theorem Stays.carry {c : Cursor Float} {t : ℚ} (ht : Denotes c.timer t) (hlow : -1 / 2 ≤ t)
    (hfirst : t < 0 → c.index = 0) : ∃ t', Stays c.carry t' := by
  have hless := less_one_iff ht
  unfold Cursor.carry
  split
  · next h => exact ⟨t, ht, hlow, hless.mp h, hfirst⟩
  · next h =>
    have hone : 1 ≤ t := not_lt.mp (mt hless.mpr h)
    have hfract := Int.fract_nonneg t
    have hr := denotes_sub_floor ht (denotes_floatFloor ht) (by linarith)
    exact ⟨Int.fract t, hr, by linarith, Int.fract_lt_one t, fun h => absurd h (not_lt.mpr hfract)⟩

theorem Stays.advance {c : Cursor Float} {t : ℚ} (h : Stays c t) {step : Float} {s : ℚ}
    (hstep : Denotes step s) (hs : 0 ≤ s) (hword : s ≤ 2 ^ 64) : ∃ t', Stays (c.advance step) t' := by
  have hlow := h.low
  have hhigh := h.high
  have hlimit : |t + s| ≤ limit := by
    refine le_trans ?_ (two_pow_le_limit (n := 65) (by norm_num))
    exact abs_le.mpr ⟨by linarith, by linarith⟩
  obtain ⟨r, hr, hfaithful⟩ := h.denotes.add hstep hlimit
  have hforward : t ≤ r := hfaithful.ge h.denotes.representable (by linarith)
  exact Stays.carry hr (hlow.trans hforward) fun hneg => h.first (hforward.trans_lt hneg)

theorem denotes_step {size n : ℕ} (hsize : size < 2 ^ 64) (hn : n < 2 ^ 64) (hpos : 0 < n) :
    ∃ s, Denotes (Scalar.ofNat size / Scalar.ofNat n : Float) s ∧ 0 ≤ s ∧ s ≤ 2 ^ 64 := by
  have hword : Representable (2 ^ 64) := by
    exact_mod_cast representable_two_zpow (e := 64) (by decide)
  have hone : Representable 1 := by simpa using representable_intCast (n := 1) (by norm_num)
  obtain ⟨p, hp, hfaithful⟩ := denotes_floatOfWord hsize
  obtain ⟨q, hq, hfaithful'⟩ := denotes_floatOfWord hn
  obtain ⟨hp_nonneg, hp_le⟩ := hfaithful.between representable_zero hword
    ⟨Nat.cast_nonneg _, by exact_mod_cast hsize.le⟩
  have hq_ge : 1 ≤ q := hfaithful'.ge hone (by exact_mod_cast hpos)
  have hquotient : 0 ≤ p / q ∧ p / q ≤ 2 ^ 64 :=
    ⟨div_nonneg hp_nonneg (by linarith), (div_le_self hp_nonneg hq_ge).trans hp_le⟩
  have hlimit : |p / q| ≤ limit := by
    rw [abs_of_nonneg hquotient.1]
    exact hquotient.2.trans (two_pow_le_limit (by norm_num))
  obtain ⟨s, hs, hfaithful''⟩ := Denotes.div hp hq (by linarith) hlimit
  exact ⟨s, hs, hfaithful''.between representable_zero hword hquotient⟩

theorem Stays.timer_neg_iff {c : Cursor Float} {t : ℚ} (h : Stays c t) :
    c.timer < Scalar.ofNat 0 ↔ t < 0 := by
  have hzero : Denotes (Scalar.ofNat 0 : Float) (0 : ℕ) := denotes_floatOfWord_of_lt (by norm_num)
  simpa using h.denotes.lt_iff hzero

/-! ## Blocks -/

def cursor (input : Array StereoFrame) (n k : ℕ) : Cursor Float :=
  (fun c => c.advance (Scalar.ofNat input.size / Scalar.ofNat n))^[k] start

theorem toList_frames {α : Type} [Scalar α] (input : Array StereoFrame) (volume : UInt16) (step : α)
    (n : ℕ) (c : Cursor α) (done : Array StereoFrame) :
    (frames input volume step n c done).toList =
      done.toList ++ (List.range n).map fun k => frameAt input volume ((fun c => c.advance step)^[k] c) := by
  induction n generalizing c done with
  | zero => simp [frames]
  | succ n ih =>
    rw [frames, ih, List.range_succ_eq_map]
    simp [Function.comp_def]

theorem toList_block {input : Array StereoFrame} (hinput : 0 < input.size) (n : ℕ) (volume : UInt16) :
    (block Float input n volume).toList =
      (List.range n).map fun k => frameAt input volume (cursor input n k) := by
  have hsome : ¬input.isEmpty = true := by
    rw [Array.isEmpty_iff_size_eq_zero]
    omega
  rw [block, if_neg hsome, toList_frames]
  rfl

theorem stays_cursor {input : Array StereoFrame} (hsize : input.size < 2 ^ 64) {n : ℕ} (hn : n < 2 ^ 64)
    (hpos : 0 < n) (k : ℕ) : ∃ t, Stays (cursor input n k) t := by
  obtain ⟨s, hs, hnonneg, hword⟩ := denotes_step hsize hn hpos
  induction k with
  | zero => exact ⟨_, stays_start⟩
  | succ k ih =>
    obtain ⟨t, ht⟩ := ih
    rw [cursor, Function.iterate_succ_apply']
    exact ht.advance hs hnonneg hword

/-- The frame at an index; behind the end the last one is held. -/
def heldFrame (input : Array StereoFrame) (index : ℕ) : StereoFrame :=
  input.getD (min index (input.size - 1)) .silence

theorem on_frameAt (input : Array StereoFrame) (volume : UInt16) (c : Cursor Float) (side : Side) :
    (frameAt input volume c).on side =
      scale (Scalar.roundToInt32 (interpolate ((heldFrame input c.index).on side)
        ((heldFrame input (c.index + 1)).on side) c.timer)) volume := by
  cases side <;> rfl

theorem heldFrame_mem {input : Array StereoFrame} (hinput : 0 < input.size) (index : ℕ) :
    heldFrame input index ∈ input := by
  have hlt : min index (input.size - 1) < input.size := by omega
  rw [heldFrame, Array.getD, dif_pos hlt]
  exact Array.getElem_mem hlt

def samples (input : Array StereoFrame) (side : Side) : List ℤ :=
  input.toList.map fun f => (f.on side).toInt

def least (input : Array StereoFrame) (side : Side) : ℤ := (samples input side).min?.getD 0

def greatest (input : Array StereoFrame) (side : Side) : ℤ := (samples input side).max?.getD 0

/-- A number is within the scaled samples of a channel. -/
def InRange (input : Array StereoFrame) (volume : UInt16) (side : Side) (n : ℤ) : Prop :=
  (least input side * volume.toNat) >>> (8 : ℕ) ≤ n ∧
    n ≤ (greatest input side * volume.toNat) >>> (8 : ℕ)

instance (input : Array StereoFrame) (volume : UInt16) (side : Side) (n : ℤ) :
    Decidable (InRange input volume side n) :=
  inferInstanceAs (Decidable (_ ∧ _))

theorem on_mem_samples {input : Array StereoFrame} {f : StereoFrame} (hf : f ∈ input) (side : Side) :
    (f.on side).toInt ∈ samples input side :=
  List.mem_map_of_mem (Array.mem_def.mp hf)

section Bounds

variable {input : Array StereoFrame} (hinput : 0 < input.size) (side : Side)
include hinput

theorem samples_ne_nil : samples input side ≠ [] := by
  rw [samples, ne_eq, List.map_eq_nil_iff, Array.toList_eq_nil_iff]
  exact Array.size_pos_iff.mp hinput

theorem least_spec :
    least input side ∈ samples input side ∧ ∀ s ∈ samples input side, least input side ≤ s := by
  obtain ⟨m, hm⟩ := Option.ne_none_iff_exists'.mp (mt List.min?_eq_none_iff.mp (samples_ne_nil hinput side))
  rw [least, hm]
  exact List.min?_eq_some_iff.mp hm

theorem greatest_spec :
    greatest input side ∈ samples input side ∧ ∀ s ∈ samples input side, s ≤ greatest input side := by
  obtain ⟨m, hm⟩ := Option.ne_none_iff_exists'.mp (mt List.max?_eq_none_iff.mp (samples_ne_nil hinput side))
  rw [greatest, hm]
  exact List.max?_eq_some_iff.mp hm

theorem inRange_scaled {volume : UInt16} (hvolume : volume ≤ 256) {n : ℤ} (hlow : least input side ≤ n)
    (hhigh : n ≤ greatest input side) : InRange input volume side (scaled n volume) := by
  obtain ⟨f, -, hf⟩ := List.mem_map.mp (least_spec hinput side).1
  obtain ⟨g, -, hg⟩ := List.mem_map.mp (greatest_spec hinput side).1
  rw [InRange, ← hf, ← hg, ← scaled_sample _ hvolume, ← scaled_sample _ hvolume, hf, hg]
  exact ⟨scaled_mono hlow volume, scaled_mono hhigh volume⟩

end Bounds

/-! ## Output samples -/

section Output

variable {input : Array StereoFrame} {volume : UInt16}

/-- A point on the line through the frames at an index and the next. -/
def lineAt (input : Array StereoFrame) (index : ℕ) (side : Side) (t : ℚ) : ℚ :=
  line ((heldFrame input index).on side) ((heldFrame input (index + 1)).on side) t

theorem lineAt_zero (index : ℕ) (side : Side) :
    lineAt input index side 0 = ((heldFrame input index).on side).toInt := by
  rw [lineAt, line, mul_zero, add_zero]

theorem lineAt_one (index : ℕ) (side : Side) :
    lineAt input index side 1 = ((heldFrame input (index + 1)).on side).toInt := by
  rw [lineAt, line, mul_one]
  push_cast
  ring

/-- The output sample at a point, in exact arithmetic. -/
def exactSample (volume : UInt16) (z : ℚ) : ℤ := scaled (halfAway z) volume

theorem exactSample_mono (volume : UInt16) : Monotone (exactSample volume) :=
  fun _ _ h => scaled_mono (halfAway_mono h) volume

theorem exactSample_intCast (volume : UInt16) (n : ℤ) : exactSample volume n = scaled n volume := by
  rw [exactSample, halfAway_intCast]

theorem sample_between (input : Array StereoFrame) (hvolume : volume ≤ 256) {c : Cursor Float} {t : ℚ}
    (h : Stays c t) {j k : ℤ} (hj : |j| ≤ 2) (hk : |k| ≤ 2) (hjt : (j / 2 : ℚ) ≤ t)
    (htk : t ≤ (k / 2 : ℚ)) (side : Side) :
    ((frameAt input volume c).on side).toInt ∈
      Set.uIcc (exactSample volume (lineAt input c.index side (j / 2)))
        (exactSample volume (lineAt input c.index side (k / 2))) := by
  obtain ⟨z, hz, hmem⟩ := denotes_interpolate ((heldFrame input c.index).on side)
    ((heldFrame input (c.index + 1)).on side) h.denotes hj hk hjt htk
  have hbound := abs_le_of_mem_line hj hk hmem
  obtain ⟨hlow, hhigh⟩ := abs_le.mp hbound
  have hnearest : nearest (interpolate ((heldFrame input c.index).on side)
      ((heldFrame input (c.index + 1)).on side) c.timer) = halfAway z :=
    nearest_eq hz (hbound.trans_lt (by norm_num))
  have hnearest_bound : |halfAway z| ≤ 2 ^ 17 :=
    abs_le.mpr ⟨le_halfAway (by exact_mod_cast hlow), halfAway_le (by exact_mod_cast hhigh)⟩
  have hsample : ((frameAt input volume c).on side).toInt = exactSample volume z := by
    rw [on_frameAt]
    show (scale (.ofIntClamp (nearest _)) volume).toInt = _
    rw [hnearest, toInt_scale hnearest_bound hvolume, exactSample]
  rw [hsample]
  exact (exactSample_mono volume).mapsTo_uIcc hmem

theorem inRange_heldFrame (hinput : 0 < input.size) (hvolume : volume ≤ 256) (index : ℕ) (side : Side) :
    InRange input volume side (scaled ((heldFrame input index).on side).toInt volume) := by
  have hmem := on_mem_samples (heldFrame_mem hinput index) side
  exact inRange_scaled hinput side hvolume ((least_spec hinput side).2 _ hmem)
    ((greatest_spec hinput side).2 _ hmem)

theorem inRange_of_nonneg (hinput : 0 < input.size) (hvolume : volume ≤ 256) {c : Cursor Float} {t : ℚ}
    (h : Stays c t) (ht : 0 ≤ t) (side : Side) :
    InRange input volume side ((frameAt input volume c).on side).toInt := by
  have hsample := sample_between input hvolume h (j := 0) (k := 2)
    (by decide) (by decide) (by simpa using ht) (by simpa using h.high.le) side
  have hone : ((2 : ℤ) / 2 : ℚ) = 1 := by norm_num
  rw [Int.cast_zero, zero_div, hone, lineAt_zero, lineAt_one, exactSample_intCast,
    exactSample_intCast] at hsample
  exact Set.uIcc_subset_Icc (inRange_heldFrame hinput hvolume _ side)
    (inRange_heldFrame hinput hvolume _ side) hsample

/-- The sample that stands half a frame before the first one. -/
def firstSample (input : Array StereoFrame) (volume : UInt16) (side : Side) : ℤ :=
  exactSample volume (lineAt input 0 side (-1 / 2))

theorem neg_half : ((-1 : ℤ) / 2 : ℚ) = -1 / 2 := by norm_num

theorem sample_start (input : Array StereoFrame) (hvolume : volume ≤ 256) (side : Side) :
    ((frameAt input volume (start : Cursor Float)).on side).toInt = firstSample input volume side := by
  have hsample := sample_between input hvolume stays_start (j := -1) (k := -1)
    (by decide) (by decide) neg_half.le neg_half.ge side
  rwa [Set.uIcc_self, Set.mem_singleton_iff, neg_half] at hsample

/-- Before the first frame of a block the output lies between the sample half a frame before it and its
own. -/
theorem sample_before (hvolume : volume ≤ 256) {c : Cursor Float} {t : ℚ} (h : Stays c t) (ht : t < 0)
    (side : Side) :
    ((frameAt input volume c).on side).toInt ∈ Set.uIcc (firstSample input volume side)
      (scaled ((heldFrame input 0).on side).toInt volume) := by
  have hsample := sample_between input hvolume h (j := -1) (k := 0)
    (by decide) (by decide) (neg_half.trans_le h.low) (by simpa using ht.le) side
  rwa [h.first ht, neg_half, Int.cast_zero, zero_div, lineAt_zero, exactSample_intCast] at hsample

theorem output_eq_some_iff (hinput : 0 < input.size) {n k : ℕ} {f : StereoFrame} :
    (block Float input n volume)[k]? = some f ↔ k < n ∧ frameAt input volume (cursor input n k) = f := by
  have hsize : (block Float input n volume).size = n := by
    rw [← Array.length_toList, toList_block hinput, List.length_map, List.length_range]
  by_cases hk : k < n
  · rw [← Array.getElem?_toList, toList_block hinput, List.getElem?_map, List.getElem?_range hk]
    simp [hk]
  · rw [Array.getElem?_eq_none (by omega)]
    simp [hk]

theorem sample_spec (hinput : 0 < input.size) (hsize : input.size < 2 ^ 64) {n : ℕ} (hn : n < 2 ^ 64)
    (hvolume : volume ≤ 256) {k : ℕ} (hk : k < n) (side : Side) :
    if (cursor input n k).timer < Scalar.ofNat 0 then
      ((frameAt input volume (cursor input n k)).on side).toInt ∈
        Set.uIcc (firstSample input volume side) (scaled ((heldFrame input 0).on side).toInt volume)
    else InRange input volume side ((frameAt input volume (cursor input n k)).on side).toInt := by
  obtain ⟨t, ht⟩ := stays_cursor hsize hn (by omega) k
  split
  · next hneg => exact sample_before hvolume ht (ht.timer_neg_iff.mp hneg) side
  · next hnonneg =>
    exact inRange_of_nonneg hinput hvolume ht (not_lt.mp (mt ht.timer_neg_iff.mpr hnonneg)) side

/-- From its first frame on, a resampled block stays within the samples of the block. Before, where the
output starts, it lies between the first frame and the point half a frame before it on the line through
the first two; the first output frame is at that point, so that all is within the samples exactly if
this one is. -/
theorem block_in_range_iff (hinput : 0 < input.size) (hsize : input.size < 2 ^ 64) {n : ℕ} (hn : n < 2 ^ 64)
    (hvolume : volume ≤ 256) :
    (∀ k f, (block Float input n volume)[k]? = some f → ∀ side,
      if (cursor input n k).timer < Scalar.ofNat 0 then
        (f.on side).toInt ∈ Set.uIcc (firstSample input volume side)
          (scaled ((heldFrame input 0).on side).toInt volume)
      else InRange input volume side (f.on side).toInt) ∧
    (∀ f, (block Float input n volume)[0]? = some f →
      ∀ side, (f.on side).toInt = firstSample input volume side) ∧
    ((∀ f ∈ block Float input n volume, ∀ side, InRange input volume side (f.on side).toInt) ↔
      n = 0 ∨ ∀ side, InRange input volume side (firstSample input volume side)) := by
  simp only [Array.mem_iff_getElem?, output_eq_some_iff hinput]
  refine ⟨?_, ?_, fun hall => ?_, ?_⟩
  · rintro k _ ⟨hk, rfl⟩ side
    exact sample_spec hinput hsize hn hvolume hk side
  · rintro _ ⟨-, rfl⟩ side
    exact sample_start input hvolume side
  · rcases Nat.eq_zero_or_pos n with hzero | hpos
    · exact .inl hzero
    · exact .inr fun side => sample_start input hvolume side ▸ hall _ ⟨0, hpos, rfl⟩ side
  · rintro hstart _ ⟨k, hk, rfl⟩ side
    have hfirst := hstart.resolve_left (by omega) side
    have hframe := sample_spec hinput hsize hn hvolume hk side
    split at hframe
    · exact Set.uIcc_subset_Icc hfirst (inRange_heldFrame hinput hvolume 0 side) hframe
    · exact hframe

/-- A block that swings back. -/
theorem block_in_range_of_swing :
    (0 < 3 ∧ 3 < 2 ^ 64 ∧ 6 < 2 ^ 64 ∧ (256 : UInt16) ≤ 256) ∧
      ∀ f ∈ block Float #[⟨0, 0⟩, ⟨100, 100⟩, ⟨-100, -100⟩] 6 256, ∀ side,
        InRange #[⟨0, 0⟩, ⟨100, 100⟩, ⟨-100, -100⟩] 256 side (f.on side).toInt :=
  ⟨by decide, (block_in_range_iff (by decide) (by decide) (by decide) (by decide)).2.2.mpr
    (.inr fun side => by cases side <;> decide +kernel)⟩

/-- The first two samples are 0 and 100, but the output starts with -50. -/
theorem block_overshoots_at_start :
    block Float #[⟨0, 0⟩, ⟨100, 100⟩] 2 256 = #[⟨-50, -50⟩, ⟨50, 50⟩] ∧
      ¬∀ f ∈ block Float #[⟨0, 0⟩, ⟨100, 100⟩] 2 256, ∀ side,
        InRange #[⟨0, 0⟩, ⟨100, 100⟩] 256 side (f.on side).toInt := by
  have hblock : block Float #[⟨0, 0⟩, ⟨100, 100⟩] 2 256 = #[⟨-50, -50⟩, ⟨50, 50⟩] := by decide +kernel
  refine ⟨hblock, fun h => ?_⟩
  rw [hblock] at h
  exact absurd (h ⟨-50, -50⟩ (by simp) .left) (by decide)

end Output

end Resample

end Handheld
