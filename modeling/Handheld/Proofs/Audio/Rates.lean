import Handheld.Audio.Rate
import Mathlib.Data.Rat.Floor
import Mathlib.Tactic.FieldSimp
import Mathlib.Tactic.Linarith
import Mathlib.Tactic.NormNum
import Mathlib.Tactic.Positivity
import Mathlib.Tactic.Ring

/-!
# No drift

Over exact numbers a rate converter consumes as much as is produced: what its callbacks have asked for
together is the whole part of what they were owed together, and the phase is what stands behind the
point (`consumption_does_not_drift`). One callback moves the whole part of what is owed over to the
answer (`inputLength_exact`); what a course of callbacks leaves depends on the sum of their lengths
only.
-/

namespace Handheld

namespace RateConverter

/-- Machine frames to consume for a course of callbacks with these lengths, in all. -/
def consumption {α : Type} [Scalar α] (c : RateConverter α) : List Nat → Nat × RateConverter α
  | [] => (0, c)
  | n :: lengths =>
    let (k, c) := c.inputLength n
    let (rest, c) := c.consumption lengths
    (k + rest, c)

theorem inputLengths_eq {α : Type} [Scalar α] (c : RateConverter α) (n times : Nat) :
    c.inputLengths n times = c.consumption (List.replicate times n) := by
  induction times generalizing c with
  | zero => rfl
  | succ times ih => simp only [inputLengths, List.replicate_succ, consumption, ih]

/-- Machine frames for each frame of the device. -/
def ratio (c : RateConverter ℚ) : ℚ := c.coreRate * c.targetFps / (60 * c.deviceRate)

/-- What a callback is owed: the share of its frames, and what an earlier one has left over. -/
def owed (c : RateConverter ℚ) (n : ℕ) : ℚ := c.phase + n * c.ratio

theorem inputLength_exact (c : RateConverter ℚ) (n : ℕ) :
    c.inputLength n = (⌊c.owed n⌋.toNat, { c with phase := Int.fract (c.owed n) }) := by
  have howed : (n : ℚ) * c.coreRate * (c.targetFps / ((nominalFps : ℕ) : ℚ)) / c.deviceRate + c.phase =
      c.owed n := by
    simp only [owed, ratio, nominalFps]
    push_cast
    ring
  have hinput : c.inputLength n =
      (⌊((⌊c.owed n⌋ : ℤ) : ℚ)⌋.toNat, { c with phase := c.owed n - ⌊c.owed n⌋ }) := by
    rw [← howed]
    rfl
  rw [hinput, Int.floor_intCast]
  rfl

/-- Rates that a converter can work with. -/
structure Positive (c : RateConverter ℚ) : Prop where
  core : 0 < c.coreRate
  target : 0 < c.targetFps
  device : 0 < c.deviceRate

theorem Positive.ratio_pos {c : RateConverter ℚ} (h : Positive c) : 0 < c.ratio :=
  div_pos (mul_pos h.core h.target) (mul_pos (by norm_num) h.device)

theorem Positive.of_phase {c : RateConverter ℚ} (h : Positive c) (phase : ℚ) :
    Positive { c with phase } :=
  ⟨h.core, h.target, h.device⟩

/-- A course of callbacks asks for the whole part of what it is owed in all, and leaves the rest over.
The induction starts with any phase: the first callback leaves one to the others. -/
theorem consumption_eq {c : RateConverter ℚ} (h : Positive c) (hphase : 0 ≤ c.phase)
    (hphase' : c.phase < 1) (lengths : List ℕ) :
    ((c.consumption lengths).1 : ℤ) = ⌊c.owed lengths.sum⌋ ∧
      (c.consumption lengths).2 = { c with phase := Int.fract (c.owed lengths.sum) } := by
  induction lengths generalizing c with
  | nil =>
    have howed : c.owed 0 = c.phase := by simp [owed]
    rw [List.sum_nil, howed, Int.fract_eq_self.mpr ⟨hphase, hphase'⟩,
      Int.floor_eq_zero_iff.mpr ⟨hphase, hphase'⟩]
    exact ⟨rfl, rfl⟩
  | cons n lengths ih =>
    have howed_nonneg : 0 ≤ c.owed n :=
      add_nonneg hphase (mul_nonneg n.cast_nonneg h.ratio_pos.le)
    have hlater := ih (h.of_phase (Int.fract (c.owed n))) (Int.fract_nonneg _) (Int.fract_lt_one _)
    -- the whole part of what the first callback is owed is the only thing the others are not
    have howed : c.owed (n :: lengths).sum =
        { c with phase := Int.fract (c.owed n) }.owed lengths.sum + ⌊c.owed n⌋ := by
      have hsplit := Int.floor_add_fract (c.owed n)
      simp only [owed, ratio, List.sum_cons] at hsplit ⊢
      push_cast
      linarith
    rw [howed, Int.floor_add_intCast, Int.fract_add_intCast]
    simp only [consumption, inputLength_exact]
    refine ⟨?_, hlater.2⟩
    push_cast
    rw [hlater.1, Int.toNat_of_nonneg (Int.floor_nonneg.mpr howed_nonneg)]
    ring

/-- From a new converter on, callbacks with these lengths have together asked for the whole part of
what is produced in the time they take, and the phase is what stands behind the point. How the time was
divided into callbacks makes no difference. -/
theorem consumption_does_not_drift {coreRate targetFps : ℚ} {deviceRate : ℕ} (hcore : 0 < coreRate)
    (htarget : 0 < targetFps) (hdevice : 0 < deviceRate) {c : RateConverter ℚ}
    (hnew : c = new coreRate targetFps deviceRate) (lengths : List ℕ) :
    let produced := lengths.sum * coreRate * targetFps / (60 * deviceRate)
    let r := c.consumption lengths
    (r.1 : ℤ) = ⌊produced⌋ ∧ r.2.phase = Int.fract produced ∧ 0 ≤ r.2.phase ∧ r.2.phase < 1 ∧
      ∀ lengths' : List ℕ, lengths'.sum = lengths.sum → c.consumption lengths' = r := by
  intro produced
  have hmax : max deviceRate 1 = deviceRate := Nat.max_eq_left hdevice
  have hc : c = ⟨coreRate, targetFps, deviceRate, 0⟩ := by
    rw [hnew]
    show (⟨coreRate, targetFps, ((max deviceRate 1 : ℕ) : ℚ), 0⟩ : RateConverter ℚ) = _
    rw [hmax]
  have hpositive : Positive c := by
    rw [hc]
    exact ⟨hcore, htarget, Nat.cast_pos.mpr hdevice⟩
  have hphase : c.phase = 0 := by rw [hc]
  have howed : c.owed lengths.sum = produced := by
    rw [hc]
    simp only [owed, ratio, produced]
    ring
  have hall := consumption_eq hpositive hphase.ge (hphase.trans_lt one_pos)
  obtain ⟨hconsumed, hleft⟩ := hall lengths
  rw [howed] at hconsumed hleft
  refine ⟨hconsumed, by rw [hleft], by rw [hleft]; exact Int.fract_nonneg _,
    by rw [hleft]; exact Int.fract_lt_one _, fun lengths' hsum => ?_⟩
  obtain ⟨hconsumed', hleft'⟩ := hall lengths'
  rw [hsum, howed] at hconsumed' hleft'
  exact Prod.ext (by omega) (hleft'.trans hleft.symm)

/-- A machine at its nominal rate and a device at 48000 Hz, through 930 callbacks of 512 frames. -/
theorem consumption_of_ten_seconds :
    ((new (8402850 / 256 : ℚ) 60 48000).consumption (List.replicate 930 512)).1 = 325610 ∧
      ((new (8402850 / 256 : ℚ) 60 48000).consumption (List.replicate 930 512)).2.phase = 7 / 16 := by
  have hproduced : (((List.replicate 930 512).sum : ℕ) : ℚ) * (8402850 / 256) * 60 /
      (60 * (48000 : ℕ)) = (325610 : ℕ) + 7 / 16 := by
    rw [List.sum_replicate]
    norm_num
  have hfloor : ⌊(((325610 : ℕ) : ℚ) + 7 / 16)⌋ = (325610 : ℕ) := by norm_num
  have hcore : (0 : ℚ) < 8402850 / 256 := by norm_num
  have htarget : (0 : ℚ) < 60 := by norm_num
  have hdevice : 0 < 48000 := by norm_num
  obtain ⟨hconsumed, hphase, -⟩ :=
    consumption_does_not_drift hcore htarget hdevice rfl (List.replicate 930 512)
  rw [hproduced] at hconsumed hphase
  constructor
  · exact Int.natCast_inj.mp (hconsumed.trans hfloor)
  · rw [hphase, Int.fract, hfloor]
    norm_num

end RateConverter

end Handheld
