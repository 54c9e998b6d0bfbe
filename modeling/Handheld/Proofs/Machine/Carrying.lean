import Handheld.Machine.Tone
import Handheld.Proofs.Audio.Scalars

/-!
# Whole samples and what is carried over

A frame plays whole samples only, and what it leaves of a sample is carried over to the next one. How many
samples the next frames have is a matter of the rate and of the carry alone (`samplesIn`). Where no bit of a
carry is rounded away, this is exact: samples and carry are the whole and the fractional part of all that
was due (`Carries.samplesIn_eq`, `Carries.carryAfter`), and a carry makes a difference to the frames to come
exactly if there is any (`samplesIn_eq_iff`).
-/

namespace Handheld.ToneMachine

open Binary64

def frameLength (rate carry : Float) : ℕ := Scalar.toWord (carry + rate)

def carryOver (rate carry : Float) : Float := carry + rate - Scalar.floatOfWord (frameLength rate carry)

/-- What so many frames leave of a sample. -/
def carryAfter (rate carry : Float) (frames : ℕ) : Float := (carryOver rate)^[frames] carry

/-- How many samples the next so many frames have. -/
def samplesIn (rate : Float) : Float → ℕ → ℕ
  | _, 0 => 0
  | carry, frames + 1 => frameLength rate carry + samplesIn rate (carryOver rate carry) frames

theorem carryAfter_succ (rate carry : Float) (frames : ℕ) :
    carryAfter rate carry (frames + 1) = carryOver rate (carryAfter rate carry frames) :=
  Function.iterate_succ_apply' _ _ _

/-! ## Exact rates -/

/-- A rate and the sample it may carry over lie between two powers of two, and the rate is not so large that
it has no fraction. -/
structure Roomy (e : ℕ) (q : ℚ) : Prop where
  le : e ≤ 52
  low : 2 ^ e ≤ q
  high : q + 1 ≤ 2 ^ (e + 1)

/-- A fraction of a sample that has no finer bits than the rate has. -/
structure Carries (e : ℕ) (carry : Float) (c : ℚ) : Prop where
  denotes : Denotes carry c
  nonneg : 0 ≤ c
  lt_one : c < 1
  on_grid : ∃ i : ℤ, c = i * 2 ^ ((e : ℤ) - 52)

theorem carries_zero (e : ℕ) : Carries e 0 0 where
  denotes := by
    have hzero : Denotes (Scalar.floatOfWord 0) (0 : ℕ) := Scalar.denotes_floatOfWord_of_lt (by norm_num)
    rwa [Nat.cast_zero] at hzero
  nonneg := le_rfl
  lt_one := zero_lt_one
  on_grid := ⟨0, by simp⟩

section
variable {e : ℕ} {rate carry : Float} {q c : ℚ}

theorem Carries.due_on_grid (h : Carries e carry c) (hrate : Denotes rate q) (hq : Roomy e q) :
    ∃ k : ℤ, |k| < 2 ^ 53 ∧ c + q = k * 2 ^ ((e : ℤ) - 52) := by
  have hunit : (2 : ℚ) ^ 52 * 2 ^ ((e : ℤ) - 52) = 2 ^ e := by
    rw [← zpow_natCast, ← zpow_natCast, ← zpow_add₀ two_ne_zero]
    congr 1
    push_cast
    ring
  have hq_nonneg : 0 ≤ q := le_trans (by positivity) hq.low
  obtain ⟨i, hi⟩ := h.on_grid
  obtain ⟨j, hj⟩ := hrate.representable.on_grid (e := (e : ℤ) - 52)
    (.inr (by rw [hunit, abs_of_nonneg hq_nonneg]; exact hq.low))
  have hsum : c + q = ((i + j : ℤ) : ℚ) * 2 ^ ((e : ℤ) - 52) := by
    rw [hi, hj]
    push_cast
    ring
  refine ⟨i + j, ?_, hsum⟩
  have hpos : (0 : ℚ) < 2 ^ ((e : ℤ) - 52) := by positivity
  have hlt : ((i + j : ℤ) : ℚ) * 2 ^ ((e : ℤ) - 52) < 2 ^ 53 * 2 ^ ((e : ℤ) - 52) :=
    calc ((i + j : ℤ) : ℚ) * 2 ^ ((e : ℤ) - 52) = c + q := hsum.symm
      _ < 2 ^ (e + 1) := by linarith [h.lt_one, hq.high]
      _ = 2 ^ 53 * 2 ^ ((e : ℤ) - 52) := by rw [pow_succ, ← hunit]; ring
  have hnonneg : (0 : ℚ) ≤ ((i + j : ℤ) : ℚ) * 2 ^ ((e : ℤ) - 52) := by
    rw [← hsum]
    linarith [h.nonneg]
  rw [abs_of_nonneg (by exact_mod_cast nonneg_of_mul_nonneg_left hnonneg hpos)]
  exact_mod_cast (mul_lt_mul_iff_left₀ hpos).mp hlt

theorem Carries.denotes_due (h : Carries e carry c) (hrate : Denotes rate q) (hq : Roomy e q) :
    Denotes (carry + rate) (c + q) := by
  obtain ⟨k, hk, hdue⟩ := h.due_on_grid hrate hq
  have hexact : Representable (c + q) := ⟨k, _, hk, by rw [show minExponent = -1074 from rfl]; omega, hdue⟩
  have hlimit : |c + q| ≤ limit := by
    have hlt : c + q ≤ 2 ^ (e + 1) := by linarith [h.lt_one, hq.high]
    have hlow : (0 : ℚ) < 2 ^ e := by positivity
    rw [abs_of_nonneg (by linarith [h.nonneg, hq.low])]
    exact hlt.trans (two_pow_le_limit (by have := hq.le; omega))
  obtain ⟨r, hr, hfaithful⟩ := h.denotes.add hrate hlimit
  rwa [hfaithful.eq hexact] at hr

theorem Carries.frame (h : Carries e carry c) (hrate : Denotes rate q) (hq : Roomy e q) :
    (frameLength rate carry : ℤ) = ⌊c + q⌋ ∧ Carries e (carryOver rate carry) (Int.fract (c + q)) := by
  have hdue := h.denotes_due hrate hq
  have hlow : (0 : ℚ) < 2 ^ e := by positivity
  have hnonneg : 0 ≤ c + q := by linarith [h.nonneg, hq.low]
  have hlt : c + q < 2 ^ 53 :=
    calc c + q < 2 ^ (e + 1) := by linarith [h.lt_one, hq.high]
      _ ≤ 2 ^ 53 := pow_le_pow_right₀ (by norm_num) (by have := hq.le; omega)
  have hlength : (frameLength rate carry : ℤ) = ⌊c + q⌋ :=
    hdue.toNat_toUInt64 hnonneg (hlt.trans (by norm_num))
  refine ⟨hlength, ?_, Int.fract_nonneg _, Int.fract_lt_one _, ?_⟩
  · have hfloor : ⌊c + q⌋ < 2 ^ 53 := Int.floor_lt.mpr (by exact_mod_cast hlt)
    have hwhole : Denotes (Scalar.floatOfWord (frameLength rate carry)) (⌊c + q⌋ : ℤ) := by
      rw [← hlength, Int.cast_natCast]
      exact Scalar.denotes_floatOfWord_of_lt (by omega)
    exact Scalar.denotes_sub_floor hdue hwhole hnonneg
  · obtain ⟨k, -, hk⟩ := h.due_on_grid hrate hq
    refine ⟨k - ⌊c + q⌋ * 2 ^ (52 - e), ?_⟩
    have hunit : (2 : ℚ) ^ (52 - e) * 2 ^ ((e : ℤ) - 52) = 1 := by
      rw [← zpow_natCast, ← zpow_add₀ two_ne_zero, Nat.cast_sub hq.le]
      norm_num
    rw [← Int.self_sub_floor]
    push_cast
    rw [sub_mul, ← hk, mul_assoc, hunit, mul_one]

theorem Carries.samplesIn_eq (h : Carries e carry c) (hrate : Denotes rate q) (hq : Roomy e q) (frames : ℕ) :
    (samplesIn rate carry frames : ℤ) = ⌊c + frames * q⌋ := by
  induction frames generalizing carry c with
  | zero =>
    have hzero : ⌊c⌋ = 0 := Int.floor_eq_zero_iff.mpr ⟨h.nonneg, h.lt_one⟩
    simpa [samplesIn] using hzero.symm
  | succ frames ih =>
    obtain ⟨hlength, hnext⟩ := h.frame hrate hq
    have hrest : c + (frames + 1 : ℕ) * q = (⌊c + q⌋ : ℤ) + (Int.fract (c + q) + frames * q) := by
      rw [← add_assoc, Int.floor_add_fract]
      push_cast
      ring
    rw [samplesIn, Nat.cast_add, hlength, ih hnext, hrest, Int.floor_intCast_add]

theorem Carries.carryAfter (h : Carries e carry c) (hrate : Denotes rate q) (hq : Roomy e q) (frames : ℕ) :
    Carries e (carryAfter rate carry frames) (Int.fract (c + frames * q)) := by
  induction frames with
  | zero =>
    have hfract : Int.fract c = c := Int.fract_eq_self.mpr ⟨h.nonneg, h.lt_one⟩
    simpa [ToneMachine.carryAfter, hfract] using h
  | succ frames ih =>
    have hsplit : c + (frames + 1 : ℕ) * q = (c + frames * q) + q := by
      push_cast
      ring
    have hfract : Int.fract (Int.fract (c + frames * q) + q) = Int.fract (c + (frames + 1 : ℕ) * q) := by
      rw [hsplit, Int.fract_eq_fract]
      exact ⟨-⌊c + frames * q⌋, by rw [← Int.self_sub_floor (c + frames * q)]; push_cast; ring⟩
    rw [carryAfter_succ, ← hfract]
    exact (ih.frame hrate hq).2

end

/-- A fraction that never comes to a whole is nothing: added to the multiples of a number that it is the
fraction of, it mounts up. -/
theorem fract_never_mounts_iff (n : ℕ) (q : ℚ) :
    (∀ k : ℕ, ⌊Int.fract (n * q) + k * q⌋ = ⌊k * q⌋) ↔ ∃ z : ℤ, n * q = z := by
  constructor
  · intro h
    -- each further `n` of the multiples adds the fraction once more
    have hmultiple (j : ℕ) : ⌊j * Int.fract (n * q)⌋ = 0 := by
      induction j with
      | zero => simp
      | succ j ih =>
        have hk := h (j * n)
        have hsplit : ((j * n : ℕ) : ℚ) * q = (j * ⌊n * q⌋ : ℤ) + j * Int.fract (n * q) := by
          push_cast
          rw [mul_assoc, ← mul_add, Int.floor_add_fract]
        rw [hsplit, add_left_comm, Int.floor_intCast_add, Int.floor_intCast_add, ih] at hk
        rw [Nat.cast_succ, add_mul, one_mul, add_comm (_ * _)]
        omega
    have hzero : Int.fract (n * q) = 0 := by
      by_contra hne
      have hpos : 0 < Int.fract (n * q) := lt_of_le_of_ne (Int.fract_nonneg _) (Ne.symm hne)
      obtain ⟨j, hj⟩ := exists_nat_gt (1 / Int.fract (n * q))
      have hlt := (Int.floor_eq_zero_iff.mp (hmultiple j)).2
      rw [div_lt_iff₀ hpos] at hj
      exact absurd hlt (not_lt.mpr hj.le)
    exact ⟨⌊n * q⌋, by rw [← Int.self_sub_floor, sub_eq_zero] at hzero; exact hzero⟩
  · rintro ⟨z, hz⟩ k
    rw [hz, Int.fract_intCast, zero_add]

/-- After so many frames the carry makes no difference to the frames to come exactly if these frames have
left nothing of a sample. -/
theorem samplesIn_eq_iff {e : ℕ} {rate : Float} {q : ℚ} (hrate : Denotes rate q) (hq : Roomy e q) (n : ℕ) :
    (∀ k, samplesIn rate (carryAfter rate 0 n) k = samplesIn rate 0 k) ↔ ∃ z : ℤ, n * q = z := by
  rw [← fract_never_mounts_iff]
  have hzero := carries_zero e
  have hlater := hzero.carryAfter hrate hq n
  rw [zero_add] at hlater
  refine forall_congr' fun k => ?_
  rw [← hlater.samplesIn_eq hrate hq, ← Nat.cast_inj (R := ℤ), hzero.samplesIn_eq hrate hq, zero_add]

end Handheld.ToneMachine
