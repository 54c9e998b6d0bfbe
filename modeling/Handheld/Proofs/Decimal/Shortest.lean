import Handheld.Proofs.Decimal.Nearest
import Mathlib.Data.Nat.Cast.Order.Field
import Mathlib.Tactic.GCongr
import Mathlib.Tactic.NormNum.Pow

/-!
# The shortest numeral

Seventeen digits are enough for any number of the format: the grid they make is finer than the values
around it that round to it (`isSome_gridPoint?`). So the search for fewer digits always ends with a numeral
that reads back (`rounds_shortest`), and to read a numeral is to round it (`ofDecimal_of_rounds`).
-/

namespace Handheld.Binary64

variable {m : Nat} {q : Int}

/-! ## Fractions -/

theorem zpow_eq_div (a : ℚ) (e : Int) : a ^ e = a ^ e.toNat / a ^ (-e).toNat := by
  rcases Int.le_total 0 e with h | h
  · rw [show (-e).toNat = 0 by omega, pow_zero, div_one, ← zpow_natCast, Int.toNat_of_nonneg h]
  · rw [show e.toNat = 0 by omega, pow_zero, one_div, ← zpow_natCast, Int.toNat_of_nonneg (by omega), zpow_neg,
      inv_inv]

theorem scaled_pos (x : Nat) (q k : Int) : 0 < (scaled x q k).2 :=
  Nat.mul_pos (Nat.two_pow_pos _) (Nat.pow_pos (by decide))

theorem scaled_spec (x : Nat) (q k : Int) :
    ((scaled x q k).1 : ℚ) * 10 ^ k = x * 2 ^ q * (scaled x q k).2 := by
  show ((x * 2 ^ q.toNat * 10 ^ (-k).toNat : Nat) : ℚ) * _ = _ * ((2 ^ (-q).toNat * 10 ^ k.toNat : Nat) : ℚ)
  rw [zpow_eq_div 10 k, zpow_eq_div 2 q]
  push_cast
  field_simp

theorem scaled_le_iff (x d : Nat) (q k : Int) :
    (scaled x q k).1 ≤ d * (scaled x q k).2 ↔ (x : ℚ) * 2 ^ q ≤ d * 10 ^ k := by
  have hpos : (0 : ℚ) < (scaled x q k).2 := by exact_mod_cast scaled_pos x q k
  have hten : (0 : ℚ) < 10 ^ k := by positivity
  rw [← mul_le_mul_iff_left₀ hpos, ← scaled_spec, mul_right_comm, mul_le_mul_iff_left₀ hten]
  exact_mod_cast Iff.rfl

theorem le_scaled_iff (x d : Nat) (q k : Int) :
    d * (scaled x q k).2 ≤ (scaled x q k).1 ↔ (d : ℚ) * 10 ^ k ≤ x * 2 ^ q := by
  have hpos : (0 : ℚ) < (scaled x q k).2 := by exact_mod_cast scaled_pos x q k
  have hten : (0 : ℚ) < 10 ^ k := by positivity
  rw [← mul_le_mul_iff_left₀ hpos, ← scaled_spec, mul_right_comm, mul_le_mul_iff_left₀ hten]
  exact_mod_cast Iff.rfl

/-! ## Reading back -/

theorem roundingInterval_spec (hm : 0 < m) (q : Int) :
    ((roundingInterval m q).1 : ℚ) * 2 ^ (q - 2) = (m - below m q) * 2 ^ q ∧
      ((roundingInterval m q).2 : ℚ) * 2 ^ (q - 2) = (m + 1 / 2) * 2 ^ q := by
  have hquarter : (2 : ℚ) ^ (q - 2) = 2 ^ q / 4 := by
    rw [zpow_sub₀ two_ne_zero]
    norm_num
  rw [hquarter]
  constructor
  · have hlow : (roundingInterval m q).1 =
        if m = 2 ^ 52 ∧ q ≠ minExponent then 4 * m - 1 else 4 * m - 2 := by
      unfold roundingInterval
      simp only [Bool.and_eq_true, decide_eq_true_eq]
      rfl
    rw [hlow, below]
    split
    all_goals
      rw [Nat.cast_sub (by omega)]
      push_cast
      ring
  · show ((4 * m + 2 : Nat) : ℚ) * _ = _
    push_cast
    ring

theorem readsBack_iff (hm : 0 < m) (q : Int) (d : Nat) (k : Int) :
    readsBack m q d k = true ↔ Rounds m q (d * 10 ^ k) := by
  obtain ⟨hlow, hhigh⟩ := roundingInterval_spec hm q
  let low := scaled (roundingInterval m q).1 (q - 2) k
  let high := scaled (roundingInterval m q).2 (q - 2) k
  have htest : readsBack m q d k =
      if m % 2 = 0 then decide (low.1 ≤ d * low.2) && decide (d * high.2 ≤ high.1)
      else decide (low.1 < d * low.2) && decide (d * high.2 < high.1) := rfl
  rw [htest, Rounds, ← hlow, ← hhigh]
  split
  · rw [Bool.and_eq_true, decide_eq_true_eq, decide_eq_true_eq, scaled_le_iff, le_scaled_iff]
  · rw [Bool.and_eq_true, decide_eq_true_eq, decide_eq_true_eq, ← not_le, ← not_le, scaled_le_iff, le_scaled_iff,
      not_le, not_le]

theorem Rounds.of_strict {x : ℚ} (hlow : (m - below m q) * 2 ^ q < x) (hhigh : x < (m + 1 / 2) * 2 ^ q) :
    Rounds m q x := by
  unfold Rounds
  split
  · exact ⟨hlow.le, hhigh.le⟩
  · exact ⟨hlow, hhigh⟩

theorem Rounds.pos {x : ℚ} (hm : 0 < m) (h : Rounds m q x) : 0 < x := by
  have hone : (1 : ℚ) ≤ m := by exact_mod_cast hm
  have hhalf := below_le m q
  exact lt_of_lt_of_le (mul_pos (by linarith) (by positivity)) h.weak.1

/-! ## Grids -/

theorem readsBack_of_gridPoint? {k : Int} {d : Nat} (h : gridPoint? m q k = some d) :
    readsBack m q d k = true := by
  unfold gridPoint? at h
  dsimp only at h
  split at h
  · next hdown hup =>
    split at h
    · cases h
      exact hdown
    · cases h
      exact hup
  · next hdown _ =>
    cases h
    exact hdown
  · next hup =>
    cases h
    exact hup
  · cases h

/-- A grid of seventeen digits is finer than what rounds to a number on either side. -/
theorem grid_lt (h : Regular m q) {k : Int} (hk : (10 : ℚ) ^ k * 10 ^ 16 ≤ m * 2 ^ q) :
    (10 : ℚ) ^ k < 2 * below m q * 2 ^ q := by
  have hunit : (0 : ℚ) < 2 ^ q := by positivity
  have hwide : (m : ℚ) < 2 * below m q * 10 ^ 16 := by
    unfold below
    split
    · next hedge =>
      rw [hedge.1]
      norm_num
    · have hm : (m : ℚ) < 2 ^ 53 := by exact_mod_cast h.short
      refine hm.trans ?_
      norm_num
  have hscaled : (10 : ℚ) ^ k * 10 ^ 16 < 2 * below m q * 2 ^ q * 10 ^ 16 := by
    calc (10 : ℚ) ^ k * 10 ^ 16 ≤ m * 2 ^ q := hk
      _ < 2 * below m q * 10 ^ 16 * 2 ^ q := mul_lt_mul_of_pos_right hwide hunit
      _ = 2 * below m q * 2 ^ q * 10 ^ 16 := by ring
  exact lt_of_mul_lt_mul_right hscaled (by positivity)

/-- One of the two points beside a number reads back, where the grid is fine enough. -/
theorem isSome_gridPoint? (h : Regular m q) {k : Int} (hk : (10 : ℚ) ^ k * 10 ^ 16 ≤ m * 2 ^ q) :
    (gridPoint? m q k).isSome := by
  have hgrid := grid_lt h hk
  have hhalf := below_le m q
  have hside := mul_le_mul_of_nonneg_right hhalf (show (0 : ℚ) ≤ 2 ^ q by positivity)
  have hunit : (0 : ℚ) < 2 ^ q := by positivity
  let d := (scaled m q k).1 / (scaled m q k).2
  have hdown : (d : ℚ) * 10 ^ k ≤ m * 2 ^ q := (le_scaled_iff m d q k).mp (Nat.div_mul_le_self _ _)
  have hup : (m : ℚ) * 2 ^ q ≤ (d + 1 : Nat) * 10 ^ k := by
    refine (scaled_le_iff m (d + 1) q k).mp ?_
    rw [mul_comm]
    exact (Nat.lt_mul_div_succ _ (scaled_pos m q k)).le
  have hnear : readsBack m q d k = true ∨ readsBack m q (d + 1) k = true := by
    push_cast at hup
    rcases le_total ((m : ℚ) * 2 ^ q - d * 10 ^ k) (10 ^ k / 2) with hleft | hright
    · left
      rw [readsBack_iff h.pos]
      exact .of_strict (by linarith) (by linarith)
    · right
      rw [readsBack_iff h.pos]
      push_cast
      exact .of_strict (by linarith) (by linarith)
  unfold gridPoint?
  dsimp only
  split
  · split <;> rfl
  · rfl
  · rfl
  · next hd hd' => simp [d, hd, hd'] at hnear

/-! ## The leading digit -/

theorem digitCount_spec {n : Nat} (hn : 0 < n) :
    (10 : ℚ) ^ ((digitCount n : Int) - 1) ≤ n ∧ (n : ℚ) < 10 ^ (digitCount n : Int) := by
  have hpos : 0 < digitCount n := Nat.length_toDigits_pos
  have hhigh : n < 10 ^ digitCount n := (Nat.length_toDigits_le_iff (by decide) hpos).mp (Nat.le_refl _)
  have hlow : 10 ^ (digitCount n - 1) ≤ n := by
    by_contra hless
    have hmore : 0 < digitCount n - 1 := by
      rcases Nat.eq_zero_or_pos (digitCount n - 1) with h | h
      · rw [h] at hless
        omega
      · exact h
    have := (Nat.length_toDigits_le_iff (by decide) hmore).mpr (Nat.not_le.mp hless)
    unfold digitCount at *
    omega
  constructor
  · rw [show ((digitCount n : Int) - 1) = ((digitCount n - 1 : Nat) : Int) by omega, zpow_natCast]
    exact_mod_cast hlow
  · rw [zpow_natCast]
    exact_mod_cast hhigh

theorem leadingExponent_spec (hm : 0 < m) (q : Int) : (10 : ℚ) ^ leadingExponent m q ≤ m * 2 ^ q := by
  unfold leadingExponent
  split
  · next hq =>
    have hpos : 0 < m * Nat.pow 2 q.toNat := Nat.mul_pos hm (Nat.two_pow_pos _)
    refine (digitCount_spec hpos).1.trans_eq ?_
    rw [two_zpow_of_nonneg hq]
    exact_mod_cast rfl
  · next hq =>
    have hinv := two_zpow_of_neg (Int.not_le.mp hq)
    have hdiv : ∀ n : Nat, ((n / 2 ^ (-q).toNat : Nat) : ℚ) ≤ n * 2 ^ q := fun n => by
      refine le_of_le_of_eq Nat.cast_div_le ?_
      rw [div_eq_iff (by positivity), mul_assoc, hinv, mul_one]
    dsimp only
    split
    · next hwhole =>
      exact (digitCount_spec hwhole).1.trans (hdiv m)
    · have hmany : 2 ^ (-q).toNat ≤ m * 10 ^ (-q).toNat :=
        (Nat.pow_le_pow_left (by decide) _).trans (Nat.le_mul_of_pos_left _ hm)
      have hpos : 0 < m * 10 ^ (-q).toNat / 2 ^ (-q).toNat := Nat.div_pos hmany (Nat.two_pow_pos _)
      have hshift : (10 : ℚ) ^ ((-q).toNat : Int) ≠ 0 := by positivity
      rw [zpow_sub₀ (by norm_num), div_le_iff₀ (by positivity)]
      refine ((digitCount_spec hpos).1.trans (hdiv _)).trans_eq ?_
      push_cast
      rw [zpow_natCast]
      ring

/-! ## The search -/

theorem readsBack_shortestFrom {lead : Int} {fuel digits : Nat}
    (h : ∃ j < fuel, (gridPoint? m q (lead - (digits + j : Nat) + 1)).isSome) :
    readsBack m q (shortestFrom m q lead fuel digits).1 (shortestFrom m q lead fuel digits).2 = true := by
  induction fuel generalizing digits with
  | zero =>
    obtain ⟨_, hj, -⟩ := h
    cases hj
  | succ fuel ih =>
    unfold shortestFrom
    dsimp only
    split
    · next d hd => exact readsBack_of_gridPoint? hd
    · next hnone =>
      refine ih ?_
      obtain ⟨j, hj, hsome⟩ := h
      cases j with
      | zero =>
        rw [Nat.add_zero, hnone] at hsome
        cases hsome
      | succ j => exact ⟨j, Nat.lt_of_succ_lt_succ hj, by rwa [show digits + 1 + j = digits + (j + 1) by omega]⟩

theorem rounds_shortest (h : Regular m q) :
    Rounds m q ((shortest m q).1 * 10 ^ (shortest m q).2) := by
  rw [← readsBack_iff h.pos]
  refine readsBack_shortestFrom ⟨16, by decide, isSome_gridPoint? h ?_⟩
  refine le_trans (le_of_eq ?_) (leadingExponent_spec h.pos q)
  rw [← zpow_natCast, ← zpow_add₀ (by norm_num)]
  congr 1
  push_cast
  ring

/-! ## Reading a numeral -/

private theorem ten_zpow_lt_two_zpow : (10 : ℚ) ^ (-330 : Int) < 2 ^ (-1075 : Int) := by
  have hpow : 2 ^ 1075 < 10 ^ 330 := by decide +kernel
  rw [zpow_neg, zpow_neg]
  exact inv_strictAnti₀ (by positivity) (by exact_mod_cast hpow)

private theorem two_zpow_lt_ten_zpow : (2 : ℚ) ^ (1024 : Int) < 10 ^ (309 : Int) := by
  have hpow : 2 ^ 1024 < 10 ^ 309 := by decide +kernel
  exact_mod_cast hpow

theorem magnitude_of_rounds (h : Regular m q) {n : Nat} (hn : 0 < n) {e : Int}
    (hx : Rounds m q (n * 10 ^ e)) : -330 < (digitCount n : Int) + e ∧ (digitCount n : Int) + e ≤ 310 := by
  obtain ⟨hlow, hhigh⟩ := hx.weak
  obtain ⟨hfirst, hbeyond⟩ := digitCount_spec hn
  have hten : (0 : ℚ) < 10 ^ e := by positivity
  have hunit : (0 : ℚ) < 2 ^ q := by positivity
  constructor
  · have hleast : (2 : ℚ) ^ (-1075 : Int) < 10 ^ ((digitCount n : Int) + e) := by
      have hm : (1 : ℚ) ≤ m := by exact_mod_cast h.pos
      have hhalf := below_le m q
      have hsmall : (2 : ℚ) ^ (-1074 : Int) ≤ 2 ^ q := zpow_le_zpow_right₀ one_le_two h.low
      have hleft : 1 / 2 ≤ (m : ℚ) - below m q := by linarith
      calc (2 : ℚ) ^ (-1075 : Int) = 2 ^ (-1 : Int) * 2 ^ (-1074 : Int) := by
            rw [← zpow_add₀ two_ne_zero]
            norm_num only
        _ = 1 / 2 * 2 ^ (-1074 : Int) := by rw [zpow_neg_one, one_div]
        _ ≤ (m - below m q) * 2 ^ q := by gcongr
        _ ≤ n * 10 ^ e := hlow
        _ < 10 ^ (digitCount n : Int) * 10 ^ e := mul_lt_mul_of_pos_right hbeyond hten
        _ = 10 ^ ((digitCount n : Int) + e) := by rw [zpow_add₀ (by norm_num)]
    have hfar : (10 : ℚ) ^ (-330 : Int) < 10 ^ ((digitCount n : Int) + e) := ten_zpow_lt_two_zpow.trans hleast
    exact (zpow_lt_zpow_iff_right₀ (by norm_num)).mp hfar
  · have hmost : (10 : ℚ) ^ ((digitCount n : Int) - 1 + e) < 2 ^ (1024 : Int) := by
      have hm : (m : ℚ) + 1 ≤ 2 ^ (53 : Int) := by exact_mod_cast h.short
      have hlarge : (2 : ℚ) ^ q ≤ 2 ^ (971 : Int) := zpow_le_zpow_right₀ one_le_two h.high
      calc (10 : ℚ) ^ ((digitCount n : Int) - 1 + e) = 10 ^ ((digitCount n : Int) - 1) * 10 ^ e :=
            zpow_add₀ (by norm_num) _ _
        _ ≤ n * 10 ^ e := by gcongr
        _ ≤ (m + 1 / 2) * 2 ^ q := hhigh
        _ < 2 ^ (53 : Int) * 2 ^ q := mul_lt_mul_of_pos_right (by linarith) hunit
        _ ≤ 2 ^ (53 : Int) * 2 ^ (971 : Int) := by gcongr
        _ = 2 ^ (1024 : Int) := by rw [← zpow_add₀ two_ne_zero]; norm_num
    have hfar : (10 : ℚ) ^ ((digitCount n : Int) - 1 + e) < 10 ^ (309 : Int) := hmost.trans two_zpow_lt_ten_zpow
    have := (zpow_lt_zpow_iff_right₀ (by norm_num)).mp hfar
    omega

theorem ofDecimal_of_rounds (h : Regular m q) {n : Nat} {e : Int} (hx : Rounds m q (n * 10 ^ e)) :
    ofDecimal n e = (encode m q).toUInt64 := by
  have hn : 0 < n := by
    have hpos := hx.pos h.pos
    rcases Nat.eq_zero_or_pos n with rfl | hn
    · simp at hpos
    · exact hn
  obtain ⟨hleast, hmost⟩ := magnitude_of_rounds h hn hx
  unfold ofDecimal
  dsimp only
  rw [if_neg (by simp; omega), if_neg (by omega)]
  split
  · next he =>
    refine congrArg Nat.toUInt64 (nearestBits_of_rounds h (Nat.mul_pos hn (Nat.pow_pos (by decide))) one_pos ?_)
    rw [zpow_eq_div 10 e, show (-e).toNat = 0 by omega, pow_zero, div_one] at hx
    push_cast
    rw [div_one]
    exact_mod_cast hx
  · next he =>
    refine congrArg Nat.toUInt64 (nearestBits_of_rounds h hn (Nat.pow_pos (by decide)) ?_)
    rw [zpow_eq_div 10 e, show e.toNat = 0 by omega, pow_zero, one_div, ← div_eq_mul_inv] at hx
    exact_mod_cast hx

end Handheld.Binary64
