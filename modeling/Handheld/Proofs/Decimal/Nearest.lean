import Handheld.Decimal.Binary64
import Mathlib.Algebra.Order.Field.Power
import Mathlib.Data.Rat.Cast.Order
import Mathlib.Tactic.FieldSimp
import Mathlib.Tactic.Linarith
import Mathlib.Tactic.Positivity
import Mathlib.Tactic.Qify
import Mathlib.Tactic.Ring

/-!
# The nearest binary64 number

Around a number `m * 2 ^ q` of the format lie the values that are nearer to it than to any other
(`Rounds`). For each of them the conversion gives the bits of that number (`nearestBits_of_rounds`): also
just below a power of two, where the values are taken for larger ones of the binade below.
-/

namespace Handheld.Binary64

/-- A positive finite number of the format: its significand has the full length, unless its exponent is
the smallest. -/
structure Regular (m : Nat) (q : Int) : Prop where
  pos : 0 < m
  short : m < 2 ^ 53
  low : minExponent ≤ q
  high : q ≤ 971
  full : 2 ^ 52 ≤ m ∨ q = minExponent

/-- How far below `m`, in units of `2 ^ q`, the values reach that round to `m * 2 ^ q`. -/
def below (m : Nat) (q : Int) : ℚ := if m = 2 ^ 52 ∧ q ≠ minExponent then 1 / 4 else 1 / 2

/-- A value rounds to `m * 2 ^ q`; the bounds do where `m` is even. -/
def Rounds (m : Nat) (q : Int) (x : ℚ) : Prop :=
  if m % 2 = 0 then (m - below m q) * 2 ^ q ≤ x ∧ x ≤ (m + 1 / 2) * 2 ^ q
  else (m - below m q) * 2 ^ q < x ∧ x < (m + 1 / 2) * 2 ^ q

def encode (m : Nat) (q : Int) : Nat :=
  if q = minExponent then m else (q + 1074).toNat * 2 ^ 52 + m

/-! ## Division -/

theorem divideToEven_eq {a b n : Nat} (hb : 0 < b) (hlow : 2 * n * b ≤ 2 * a + b)
    (hhigh : 2 * a ≤ (2 * n + 1) * b)
    (hodd : n % 2 = 1 → 2 * n * b < 2 * a + b ∧ 2 * a < (2 * n + 1) * b) : divideToEven a b = n := by
  have hdiv : b * (a / b) + a % b = a := Nat.div_add_mod a b
  have hmod : a % b < b := Nat.mod_lt a hb
  unfold divideToEven
  dsimp only
  generalize a / b = d at *
  generalize a % b = r at *
  subst hdiv
  have hdn : d ≤ n := by
    by_contra h
    have : (n + 1) * b ≤ d * b := Nat.mul_le_mul_right b (by omega)
    nlinarith
  have hnd : n ≤ d + 1 := by
    by_contra h
    have : (d + 2) * b ≤ n * b := Nat.mul_le_mul_right b (by omega)
    nlinarith
  obtain rfl | rfl : n = d ∨ n = d + 1 := by omega
  · have hup : (2 * n + 1) * b = 2 * (b * n) + b := by ring
    have hdown : 2 * n * b = 2 * (b * n) := by ring
    rw [hup] at hhigh hodd
    generalize b * n = p at *
    split <;> [rfl; split <;> [omega; split <;> [rfl; omega]]]
  · have hup : (2 * (d + 1) + 1) * b = 2 * (b * d) + 3 * b := by ring
    have hdown : 2 * (d + 1) * b = 2 * (b * d) + 2 * b := by ring
    rw [hup, hdown] at hodd
    rw [hdown] at hlow
    generalize b * d = p at *
    split <;> [omega; split <;> [rfl; split <;> [omega; rfl]]]

/-! ## Scales -/

theorem two_zpow_of_nonneg {e : Int} (h : 0 ≤ e) : (2 : ℚ) ^ e = (2 ^ e.toNat : Nat) := by
  rw [Nat.cast_pow, ← zpow_natCast, Int.toNat_of_nonneg h]
  rfl

theorem two_zpow_of_neg {e : Int} (h : e < 0) : (2 : ℚ) ^ e * (2 ^ (-e).toNat : Nat) = 1 := by
  rw [← two_zpow_of_nonneg (by omega : 0 ≤ -e), ← zpow_add₀ two_ne_zero, Int.add_right_neg, zpow_zero]

theorem le_scaled_iff_of_neg {a b : Nat} {e : Int} (h : e < 0) :
    b ≤ a * Nat.pow 2 (-e).toNat ↔ (2 : ℚ) ^ e * b ≤ a := by
  have hinv := two_zpow_of_neg h
  have hpos : (0 : ℚ) < (2 ^ (-e).toNat : Nat) := by positivity
  have hscale : (2 : ℚ) ^ e * b ≤ a ↔ (b : ℚ) ≤ a * (2 ^ (-e).toNat : Nat) := by
    rw [← mul_le_mul_iff_left₀ hpos, mul_right_comm, hinv, one_mul]
  rw [hscale]
  exact_mod_cast Iff.rfl

theorem log2_spec {a : Nat} (ha : 0 < a) :
    (2 : ℚ) ^ (a.log2 : Int) ≤ a ∧ (a : ℚ) < 2 ^ ((a.log2 : Int) + 1) := by
  have hlow : 2 ^ a.log2 ≤ a := Nat.log2_self_le (Nat.ne_of_gt ha)
  have hhigh : a < 2 ^ (a.log2 + 1) := Nat.lt_log2_self
  constructor
  · rw [zpow_natCast]
    exact_mod_cast hlow
  · rw [← Nat.cast_one, ← Nat.cast_add, zpow_natCast]
    exact_mod_cast hhigh

theorem floorLog2_spec {a b : Nat} (ha : 0 < a) (hb : 0 < b) :
    (2 : ℚ) ^ floorLog2 a b * b ≤ a ∧ (a : ℚ) < 2 ^ (floorLog2 a b + 1) * b := by
  obtain ⟨halow, hahigh⟩ := log2_spec ha
  obtain ⟨hblow, hbhigh⟩ := log2_spec hb
  have hfits : floorLog2 a b = if (2 : ℚ) ^ ((a.log2 : Int) - b.log2) * b ≤ a then (a.log2 : Int) - b.log2
      else (a.log2 : Int) - b.log2 - 1 := by
    unfold floorLog2
    dsimp only
    generalize (a.log2 : Int) - b.log2 = e
    rcases Int.lt_or_le e 0 with hneg | hnonneg
    · rw [if_neg (by omega)]
      exact if_congr (le_scaled_iff_of_neg hneg) rfl rfl
    · rw [if_pos hnonneg]
      refine if_congr ?_ rfl rfl
      rw [two_zpow_of_nonneg hnonneg, mul_comm]
      exact_mod_cast Iff.rfl
  generalize he : (a.log2 : Int) - b.log2 = e at hfits
  rw [hfits]
  split
  · next h =>
    refine ⟨h, ?_⟩
    calc (a : ℚ) < 2 ^ ((a.log2 : Int) + 1) := hahigh
      _ = 2 ^ (e + 1) * 2 ^ (b.log2 : Int) := by rw [← zpow_add₀ two_ne_zero, ← he]; congr 1; ring
      _ ≤ 2 ^ (e + 1) * b := by gcongr
  · next h =>
    refine ⟨?_, ?_⟩
    · calc (2 : ℚ) ^ (e - 1) * b ≤ 2 ^ (e - 1) * 2 ^ ((b.log2 : Int) + 1) := by gcongr
        _ = 2 ^ (a.log2 : Int) := by rw [← zpow_add₀ two_ne_zero, ← he]; congr 1; ring
        _ ≤ a := halow
    · rw [Int.sub_add_cancel]
      exact not_le.mp h

theorem floorLog2_lt {a b : Nat} (ha : 0 < a) (hb : 0 < b) {k : Int} (h : (a : ℚ) < 2 ^ k * b) :
    floorLog2 a b < k := by
  have hbpos : (0 : ℚ) < b := by exact_mod_cast hb
  have hpow := lt_of_mul_lt_mul_right ((floorLog2_spec ha hb).1.trans_lt h) hbpos.le
  exact (zpow_lt_zpow_iff_right₀ one_lt_two).mp hpow

theorem le_floorLog2 {a b : Nat} (ha : 0 < a) (hb : 0 < b) {k : Int} (h : 2 ^ k * b ≤ (a : ℚ)) :
    k ≤ floorLog2 a b := by
  have hbpos : (0 : ℚ) < b := by exact_mod_cast hb
  have hpow := lt_of_mul_lt_mul_right (h.trans_lt (floorLog2_spec ha hb).2) hbpos.le
  exact Int.lt_add_one_iff.mp ((zpow_lt_zpow_iff_right₀ one_lt_two).mp hpow)

/-! ## Rounding -/

/-- A quotient is rounded to a number that is at most half away, and less than half if it is odd. -/
theorem divideToEven_near {a b n : Nat} (hb : 0 < b) (hlow : (n - 1 / 2) * b ≤ (a : ℚ))
    (hhigh : (a : ℚ) ≤ (n + 1 / 2) * b)
    (hodd : n % 2 = 1 → (n - 1 / 2) * b < (a : ℚ) ∧ (a : ℚ) < (n + 1 / 2) * b) :
    divideToEven a b = n := by
  refine divideToEven_eq hb ?_ ?_ fun h => ⟨?_, ?_⟩
  · qify
    linarith
  · qify
    linarith
  · have := (hodd h).1
    qify
    linarith
  · have := (hodd h).2
    qify
    linarith

theorem divideToEven_scaled {a b n : Nat} {q : Int} (hb : 0 < b)
    (hlow : (n - 1 / 2) * 2 ^ q * b ≤ (a : ℚ)) (hhigh : (a : ℚ) ≤ (n + 1 / 2) * 2 ^ q * b)
    (hodd : n % 2 = 1 → (n - 1 / 2) * 2 ^ q * b < (a : ℚ) ∧ (a : ℚ) < (n + 1 / 2) * 2 ^ q * b) :
    (if 0 ≤ q then divideToEven a (b * Nat.pow 2 q.toNat)
      else divideToEven (a * Nat.pow 2 (-q).toNat) b) = n := by
  split
  · next hq =>
    have hscale : ∀ x : ℚ, x * ((b * 2 ^ q.toNat : Nat) : ℚ) = x * 2 ^ q * b := by
      intro x
      rw [two_zpow_of_nonneg hq]
      push_cast
      ring
    refine divideToEven_near (Nat.mul_pos hb (Nat.two_pow_pos _)) ?_ ?_ fun h => ?_
    · exact (hscale _).trans_le hlow
    · exact hhigh.trans_eq (hscale _).symm
    · exact ⟨(hscale _).trans_lt (hodd h).1, (hodd h).2.trans_eq (hscale _).symm⟩
  · next hq =>
    have hinv := two_zpow_of_neg (Int.not_le.mp hq)
    have hpos : (0 : ℚ) < (2 ^ (-q).toNat : Nat) := by positivity
    have hscale : ∀ x : ℚ, x * 2 ^ q * b * (2 ^ (-q).toNat : Nat) = x * b := by
      intro x
      rw [mul_right_comm _ _ (b : ℚ), mul_assoc, hinv, mul_one]
    have ha : ((a * 2 ^ (-q).toNat : Nat) : ℚ) = a * (2 ^ (-q).toNat : Nat) := Nat.cast_mul ..
    refine divideToEven_near hb ?_ ?_ fun h => ⟨?_, ?_⟩
    · rw [← hscale]
      exact (mul_le_mul_of_nonneg_right hlow hpos.le).trans_eq ha.symm
    · rw [← hscale]
      exact ha.trans_le (mul_le_mul_of_nonneg_right hhigh hpos.le)
    · rw [← hscale]
      exact (mul_lt_mul_of_pos_right (hodd h).1 hpos).trans_eq ha.symm
    · rw [← hscale]
      exact ha.trans_lt (mul_lt_mul_of_pos_right (hodd h).2 hpos)

variable {m : Nat} {q : Int}

theorem Rounds.weak {x : ℚ} (h : Rounds m q x) :
    (m - below m q) * 2 ^ q ≤ x ∧ x ≤ (m + 1 / 2) * 2 ^ q := by
  unfold Rounds at h
  split at h
  · exact h
  · exact ⟨h.1.le, h.2.le⟩

theorem below_le (m : Nat) (q : Int) : below m q ≤ 1 / 2 := by
  unfold below
  split <;> norm_num

theorem encode_lt (h : Regular m q) : encode m q < infinityBits := by
  obtain ⟨_, hshort, hlow, hhigh, _⟩ := h
  unfold encode infinityBits minExponent fractionBits at *
  show _ < 2047 * 2 ^ 52
  split <;> omega

theorem encode_binade (h : Regular m q) (hleast : m = 2 ^ 52) (hmin : q ≠ minExponent) :
    (if q - 1 = minExponent then 2 ^ 53
      else (q - 1 + 1074).toNat * Nat.pow 2 fractionBits + 2 ^ 53) = encode m q := by
  have hlow := h.low
  unfold encode
  rw [if_neg hmin, hleast]
  unfold minExponent at *
  show (if q - 1 = -1074 then 2 ^ 53 else (q - 1 + 1074).toNat * 2 ^ 52 + 2 ^ 53) = _
  split <;> omega

/-- The exponent that a value is rounded at is that of the number it rounds to, or one less just below a
power of two. -/
theorem exponent_of_rounds (h : Regular m q) {a b : Nat} (ha : 0 < a) (hb : 0 < b)
    (hx : Rounds m q (a / b)) :
    max (floorLog2 a b - fractionBits) minExponent = q ∨
      m = 2 ^ 52 ∧ q ≠ minExponent ∧ max (floorLog2 a b - fractionBits) minExponent = q - 1 ∧
        (a : ℚ) < 2 ^ (q + 52) * b := by
  obtain ⟨hlow, hhigh⟩ := hx.weak
  have hbpos : (0 : ℚ) < b := by exact_mod_cast hb
  rw [le_div_iff₀ hbpos] at hlow
  rw [div_le_iff₀ hbpos] at hhigh
  have hbits : (fractionBits : Int) = 52 := rfl
  rw [hbits]
  have hscale : ∀ k : Int, (2 : ℚ) ^ (q + k) * b = 2 ^ k * 2 ^ q * b := fun k => by
    rw [zpow_add₀ two_ne_zero, mul_comm ((2 : ℚ) ^ q)]
  have hunit : (0 : ℚ) < 2 ^ q * b := by positivity
  have htop : floorLog2 a b < q + 53 := by
    refine floorLog2_lt ha hb (hhigh.trans_lt ?_)
    have hm : (m : ℚ) + 1 ≤ 2 ^ (53 : Int) := by exact_mod_cast h.short
    rw [hscale, mul_assoc, mul_assoc]
    exact mul_lt_mul_of_pos_right (by linarith) hunit
  rcases eq_or_ne q minExponent with hmin | hmin
  · left
    omega
  have hfull : 2 ^ 52 ≤ m := h.full.resolve_right hmin
  have hlow' := h.low
  rcases lt_or_ge (a : ℚ) (2 ^ (q + 52) * b) with hless | hmore
  · have hleast : m = 2 ^ 52 := by
      by_contra hne
      have hm : (2 : ℚ) ^ (52 : Int) + 1 ≤ m := by exact_mod_cast lt_of_le_of_ne hfull (Ne.symm hne)
      have hhalf := below_le m q
      rw [hscale] at hless
      have : (2 : ℚ) ^ (52 : Int) * (2 ^ q * b) < (m - below m q) * (2 ^ q * b) :=
        mul_lt_mul_of_pos_right (by linarith) hunit
      linarith
    refine .inr ⟨hleast, hmin, ?_, hless⟩
    have hupper := floorLog2_lt ha hb hless
    have hlower : q + 51 ≤ floorLog2 a b := by
      refine le_floorLog2 ha hb (le_trans ?_ hlow)
      have hhalf := below_le m q
      rw [hscale, mul_assoc, mul_assoc]
      refine mul_le_mul_of_nonneg_right ?_ hunit.le
      have hm : (m : ℚ) = 2 ^ (51 : Int) * 2 := by
        rw [hleast]
        norm_num
      have hbig : (1 : ℚ) ≤ 2 ^ (51 : Int) := by norm_num
      linarith
    omega
  · left
    have := le_floorLog2 ha hb hmore
    omega

/-- Whatever rounds to a number of the format gives its bits. -/
theorem nearestBits_of_rounds (h : Regular m q) {a b : Nat} (ha : 0 < a) (hb : 0 < b)
    (hx : Rounds m q (a / b)) : nearestBits a b = encode m q := by
  have hbpos : (0 : ℚ) < b := by exact_mod_cast hb
  obtain ⟨hlow, hhigh⟩ := hx.weak
  rw [le_div_iff₀ hbpos] at hlow
  rw [div_le_iff₀ hbpos] at hhigh
  have hunit : (0 : ℚ) < 2 ^ q * b := by positivity
  have hhalf := below_le m q
  rcases exponent_of_rounds h ha hb hx with hsame | ⟨hleast, hmin, hless, hbelow⟩
  · have hodd : m % 2 = 1 → (m - 1 / 2) * 2 ^ q * b < (a : ℚ) ∧ (a : ℚ) < (m + 1 / 2) * 2 ^ q * b := by
      intro hm
      rw [Rounds, if_neg (by omega), lt_div_iff₀ hbpos, div_lt_iff₀ hbpos] at hx
      refine ⟨lt_of_le_of_lt ?_ hx.1, hx.2⟩
      rw [mul_assoc, mul_assoc]
      exact mul_le_mul_of_nonneg_right (by linarith) hunit.le
    have hwide : (m - 1 / 2) * 2 ^ q * b ≤ (a : ℚ) := by
      refine le_trans ?_ hlow
      rw [mul_assoc, mul_assoc]
      exact mul_le_mul_of_nonneg_right (by linarith) hunit.le
    have hrounded := divideToEven_scaled hb hwide hhigh hodd
    unfold nearestBits
    dsimp only
    rw [hsame, hrounded]
    exact Nat.min_eq_left (encode_lt h).le
  · -- Just below `2 ^ 52`, values round up to `2 ^ 53` in the binade below.
    have hexact : (m : ℚ) = 2 ^ 52 := by rw [hleast]; norm_num
    have hhalved : (2 : ℚ) ^ q = 2 ^ (q - 1) * 2 := by
      rw [← zpow_add_one₀ two_ne_zero, Int.sub_add_cancel]
    have hmargin : below m q = 1 / 4 := if_pos ⟨hleast, hmin⟩
    have hrounded : (if 0 ≤ q - 1 then divideToEven a (b * Nat.pow 2 (q - 1).toNat)
        else divideToEven (a * Nat.pow 2 (-(q - 1)).toNat) b) = 2 ^ 53 := by
      refine divideToEven_scaled hb ?_ ?_ fun h => absurd h (by decide)
      · rw [hexact, hmargin, hhalved] at hlow
        push_cast
        linarith
      · rw [zpow_add₀ two_ne_zero, hhalved] at hbelow
        have hunit' : (0 : ℚ) < 2 ^ (q - 1) * b := by positivity
        push_cast
        norm_num at hbelow ⊢
        linarith
    unfold nearestBits
    dsimp only
    rw [hless, hrounded, encode_binade h hleast hmin]
    exact Nat.min_eq_left (encode_lt h).le

end Handheld.Binary64
