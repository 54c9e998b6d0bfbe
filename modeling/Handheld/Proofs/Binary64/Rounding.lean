import Handheld.Proofs.Decimal.Nearest
import Mathlib

/-!
# Rounding

A number of the format has a significand of 53 bits at most. A result is `Faithful` to an exact value if
no number of the format lies between the two: this is all that is used of the rounding of machine
arithmetic, and `round_holds` and `normalize_holds` show it of the library's model of it, as long as the
value is not too large. They follow the shifts that the model makes: what is shifted out is kept in two
bits, which say how the value lies to the significand (`Stands`).
-/

namespace Handheld.Binary64

open Float.Model Float.Model.UnpackedFloat

/-! ## Numbers of the format -/

/-- A significand of 53 bits at most and an exponent that is not too small; how large the number is does
not matter. -/
def Representable (x : ℚ) : Prop :=
  ∃ n e : ℤ, |n| < 2 ^ 53 ∧ minExponent ≤ e ∧ x = n * 2 ^ e

theorem Representable.neg {x : ℚ} (h : Representable x) : Representable (-x) := by
  obtain ⟨n, e, hn, he, rfl⟩ := h
  refine ⟨-n, e, by rwa [abs_neg], he, ?_⟩
  push_cast
  ring

theorem representable_intCast {n : ℤ} (h : |n| < 2 ^ 53) : Representable n :=
  ⟨n, 0, h, by decide, by rw [zpow_zero, mul_one]⟩

theorem representable_zero : Representable 0 := by
  simpa using representable_intCast (n := 0) (by norm_num)

theorem representable_two_zpow {e : ℤ} (h : minExponent ≤ e) : Representable (2 ^ e) :=
  ⟨1, e, by norm_num, h, by simp⟩

theorem representable_half {n : ℤ} (h : |n| < 2 ^ 53) : Representable (n / 2) :=
  ⟨n, -1, h, by decide, by rw [zpow_neg_one, div_eq_mul_inv]⟩

theorem Representable.min {x y : ℚ} (hx : Representable x) (hy : Representable y) :
    Representable (min x y) := by
  rcases min_choice x y with h | h <;> rwa [h]

theorem Representable.max {x y : ℚ} (hx : Representable x) (hy : Representable y) :
    Representable (max x y) := by
  rcases max_choice x y with h | h <;> rwa [h]

theorem representable_of_le {k : ℕ} {e : ℤ} (hk : k ≤ 2 ^ 53) (he : minExponent ≤ e) :
    Representable (k * 2 ^ e) := by
  rcases Nat.lt_or_eq_of_le hk with hlt | rfl
  · exact ⟨k, e, by rw [Nat.abs_cast]; exact_mod_cast hlt, he, rfl⟩
  · refine ⟨2 ^ 52, e + 1, by norm_num, by omega, ?_⟩
    rw [zpow_add_one₀ two_ne_zero]
    push_cast
    ring

/-- Numbers that are large enough for it are multiples of a power of two. -/
theorem Representable.on_grid {x : ℚ} (h : Representable x) {e : ℤ}
    (hlarge : e ≤ minExponent ∨ 2 ^ 52 * 2 ^ e ≤ |x|) : ∃ k : ℤ, x = k * 2 ^ e := by
  obtain ⟨n, f, hn, hf, rfl⟩ := h
  have hef : e ≤ f := by
    rcases hlarge with he | hlarge
    · omega
    · have hnq : |(n : ℚ)| < 2 ^ 53 := by exact_mod_cast hn
      have hpos : (0 : ℚ) < 2 ^ f := by positivity
      have hlt : (2 : ℚ) ^ (52 + e) < 2 ^ (53 + f) :=
        calc (2 : ℚ) ^ (52 + e) = 2 ^ 52 * 2 ^ e := by rw [zpow_add₀ two_ne_zero]; norm_num
          _ ≤ |(n : ℚ) * 2 ^ f| := hlarge
          _ = |(n : ℚ)| * 2 ^ f := by rw [abs_mul, abs_of_pos hpos]
          _ < 2 ^ 53 * 2 ^ f := by gcongr
          _ = 2 ^ (53 + f) := by rw [zpow_add₀ two_ne_zero]; norm_num
      have := (zpow_lt_zpow_iff_right₀ (by norm_num : (1 : ℚ) < 2)).mp hlt
      omega
  refine ⟨n * 2 ^ (f - e).toNat, ?_⟩
  have hsplit : (2 : ℚ) ^ f = 2 ^ (f - e).toNat * 2 ^ e := by
    rw [← zpow_natCast, Int.toNat_of_nonneg (by omega), ← zpow_add₀ two_ne_zero, Int.sub_add_cancel]
  rw [hsplit]
  push_cast
  ring

/-- No number of the format lies between a value and what stands for it. -/
structure Faithful (x r : ℚ) : Prop where
  representable : Representable r
  le {b : ℚ} : Representable b → x ≤ b → r ≤ b
  ge {b : ℚ} : Representable b → b ≤ x → b ≤ r

theorem Faithful.refl {x : ℚ} (h : Representable x) : Faithful x x := ⟨h, fun _ hb => hb, fun _ hb => hb⟩

theorem Faithful.eq {x r : ℚ} (h : Faithful x r) (hx : Representable x) : r = x :=
  le_antisymm (h.le hx le_rfl) (h.ge hx le_rfl)

theorem Faithful.neg {x r : ℚ} (h : Faithful x r) : Faithful (-x) (-r) where
  representable := h.representable.neg
  le hb hxb := neg_le.mp (h.ge hb.neg (neg_le.mp hxb))
  ge hb hbx := le_neg.mp (h.le hb.neg (le_neg.mp hbx))

theorem Faithful.between {x r lo hi : ℚ} (h : Faithful x r) (hlo : Representable lo)
    (hhi : Representable hi) (hx : lo ≤ x ∧ x ≤ hi) : lo ≤ r ∧ r ≤ hi :=
  ⟨h.ge hlo hx.1, h.le hhi hx.2⟩

/-- A multiple of a power of two next to a value, where the numbers of the format are such multiples. -/
theorem faithful_of_grid {x : ℚ} {e : ℤ} {m k : ℕ} (hlarge : e ≤ minExponent ∨ 2 ^ 52 ≤ m)
    (hlow : m * 2 ^ e ≤ x) (hhigh : x < (m + 1) * 2 ^ e) (hk : k = m ∨ k = m + 1 ∧ m * 2 ^ e < x)
    (hrepresentable : Representable (k * 2 ^ e)) : Faithful x (k * 2 ^ e) := by
  have hpos : (0 : ℚ) < 2 ^ e := by positivity
  have hgrid {b : ℚ} (hb : Representable b) (hmb : m * 2 ^ e ≤ b) : ∃ j : ℤ, b = j * 2 ^ e := by
    refine hb.on_grid (hlarge.imp_right fun hm => ?_)
    have hmq : (2 : ℚ) ^ 52 ≤ m := by exact_mod_cast hm
    calc (2 : ℚ) ^ 52 * 2 ^ e ≤ m * 2 ^ e := by gcongr
      _ ≤ b := hmb
      _ ≤ |b| := le_abs_self b
  refine ⟨hrepresentable, fun {b} hb hxb => ?_, fun {b} hb hbx => ?_⟩
  · obtain ⟨j, rfl⟩ := hgrid hb (hlow.trans hxb)
    have hkj : (k : ℤ) ≤ j := by
      rcases hk with rfl | ⟨rfl, hmx⟩
      · exact_mod_cast (mul_le_mul_iff_left₀ hpos).mp (hlow.trans hxb)
      · have : (m : ℤ) < j := by exact_mod_cast (mul_lt_mul_iff_left₀ hpos).mp (hmx.trans_le hxb)
        push_cast
        omega
    have hkq : (k : ℚ) ≤ j := by exact_mod_cast hkj
    gcongr
  · have hmk : (m : ℚ) * 2 ^ e ≤ k * 2 ^ e := by
      have : m ≤ k := by omega
      have : (m : ℚ) ≤ k := by exact_mod_cast this
      gcongr
    rcases le_or_gt b (m * 2 ^ e) with hbm | hmb
    · exact hbm.trans hmk
    · obtain ⟨j, rfl⟩ := hgrid hb hmb.le
      have hj : j ≤ m := by
        have : (j : ℚ) < (m : ℚ) + 1 := (mul_lt_mul_iff_left₀ hpos).mp (hbx.trans_lt hhigh)
        have : j < (m : ℤ) + 1 := by exact_mod_cast this
        omega
      have hjq : (j : ℚ) ≤ m := by exact_mod_cast hj
      exact le_trans (by gcongr) hmk

/-! ## What is shifted out -/

/-- A significand with two more bits that say how a value lies to it: whether it is half a unit more, and
whether anything is left beyond that. -/
def Stands (em : ExtendedMantissa) (x : ℚ) : Prop :=
  ∃ rest : ℚ, 0 ≤ rest ∧ rest < 1 / 2 ∧ (em.stickyBit = true ↔ 0 < rest) ∧
    x = em.mantissa + (if em.roundBit then 1 / 2 else 0) + rest

theorem stands_exact (m : ℕ) : Stands (.ofMantissaAndAccuracy m .exact) m :=
  ⟨0, le_rfl, by norm_num, by simp [ExtendedMantissa.ofMantissaAndAccuracy],
    by simp [ExtendedMantissa.ofMantissaAndAccuracy]⟩

theorem stands_fraction (m : ℕ) {num den : ℕ} (h : num < den) :
    Stands (.ofMantissaAndAccuracy m (accuracyOfFraction num den)) (m + num / den) := by
  have hden : (0 : ℚ) < den := by exact_mod_cast Nat.zero_lt_of_lt h
  have hlt : (num : ℚ) < den := by exact_mod_cast h
  rcases Nat.eq_zero_or_pos num with rfl | hnum
  · simpa [accuracyOfFraction] using stands_exact m
  have hpos : (0 : ℚ) < num := by exact_mod_cast hnum
  rw [accuracyOfFraction, if_neg (Nat.ne_of_gt hnum)]
  rcases hcompare : compare (2 * num) den with _ | _ | _
  · have htwice : (2 * num : ℚ) < den := by exact_mod_cast Nat.compare_eq_lt.mp hcompare
    refine ⟨num / den, by positivity, ?_, iff_of_true rfl (by positivity), ?_⟩
    · rw [div_lt_div_iff₀ hden two_pos]
      linarith
    · simp [ExtendedMantissa.ofMantissaAndAccuracy]
  · have htwice : (2 * num : ℚ) = den := by exact_mod_cast Nat.compare_eq_eq.mp hcompare
    refine ⟨0, le_rfl, by norm_num, by simp [ExtendedMantissa.ofMantissaAndAccuracy], ?_⟩
    simp only [ExtendedMantissa.ofMantissaAndAccuracy, if_true, ← htwice]
    field_simp
    ring
  · have htwice : (den : ℚ) < 2 * num := by exact_mod_cast Nat.compare_eq_gt.mp hcompare
    refine ⟨num / den - 1 / 2, ?_, ?_, iff_of_true rfl ?_, ?_⟩
    · rw [sub_nonneg, div_le_div_iff₀ two_pos hden]
      linarith
    · rw [sub_lt_iff_lt_add, add_halves, div_lt_one hden]
      exact hlt
    · rw [sub_pos, div_lt_div_iff₀ two_pos hden]
      linarith
    · simp only [ExtendedMantissa.ofMantissaAndAccuracy, if_true]
      ring

/-- What the last bit of the significand was worth becomes the half, and the half is left over. -/
theorem Stands.shiftRightOne {em : ExtendedMantissa} {x : ℚ} (h : Stands em x) :
    Stands em.shiftRightOne (x / 2) := by
  obtain ⟨rest, hnonneg, hlt, hsticky, rfl⟩ := h
  have hm : (em.mantissa : ℚ) = 2 * (em.mantissa / 2 : ℕ) + (em.mantissa % 2 : ℕ) := by
    exact_mod_cast (Nat.div_add_mod em.mantissa 2).symm
  have hlast : (if (em.mantissa % 2 != 0) = true then 1 / 2 else 0) = ((em.mantissa % 2 : ℕ) : ℚ) / 2 := by
    rcases Nat.mod_two_eq_zero_or_one em.mantissa with h | h <;> simp [h]
  refine ⟨((if em.roundBit then 1 / 2 else 0) + rest) / 2, ?_, ?_, ?_, ?_⟩
  · split <;> linarith
  · split <;> linarith
  · simp only [ExtendedMantissa.shiftRightOne, Bool.or_eq_true, hsticky]
    split
    · next hround => exact iff_of_true (.inl hround) (by linarith)
    · next hround => simp [hround]
  · show (em.mantissa + (if em.roundBit then 1 / 2 else 0) + rest) / 2 =
      ((em.mantissa / 2 : ℕ) : ℚ) + (if (em.mantissa % 2 != 0) = true then 1 / 2 else 0) +
        ((if em.roundBit then 1 / 2 else 0) + rest) / 2
    rw [hlast, hm]
    ring

theorem Stands.shiftRight {em : ExtendedMantissa} {x : ℚ} (h : Stands em x) (n : ℕ) :
    Stands (em >>> n) (x / 2 ^ n) := by
  show Stands (n.repeat ExtendedMantissa.shiftRightOne em) _
  induction n with
  | zero => simpa [Nat.repeat] using h
  | succ n ih =>
    rw [Nat.repeat, pow_succ, ← div_div]
    exact ih.shiftRightOne

theorem mantissa_shiftRight (em : ExtendedMantissa) (n : ℕ) :
    (em >>> n).mantissa = em.mantissa / 2 ^ n := by
  show (n.repeat ExtendedMantissa.shiftRightOne em).mantissa = _
  induction n with
  | zero => simp [Nat.repeat]
  | succ n ih =>
    show (n.repeat ExtendedMantissa.shiftRightOne em).mantissa / 2 = _
    rw [ih, Nat.div_div_eq_div_mul, pow_succ]

theorem mantissa_ofMantissaAndAccuracy (m : ℕ) (acc : Accuracy) :
    (ExtendedMantissa.ofMantissaAndAccuracy m acc).mantissa = m := by
  rcases acc with - | (_ | _ | _) <;> rfl

theorem Stands.bounds {em : ExtendedMantissa} {x : ℚ} (h : Stands em x) :
    em.mantissa ≤ x ∧ x < em.mantissa + 1 := by
  obtain ⟨rest, hnonneg, hlt, -, rfl⟩ := h
  constructor <;> split <;> linarith

theorem Stands.rounded {em : ExtendedMantissa} {x : ℚ} (h : Stands em x) :
    em.roundedMantissa = em.mantissa ∨
      em.roundedMantissa = em.mantissa + 1 ∧ (em.mantissa : ℚ) < x := by
  obtain ⟨rest, hnonneg, hlt, hsticky, rfl⟩ := h
  obtain ⟨m, roundBit, stickyBit⟩ := em
  cases roundBit with
  | false => left; cases stickyBit <;> rfl
  | true =>
    have hleft : (m : ℚ) < m + (if true = true then 1 / 2 else 0) + rest := by
      rw [if_pos rfl]
      linarith
    cases stickyBit with
    | true => exact .inr ⟨rfl, hleft⟩
    | false =>
      rcases Nat.mod_two_eq_zero_or_one m with hmod | hmod
      · left
        show m + m % 2 = m
        omega
      · refine .inr ⟨?_, hleft⟩
        show m + m % 2 = m + 1
        omega

/-! ## Rounding to the format -/

def signed (s : Sign) (x : ℚ) : ℚ :=
  match s with
  | .negative => -x
  | .positive => x

theorem Faithful.signed {x r : ℚ} (h : Faithful x r) (s : Sign) :
    Faithful (signed s x) (signed s r) := by
  cases s with
  | negative => exact h.neg
  | positive => exact h

/-- An unpacked number in the form that the format packs, and its value. -/
inductive Holds : UnpackedFloat → ℚ → Prop where
  | zero (s : Sign) : Holds (.zero s) 0
  | finite (s : Sign) {m : ℕ} {e : ℤ} (h : Regular m e) : Holds (.finite s m e h.pos) (signed s (m * 2 ^ e))

theorem Holds.representable {u : UnpackedFloat} {x : ℚ} (h : Holds u x) : Representable x := by
  cases h with
  | zero => exact representable_zero
  | finite s h => exact ((Faithful.refl (representable_of_le h.short.le h.low)).signed s).representable

theorem targetExponent_eq (total : ℤ) :
    Format.binary64.targetExponent total = max (total - 53) minExponent := rfl

/-- The shift to the exponent that the format wants of a value. It leaves a significand that is not too
long, and of the full length unless the exponent is the smallest. -/
theorem stands_shiftToTargetExponent {m : ℕ} {e : ℤ} {acc : Accuracy} {x : ℚ}
    (h : Stands (.ofMantissaAndAccuracy m acc) x)
    (he : e ≤ Format.binary64.targetExponent (totalExponent m e)) :
    ∃ em e', shiftToTargetExponent Format.binary64 m e acc = (em, e') ∧ minExponent ≤ e' ∧
      Stands em (x * 2 ^ e / 2 ^ e') ∧ em.mantissa < 2 ^ 53 ∧
      (e' ≤ minExponent ∨ 2 ^ 52 ≤ em.mantissa) := by
  have htotal : totalExponent m e = m.log2 + 1 + e := rfl
  have htarget := targetExponent_eq (totalExponent m e)
  obtain ⟨n, hn⟩ : ∃ n : ℕ, Format.binary64.targetExponent (totalExponent m e) - e = n :=
    ⟨_, (Int.toNat_of_nonneg (by omega)).symm⟩
  have hmantissa : (ExtendedMantissa.ofMantissaAndAccuracy m acc >>> n).mantissa = m / 2 ^ n := by
    rw [mantissa_shiftRight, mantissa_ofMantissaAndAccuracy]
  have hlt : m < 2 ^ (m.log2 + 1) := Nat.lt_log2_self
  refine ⟨ExtendedMantissa.ofMantissaAndAccuracy m acc >>> n, e + n, ?_, by omega, ?_, ?_, ?_⟩
  · simp only [shiftToTargetExponent, shiftToExponent, hn, Int.toNat_natCast]
  · rw [zpow_add₀ two_ne_zero, zpow_natCast, mul_comm ((2 : ℚ) ^ e), mul_div_mul_right _ _ (by positivity)]
    exact h.shiftRight n
  · rw [hmantissa, Nat.div_lt_iff_lt_mul (by positivity), ← pow_add]
    exact hlt.trans_le (Nat.pow_le_pow_right two_pos (by omega))
  · rw [hmantissa, Nat.le_div_iff_mul_le (by positivity), ← pow_add, or_iff_not_imp_left]
    intro hbig
    have hne : m ≠ 0 := by
      rintro rfl
      simp only [Nat.log2_zero] at htotal
      omega
    exact (Nat.pow_le_pow_right two_pos (by omega)).trans (Nat.log2_self_le hne)

theorem shiftToTargetExponent_of_lt {k : ℕ} {e : ℤ} (hk : k < 2 ^ 53) (he : minExponent ≤ e) :
    shiftToTargetExponent Format.binary64 k e .exact = (.ofMantissaAndAccuracy k .exact, e) := by
  have hlog : k.log2 < 53 := by
    rcases Nat.eq_zero_or_pos k with rfl | hpos
    · decide
    · exact (Nat.log2_lt (Nat.ne_of_gt hpos)).mpr hk
  have htarget := targetExponent_eq (totalExponent k e)
  have htotal : totalExponent k e = k.log2 + 1 + e := rfl
  have hshift : (Format.binary64.targetExponent (totalExponent k e) - e).toNat = 0 := by omega
  simp only [shiftToTargetExponent, shiftToExponent, hshift, Int.natCast_zero, Int.add_zero]
  rfl

theorem shiftToTargetExponent_of_overflow {e : ℤ} (he : minExponent ≤ e) :
    ∃ em, shiftToTargetExponent Format.binary64 (2 ^ 53) e .exact = (em, e + 1) ∧
      em.mantissa = 2 ^ 52 := by
  have htarget := targetExponent_eq (totalExponent (2 ^ 53) e)
  have htotal : totalExponent (2 ^ 53) e = 54 + e := by
    rw [totalExponent, Nat.log2_two_pow]
    norm_num
  have hshift : (Format.binary64.targetExponent (totalExponent (2 ^ 53) e) - e).toNat = 1 := by omega
  refine ⟨ExtendedMantissa.ofMantissaAndAccuracy (2 ^ 53) .exact >>> 1, ?_, ?_⟩
  · simp only [shiftToTargetExponent, shiftToExponent, hshift]
    rfl
  · rw [mantissa_shiftRight, mantissa_ofMantissaAndAccuracy]
    norm_num

/-- Up to this magnitude no operation overflows. -/
@[irreducible] def limit : ℚ := 2 ^ (1023 : ℤ)

theorem limit_eq : limit = 2 ^ (1023 : ℤ) := by rw [limit]

theorem representable_limit : Representable limit := by
  rw [limit_eq]
  exact representable_two_zpow (by decide)

theorem regular_of_le {k : ℕ} {e : ℤ} (hpos : 0 < k) (hshort : k < 2 ^ 53) (hlow : minExponent ≤ e)
    (hfull : e ≤ minExponent ∨ 2 ^ 52 ≤ k) (hbound : (k : ℚ) * 2 ^ e ≤ limit) : Regular k e where
  pos := hpos
  short := hshort
  low := hlow
  high := by
    rcases hfull with hmin | hfull
    · exact hmin.trans (by decide)
    · have hkq : (2 : ℚ) ^ 52 ≤ k := by exact_mod_cast hfull
      have hle : (2 : ℚ) ^ (52 + e) ≤ 2 ^ (1023 : ℤ) := by
        rw [← limit_eq]
        calc (2 : ℚ) ^ (52 + e) = 2 ^ 52 * 2 ^ e := by rw [zpow_add₀ two_ne_zero]; norm_num
          _ ≤ k * 2 ^ e := by gcongr
          _ ≤ limit := hbound
      have := (zpow_le_zpow_iff_right₀ (by norm_num : (1 : ℚ) < 2)).mp hle
      omega
  full := hfull.symm.imp_right fun h => le_antisymm h hlow

/-- What is made of a significand and an exponent when rounding is over. -/
def assembled (s : Sign) (k : ℕ) (e : ℤ) : UnpackedFloat :=
  if h : k = 0 then .zero s else .finite s k e (Nat.pos_of_ne_zero h)

theorem holds_assembled (s : Sign) {k : ℕ} {e : ℤ} (hshort : k < 2 ^ 53) (hlow : minExponent ≤ e)
    (hfull : e ≤ minExponent ∨ 2 ^ 52 ≤ k) (hbound : (k : ℚ) * 2 ^ e ≤ limit) :
    Holds (assembled s k e) (signed s (k * 2 ^ e)) := by
  unfold assembled
  split
  · next hzero =>
    subst hzero
    have hvalue : signed s ((0 : ℕ) * 2 ^ e) = 0 := by cases s <;> simp [signed]
    rw [hvalue]
    exact .zero s
  · next hnonzero =>
    exact .finite s (regular_of_le (Nat.pos_of_ne_zero hnonzero) hshort hlow hfull hbound)

theorem roundWithAccuracy_eq (s : Sign) {m : ℕ} {e : ℤ} {acc : Accuracy} {em : ExtendedMantissa} {e' : ℤ}
    (h : shiftToTargetExponent Format.binary64 m e acc = (em, e')) :
    roundWithAccuracy Format.binary64 s m e acc =
      assembled s (shiftToTargetExponent Format.binary64 em.roundedMantissa e' .exact).1.mantissa
        (shiftToTargetExponent Format.binary64 em.roundedMantissa e' .exact).2 := by
  simp only [roundWithAccuracy, h]
  rfl

/-- The model of rounding: the result is faithful to the value that is rounded. -/
theorem round_holds {m : ℕ} {e : ℤ} {acc : Accuracy} {x : ℚ} (s : Sign)
    (h : Stands (.ofMantissaAndAccuracy m acc) x)
    (he : e ≤ Format.binary64.targetExponent (totalExponent m e)) (hbound : x * 2 ^ e ≤ limit) :
    ∃ r, Holds (roundWithAccuracy Format.binary64 s m e acc) r ∧ Faithful (signed s (x * 2 ^ e)) r := by
  obtain ⟨em, e', hshift, hlow, hstands, hshort, hfull⟩ := stands_shiftToTargetExponent h he
  have hscale : x * 2 ^ e / 2 ^ e' * 2 ^ e' = x * 2 ^ e := div_mul_cancel₀ _ (by positivity)
  rw [← hscale] at hbound ⊢
  rw [roundWithAccuracy_eq s hshift]
  obtain ⟨hle, hlt⟩ := hstands.bounds
  have hrounded := hstands.rounded
  generalize x * 2 ^ e / 2 ^ e' = y at *
  generalize em.roundedMantissa = k at *
  generalize em.mantissa = n at *
  have hfits : k ≤ 2 ^ 53 := by omega
  have hgrown : n ≤ k := by omega
  have hfaithful : Faithful (y * 2 ^ e') (k * 2 ^ e') := by
    refine faithful_of_grid hfull (by gcongr) (by gcongr) (hrounded.imp_right ?_)
      (representable_of_le hfits hlow)
    exact fun ⟨hk, hless⟩ => ⟨hk, by gcongr⟩
  have hmagnitude : (k : ℚ) * 2 ^ e' ≤ limit := hfaithful.le representable_limit hbound
  refine ⟨signed s (k * 2 ^ e'), ?_, hfaithful.signed s⟩
  rcases Nat.lt_or_eq_of_le hfits with hshort' | rfl
  · rw [shiftToTargetExponent_of_lt hshort' hlow, mantissa_ofMantissaAndAccuracy]
    exact holds_assembled s hshort' hlow (hfull.imp_right hgrown.trans') hmagnitude
  · obtain ⟨em', hhalved, hem'⟩ := shiftToTargetExponent_of_overflow hlow
    have hvalue : ((2 ^ 53 : ℕ) : ℚ) * 2 ^ e' = (2 ^ 52 : ℕ) * 2 ^ (e' + 1) := by
      rw [zpow_add_one₀ two_ne_zero]
      push_cast
      ring
    rw [hvalue] at hmagnitude ⊢
    rw [hhalved, hem']
    exact holds_assembled s (by norm_num) (by omega) (.inr le_rfl) hmagnitude

theorem log2_shiftLeft {m : ℕ} (hm : m ≠ 0) (n : ℕ) : (m <<< n).log2 = m.log2 + n := by
  rw [Nat.log2_eq_iff (by simpa [Nat.shiftLeft_eq] using hm), Nat.shiftLeft_eq]
  constructor
  · rw [pow_add]
    exact Nat.mul_le_mul_right _ (Nat.log2_self_le hm)
  · rw [Nat.add_right_comm, pow_add]
    exact Nat.mul_lt_mul_of_pos_right Nat.lt_log2_self (by positivity)

/-- A significand that is too short is lengthened first, which loses nothing. -/
theorem round_holds_of_exact {m : ℕ} {e : ℤ} (s : Sign) (hm : m ≠ 0) (hbound : (m : ℚ) * 2 ^ e ≤ limit) :
    ∃ r, Holds (UnpackedFloat.round Format.binary64 s m e) r ∧ Faithful (signed s (m * 2 ^ e)) r := by
  obtain ⟨n, hn⟩ : ∃ n : ℕ, (e - Format.binary64.targetExponent (totalExponent m e)).toNat = n := ⟨_, rfl⟩
  have hround : UnpackedFloat.round Format.binary64 s m e =
      roundWithAccuracy Format.binary64 s (m <<< n) (e - n) .exact := by
    simp only [UnpackedFloat.round, decreaseExponent, hn]
  have hvalue : (((m <<< n : ℕ) : ℚ)) * 2 ^ (e - n) = m * 2 ^ e := by
    rw [Nat.shiftLeft_eq, zpow_sub₀ two_ne_zero, zpow_natCast]
    push_cast
    field_simp
  rw [hround, ← hvalue]
  refine round_holds s (stands_exact _) ?_ (hvalue ▸ hbound)
  have htarget := targetExponent_eq (totalExponent m e)
  have htarget' := targetExponent_eq (totalExponent (m <<< n) (e - n))
  have htotal : totalExponent m e = m.log2 + 1 + e := rfl
  have htotal' : totalExponent (m <<< n) (e - n) = (m <<< n).log2 + 1 + (e - n) := rfl
  rw [log2_shiftLeft hm] at htotal'
  push_cast at htotal'
  omega

theorem normalize_holds {n e : ℤ} (zeroSign : Sign) (hbound : |(n : ℚ) * 2 ^ e| ≤ limit) :
    ∃ r, Holds (UnpackedFloat.normalize Format.binary64 n e zeroSign) r ∧ Faithful (n * 2 ^ e) r := by
  have hpos : (0 : ℚ) < 2 ^ e := by positivity
  rw [abs_mul, abs_of_pos hpos] at hbound
  unfold UnpackedFloat.normalize
  rcases lt_trichotomy n 0 with hneg | rfl | hn
  · rw [Int.compare_eq_lt.mpr hneg]
    have hmagnitude : ((-n).toNat : ℚ) = |(n : ℚ)| := by
      rw [abs_of_neg (by exact_mod_cast hneg)]
      exact_mod_cast Int.toNat_of_nonneg (by omega : 0 ≤ -n)
    obtain ⟨r, hr, hfaithful⟩ := round_holds_of_exact .negative (m := (-n).toNat) (e := e) (by omega)
      (hmagnitude.symm ▸ hbound)
    refine ⟨r, hr, ?_⟩
    rw [hmagnitude, abs_of_neg (by exact_mod_cast hneg)] at hfaithful
    simpa [signed] using hfaithful
  · refine ⟨0, .zero zeroSign, ?_⟩
    rw [Int.cast_zero, zero_mul]
    exact .refl representable_zero
  · rw [Int.compare_eq_gt.mpr hn]
    have hmagnitude : (n.toNat : ℚ) = |(n : ℚ)| := by
      rw [abs_of_pos (by exact_mod_cast hn)]
      exact_mod_cast Int.toNat_of_nonneg hn.le
    obtain ⟨r, hr, hfaithful⟩ := round_holds_of_exact .positive (m := n.toNat) (e := e) (by omega)
      (hmagnitude.symm ▸ hbound)
    refine ⟨r, hr, ?_⟩
    rw [hmagnitude, abs_of_pos (by exact_mod_cast hn)] at hfaithful
    exact hfaithful

end Handheld.Binary64
