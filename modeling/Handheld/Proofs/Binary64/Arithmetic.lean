import Handheld.Proofs.Binary64.Rounding
import Handheld.Proofs.Decimal.Shortest

/-!
# Machine arithmetic

`Denotes` relates a finite machine number to its value. The four operations are faithful to the
operations on the values as long as these are not too large; a change of sign, comparisons and the
integer part are exact. Each is shown of unpacked numbers first (`Holds`), and carries over because what
an operation packs is unpacked again as it was (`unpack_pack`).
-/

namespace Handheld.Binary64

open Float.Model Float.Model.UnpackedFloat

/-! ## Bits -/

theorem finite_congr (s : Sign) {m m' : ℕ} {e e' : ℤ} (hm : m = m') (he : e = e') (h : 0 < m)
    (h' : 0 < m') : UnpackedFloat.finite s m e h = .finite s m' e' h' := by
  subst hm he
  rfl

theorem unpack_normal (s : Sign) {m : ℕ} {e : ℤ} (hpos : 0 < m) (hlong : 2 ^ 52 ≤ m) (hshort : m < 2 ^ 53)
    (hlow : -1074 ≤ e) (hhigh : e ≤ 971) :
    UnpackedFloat.unpack Format.binary64 (packComponents Format.binary64 s
      (BitVec.ofNat 11 (e + 1075).toNat) (BitVec.ofNat 52 m)) = .finite s m e hpos := by
  have hexponent : (BitVec.ofNat 11 (e + 1075).toNat).toNat = (e + 1075).toNat := by
    rw [BitVec.toNat_ofNat, Nat.mod_eq_of_lt (by omega)]
  have hlast : BitVec.ofNat 11 (e + 1075).toNat ≠ -1#11 := by
    intro h
    rw [h] at hexponent
    have : (-1#11 : BitVec 11).toNat = 2047 := by decide
    omega
  have hfirst : BitVec.ofNat 11 (e + 1075).toNat ≠ 0#11 := by
    intro h
    rw [h] at hexponent
    have : (0#11 : BitVec 11).toNat = 0 := rfl
    omega
  unfold UnpackedFloat.unpack
  simp only [unpackExponent_packComponents, unpackMantissa_packComponents, unpackSign_packComponents,
    Sign.ofBitVec_toBitVec]
  rw [if_neg hlast, if_neg hfirst]
  refine finite_congr s ?_ ?_ _ _
  · have hmod : m % 2 ^ 52 < 2 ^ 52 := Nat.mod_lt m (by norm_num)
    rw [BitVec.toNat_append]
    show 1 <<< 52 ||| m % 2 ^ 52 = m
    rw [← Nat.shiftLeft_add_eq_or_of_lt hmod]
    omega
  · rw [hexponent]
    show ((e + 1075).toNat : ℤ) - (1023 + 52) = e
    omega

theorem unpack_subnormal (s : Sign) {m : ℕ} (hpos : 0 < m) (hshort : m < 2 ^ 52) :
    UnpackedFloat.unpack Format.binary64 (packComponents Format.binary64 s 0#11 (BitVec.ofNat 52 m)) =
      .finite s m (-1074) hpos := by
  have hmantissa : (BitVec.ofNat 52 m).toNat = m := by
    rw [BitVec.toNat_ofNat, Nat.mod_eq_of_lt hshort]
  have hnonzero : BitVec.ofNat 52 m ≠ 0#52 := by
    intro h
    rw [h] at hmantissa
    have : (0#52 : BitVec 52).toNat = 0 := rfl
    omega
  have hlast : (0#11 : BitVec 11) ≠ -1#11 := by decide
  unfold UnpackedFloat.unpack
  simp only [unpackExponent_packComponents, unpackMantissa_packComponents, unpackSign_packComponents,
    Sign.ofBitVec_toBitVec]
  rw [if_neg hlast, if_pos trivial, dif_neg hnonzero]
  exact finite_congr s hmantissa rfl _ _

theorem exists_holds_unpack {b : BitVec Format.binary64.numBits}
    (hfinite : (UnpackedFloat.unpack Format.binary64 b).isFinite = true) :
    ∃ x, Holds (UnpackedFloat.unpack Format.binary64 b) x := by
  unfold UnpackedFloat.unpack at hfinite ⊢
  dsimp only at hfinite ⊢
  have hmantissa : (unpackMantissa b).toNat < 2 ^ 52 := (unpackMantissa b).isLt
  have hexponent : (unpackExponent b).toNat < 2 ^ 11 := (unpackExponent b).isLt
  split at hfinite
  · split at hfinite <;> cases hfinite
  · next hlast =>
    have hbelow : (unpackExponent b).toNat ≠ 2047 := fun h => hlast (BitVec.eq_of_toNat_eq h)
    rw [if_neg hlast]
    split
    · next hfirst =>
      split
      · exact ⟨0, .zero _⟩
      · next hzero =>
        have hpos : (unpackMantissa b).toNat ≠ 0 := fun h => hzero (BitVec.eq_of_toNat_eq h)
        have hvalue : (unpackExponent b).toNat = 0 := by rw [hfirst]; rfl
        have hsmallest : ((unpackExponent b).toNat : ℤ) -
            ((Format.binary64.exponentBias : ℤ) + (Format.binary64.mantissaBitsWithoutImplicit : ℤ)) + 1 = -1074 := by
          rw [hvalue]
          rfl
        exact ⟨_, .finite _ ⟨by omega, by omega, hsmallest.ge, by rw [hsmallest]; norm_num, .inr hsmallest⟩⟩
    · next hfirst =>
      have hpos : (unpackExponent b).toNat ≠ 0 := fun h => hfirst (BitVec.eq_of_toNat_eq h)
      have hlong : (1#1 ++ unpackMantissa b).toNat = 2 ^ 52 + (unpackMantissa b).toNat := by
        rw [BitVec.toNat_append, ← Nat.shiftLeft_add_eq_or_of_lt (unpackMantissa b).isLt]
        rfl
      have hexact : ((unpackExponent b).toNat : ℤ) -
          ((Format.binary64.exponentBias : ℤ) + (Format.binary64.mantissaBitsWithoutImplicit : ℤ)) =
            (unpackExponent b).toNat - 1075 := rfl
      exact ⟨_, .finite _ ⟨by omega, by omega, by rw [hexact]; show -1074 ≤ _; omega, by rw [hexact]; omega,
        .inl (by omega)⟩⟩

theorem unpack_pack {u : UnpackedFloat} {x : ℚ} (h : Holds u x) :
    UnpackedFloat.unpack Format.binary64 (UnpackedFloat.pack Format.binary64 u) = u := by
  cases h with
  | zero s => cases s <;> rfl
  | @finite s m e h =>
    have hlow : -1074 ≤ e := h.low
    have hhigh := h.high
    have hexponent : (e + Format.binary64.exponentBias + Format.binary64.mantissaBitsWithoutImplicit).toNat =
        (e + 1075).toNat := by
      show (e + 1023 + 52).toNat = _
      rw [Int.add_assoc]
      rfl
    have hfits : ¬2 ^ 11 ≤ (e + 1075).toNat + 1 := by omega
    unfold UnpackedFloat.pack
    simp only [hexponent]
    rw [if_neg hfits]
    have hlog (k : ℕ) : m.log2 < k ↔ m < 2 ^ k := Nat.log2_lt (Nat.ne_of_gt h.pos)
    rcases Nat.lt_or_ge m (2 ^ 52) with hsmall | hfull
    · have he : e = -1074 := h.full.resolve_left (by omega)
      subst he
      rw [if_neg]
      · exact unpack_subnormal s h.pos hsmall
      · have := (hlog 52).mpr hsmall
        show ¬m.log2 + 1 = 1 + 52
        omega
    · rw [if_pos]
      · exact unpack_normal s h.pos hfull h.short hlow hhigh
      · have hge := (hlog 52).not.mpr (by omega)
        have hlt := (hlog 53).mpr h.short
        show m.log2 + 1 = 1 + 52
        omega

/-! ## Operations on unpacked numbers -/

section
variable {u v u' v' : UnpackedFloat} {p q p' q' : ℚ}

theorem signed_apply (s : Sign) (m : ℕ) : ((s.apply m : ℤ) : ℚ) = signed s m := by
  cases s <;> simp [Sign.apply, signed]

theorem signed_mul (s : Sign) (a b : ℚ) : signed s a * b = signed s (a * b) := by
  cases s <;> simp [signed]

theorem signed_neg (s : Sign) (a : ℚ) : signed (-s) a = -signed s a := by
  cases s
  · exact (neg_neg a).symm
  · rfl

theorem abs_signed (s : Sign) (a : ℚ) : |signed s a| = |a| := by
  cases s
  · exact abs_neg a
  · rfl

theorem signed_mul_signed (s t : Sign) (a b : ℚ) : signed s a * signed t b = signed (s * t) (a * b) := by
  rcases s with _ | _ <;> rcases t with _ | _
  · exact neg_mul_neg a b
  · exact neg_mul a b
  · exact mul_neg a b
  · rfl

theorem signed_div_signed (s t : Sign) (a b : ℚ) : signed s a / signed t b = signed (s / t) (a / b) := by
  rcases s with _ | _ <;> rcases t with _ | _
  · exact neg_div_neg_eq a b
  · exact neg_div b a
  · exact div_neg a
  · rfl

theorem Holds.neg (h : Holds u q) : Holds u.neg (-q) := by
  cases h with
  | zero s =>
    rw [neg_zero]
    exact .zero (-s)
  | finite s h =>
    rw [← signed_neg]
    exact .finite (-s) h

theorem Holds.abs (h : Holds u q) : Holds u.abs |q| := by
  cases h with
  | zero s =>
    rw [abs_zero]
    exact .zero .positive
  | finite s h =>
    rw [abs_signed, abs_of_nonneg (by positivity)]
    exact .finite .positive h

theorem apply_decreaseExponent (s : Sign) (m : ℕ) {e e' : ℤ} (h : e' ≤ e) :
    ((s.apply (decreaseExponent m e e').1 : ℤ) : ℚ) * 2 ^ e' = signed s (m * 2 ^ e) := by
  have hsplit : (2 : ℚ) ^ e = 2 ^ (e - e').toNat * 2 ^ e' := by
    rw [← zpow_natCast, Int.toNat_of_nonneg (by omega), ← zpow_add₀ two_ne_zero, Int.sub_add_cancel]
  rw [signed_apply, signed_mul, hsplit, decreaseExponent, Nat.shiftLeft_eq]
  push_cast
  rw [mul_assoc]

theorem Holds.add (hu : Holds u p) (hv : Holds v q) (hbound : |p + q| ≤ limit) :
    ∃ r, Holds (UnpackedFloat.add Format.binary64 u v) r ∧ Faithful (p + q) r := by
  cases hu with
  | zero s =>
    rw [zero_add]
    cases hv with
    | zero t =>
      refine ⟨0, ?_, .refl representable_zero⟩
      simp only [UnpackedFloat.add]
      split <;> exact .zero _
    | finite t hv => exact ⟨_, .finite t hv, .refl (Holds.finite t hv).representable⟩
  | @finite s m e hu =>
    cases hv with
    | zero t =>
      rw [add_zero]
      exact ⟨_, .finite s hu, .refl (Holds.finite s hu).representable⟩
    | @finite t m' e' hv =>
      have hvalue : ((s.apply (decreaseExponent m e (min e e')).1 +
          t.apply (decreaseExponent m' e' (min e e')).1 : ℤ) : ℚ) * 2 ^ min e e' =
          signed s (m * 2 ^ e) + signed t (m' * 2 ^ e') := by
        rw [Int.cast_add, add_mul, apply_decreaseExponent s m (min_le_left e e'),
          apply_decreaseExponent t m' (min_le_right e e')]
      rw [← hvalue] at hbound ⊢
      exact normalize_holds .positive hbound

theorem Holds.sub (hu : Holds u p) (hv : Holds v q) (hbound : |p - q| ≤ limit) :
    ∃ r, Holds (UnpackedFloat.sub Format.binary64 u v) r ∧ Faithful (p - q) r := by
  cases hu with
  | zero s =>
    rw [zero_sub]
    cases hv with
    | zero t =>
      rw [neg_zero]
      refine ⟨0, ?_, .refl representable_zero⟩
      simp only [UnpackedFloat.sub]
      split <;> exact .zero _
    | finite t hv => exact ⟨_, (Holds.finite t hv).neg, .refl (Holds.finite t hv).neg.representable⟩
  | @finite s m e hu =>
    cases hv with
    | zero t =>
      rw [sub_zero]
      exact ⟨_, .finite s hu, .refl (Holds.finite s hu).representable⟩
    | @finite t m' e' hv =>
      have hvalue : ((s.apply (decreaseExponent m e (min e e')).1 -
          t.apply (decreaseExponent m' e' (min e e')).1 : ℤ) : ℚ) * 2 ^ min e e' =
          signed s (m * 2 ^ e) - signed t (m' * 2 ^ e') := by
        rw [Int.cast_sub, sub_mul, apply_decreaseExponent s m (min_le_left e e'),
          apply_decreaseExponent t m' (min_le_right e e')]
      rw [← hvalue] at hbound ⊢
      exact normalize_holds .positive hbound

theorem le_targetExponent_totalExponent {m : ℕ} {e : ℤ} (h : 2 ^ 52 ≤ m ∨ e ≤ minExponent) :
    e ≤ Format.binary64.targetExponent (totalExponent m e) := by
  have htotal : totalExponent m e = m.log2 + 1 + e := rfl
  rw [targetExponent_eq, htotal]
  rcases h with hlong | hsmall
  · have hlog : 52 ≤ m.log2 := (Nat.le_log2 (by omega)).mpr hlong
    omega
  · exact le_max_of_le_right hsmall

theorem Holds.mul (hu : Holds u p) (hv : Holds v q) (hbound : |p * q| ≤ limit) :
    ∃ r, Holds (UnpackedFloat.mul Format.binary64 u v) r ∧ Faithful (p * q) r := by
  cases hu with
  | zero s =>
    rw [zero_mul]
    refine ⟨0, ?_, .refl representable_zero⟩
    cases hv <;> exact .zero _
  | @finite s m e hu =>
    cases hv with
    | zero t =>
      rw [mul_zero]
      exact ⟨0, .zero _, .refl representable_zero⟩
    | @finite t m' e' hv =>
      have hvalue : (m : ℚ) * 2 ^ e * (m' * 2 ^ e') = (m * m' : ℕ) * 2 ^ (e + e') := by
        rw [zpow_add₀ two_ne_zero]
        push_cast
        ring
      rw [signed_mul_signed, hvalue] at hbound ⊢
      rw [abs_signed, abs_of_nonneg (by positivity)] at hbound
      refine round_holds (s * t) (stands_exact (m * m')) (le_targetExponent_totalExponent ?_) hbound
      rcases hu.full with hm | he
      · exact .inl (hm.trans (Nat.le_mul_of_pos_right m hv.pos))
      · rcases hv.full with hm' | he'
        · exact .inl (hm'.trans (Nat.le_mul_of_pos_left m' hu.pos))
        · right
          subst he he'
          decide

/-- The quotient of the significands, the first one lengthened so far that the whole part is long
enough. -/
theorem divCore_spec {m m' : ℕ} (hm : 0 < m) (hm' : 0 < m') (e e' : ℤ) :
    ∃ k f acc x, divCore Format.binary64 m e m' e' = (k, f, acc) ∧
      Stands (.ofMantissaAndAccuracy k acc) x ∧ x * 2 ^ f = m * 2 ^ e / (m' * 2 ^ e') ∧
      (2 ^ 52 ≤ k ∨ f ≤ minExponent) := by
  have htotal (m : ℕ) (e : ℤ) : totalExponent m e = m.log2 + 1 + e := rfl
  have htarget := targetExponent_eq (totalExponent m e - totalExponent m' e')
  obtain ⟨f, hf⟩ : ∃ f, min (e - e')
      (Format.binary64.targetExponent (totalExponent m e - totalExponent m' e')) = f := ⟨_, rfl⟩
  obtain ⟨n, hn⟩ : ∃ n : ℕ, e - e' - f = n := ⟨_, (Int.toNat_of_nonneg (by omega)).symm⟩
  have hquotient : (((m <<< n) / m' : ℕ) : ℚ) + ((m <<< n) % m' : ℕ) / m' = (m * 2 ^ n : ℕ) / m' := by
    have hdiv : ((m' * (m <<< n / m') + m <<< n % m' : ℕ) : ℚ) = (m * 2 ^ n : ℕ) := by
      rw [Nat.div_add_mod, Nat.shiftLeft_eq]
    rw [← hdiv]
    push_cast
    field_simp
  refine ⟨(m <<< n) / m', f, accuracyOfFraction ((m <<< n) % m') m', (m * 2 ^ n : ℕ) / m', ?_, ?_, ?_, ?_⟩
  · simp only [divCore, hf, hn, Int.toNat_natCast]
  · rw [← hquotient]
    exact stands_fraction _ (Nat.mod_lt _ hm')
  · have hsplit : (2 : ℚ) ^ e = 2 ^ n * 2 ^ f * 2 ^ e' := by
      rw [← zpow_natCast, ← zpow_add₀ two_ne_zero, ← zpow_add₀ two_ne_zero]
      congr 1
      omega
    rw [hsplit]
    push_cast
    field_simp
  · rw [or_iff_not_imp_right]
    intro hbig
    rw [htotal, htotal] at htarget hf
    have hlog : m'.log2 + 53 ≤ m.log2 + n := by omega
    rw [Nat.shiftLeft_eq, Nat.le_div_iff_mul_le hm']
    calc 2 ^ 52 * m' ≤ 2 ^ 52 * 2 ^ (m'.log2 + 1) := Nat.mul_le_mul_left _ Nat.lt_log2_self.le
      _ = 2 ^ (m'.log2 + 53) := by rw [← pow_add, Nat.add_comm 52]
      _ ≤ 2 ^ (m.log2 + n) := Nat.pow_le_pow_right two_pos hlog
      _ ≤ m * 2 ^ n := by
        rw [pow_add]
        exact Nat.mul_le_mul_right _ (Nat.log2_self_le (Nat.ne_of_gt hm))

theorem Holds.div (hu : Holds u p) (hv : Holds v q) (hq : q ≠ 0) (hbound : |p / q| ≤ limit) :
    ∃ r, Holds (UnpackedFloat.div Format.binary64 u v) r ∧ Faithful (p / q) r := by
  cases hv with
  | zero t => exact absurd rfl hq
  | @finite t m' e' hv =>
    cases hu with
    | zero s =>
      rw [zero_div]
      exact ⟨0, .zero _, .refl representable_zero⟩
    | @finite s m e hu =>
      obtain ⟨k, f, acc, x, hcore, hstands, hvalue, hlong⟩ := divCore_spec hu.pos hv.pos e e'
      rw [signed_div_signed, ← hvalue] at hbound ⊢
      have hnonneg : 0 ≤ x * 2 ^ f := by
        rw [hvalue]
        positivity
      rw [abs_signed, abs_of_nonneg hnonneg] at hbound
      simp only [UnpackedFloat.div, hcore]
      exact round_holds (s / t) hstands (le_targetExponent_totalExponent hlong) hbound

theorem Regular.lt_of_exponent_lt {m m' : ℕ} {e e' : ℤ} (h : Regular m e) (h' : Regular m' e')
    (he : e < e') : (m : ℚ) * 2 ^ e < m' * 2 ^ e' := by
  have hlong : 2 ^ 52 ≤ m' := h'.full.resolve_right (by have := h.low; omega)
  have hshort : (m : ℚ) < 2 ^ 53 := by exact_mod_cast h.short
  have hlongq : (2 : ℚ) ^ 52 ≤ m' := by exact_mod_cast hlong
  calc (m : ℚ) * 2 ^ e < 2 ^ 53 * 2 ^ e := by gcongr
    _ = 2 ^ 52 * 2 ^ (e + 1) := by rw [zpow_add_one₀ two_ne_zero]; ring
    _ ≤ 2 ^ 52 * 2 ^ e' := by gcongr <;> [norm_num; omega]
    _ ≤ m' * 2 ^ e' := by gcongr

theorem Regular.compare_eq {m m' : ℕ} {e e' : ℤ} (h : Regular m e) (h' : Regular m' e') :
    (compare e e').then (compare m m') = compare ((m : ℚ) * 2 ^ e) (m' * 2 ^ e') := by
  rcases lt_trichotomy e e' with he | rfl | he
  · rw [compare_lt_iff_lt.mpr he, compare_lt_iff_lt.mpr (h.lt_of_exponent_lt h' he)]
    rfl
  · have hpos : (0 : ℚ) < 2 ^ e := by positivity
    rw [compare_eq_iff_eq.mpr rfl]
    show compare m m' = _
    rcases lt_trichotomy m m' with hm | rfl | hm
    · rw [compare_lt_iff_lt.mpr hm, compare_lt_iff_lt.mpr]
      exact (mul_lt_mul_iff_left₀ hpos).mpr (by exact_mod_cast hm)
    · rw [compare_eq_iff_eq.mpr rfl, compare_eq_iff_eq.mpr rfl]
    · rw [compare_gt_iff_gt.mpr hm, compare_gt_iff_gt.mpr]
      exact (mul_lt_mul_iff_left₀ hpos).mpr (by exact_mod_cast hm)
  · rw [compare_gt_iff_gt.mpr he, compare_gt_iff_gt.mpr (h'.lt_of_exponent_lt h he)]
    rfl

theorem compare_neg_neg (a b : ℚ) : Ord.compare (-a) (-b) = (Ord.compare a b).swap := by
  rcases lt_trichotomy a b with h | rfl | h
  · rw [compare_lt_iff_lt.mpr h]
    exact compare_gt_iff_gt.mpr (neg_lt_neg h)
  · rw [compare_eq_iff_eq.mpr rfl, compare_eq_iff_eq.mpr rfl]
    rfl
  · rw [compare_gt_iff_gt.mpr h]
    exact compare_lt_iff_lt.mpr (neg_lt_neg h)

theorem Holds.compare (hu : Holds u p) (hv : Holds v q) : u.compare v = some (Ord.compare p q) := by
  cases hu with
  | zero s =>
    cases hv with
    | zero t => exact congrArg some (compare_eq_iff_eq.mpr rfl).symm
    | @finite t m' e' hv =>
      have hpos : (0 : ℚ) < m' * 2 ^ e' := mul_pos (by exact_mod_cast hv.pos) (by positivity)
      cases t with
      | negative => exact congrArg some (compare_gt_iff_gt.mpr (neg_lt_zero.mpr hpos)).symm
      | positive => exact congrArg some (compare_lt_iff_lt.mpr hpos).symm
  | @finite s m e hu =>
    have hpos : (0 : ℚ) < m * 2 ^ e := mul_pos (by exact_mod_cast hu.pos) (by positivity)
    cases hv with
    | zero t =>
      cases s with
      | negative => exact congrArg some (compare_lt_iff_lt.mpr (neg_lt_zero.mpr hpos)).symm
      | positive => exact congrArg some (compare_gt_iff_gt.mpr hpos).symm
    | @finite t m' e' hv =>
      have hpos' : (0 : ℚ) < m' * 2 ^ e' := mul_pos (by exact_mod_cast hv.pos) (by positivity)
      have hcompare := hu.compare_eq hv
      cases s <;> cases t
      · show some ((Ord.compare e e').then (Ord.compare m m')).swap = some (Ord.compare (-_) (-_))
        rw [compare_neg_neg, hcompare]
      · exact congrArg some (compare_lt_iff_lt.mpr ((neg_lt_zero.mpr hpos).trans hpos')).symm
      · exact congrArg some (compare_gt_iff_gt.mpr ((neg_lt_zero.mpr hpos').trans hpos)).symm
      · exact congrArg some hcompare

theorem Holds.unique (hu : Holds u q) (hv : Holds v q) (hq : q ≠ 0) : u = v := by
  cases hu with
  | zero => exact absurd rfl hq
  | @finite s m e h =>
    generalize hvalue : signed s (m * 2 ^ e) = x at hv hq
    cases hv with
    | zero => exact absurd rfl hq
    | @finite s' m' e' h' =>
      have hpos : (0 : ℚ) < m * 2 ^ e := mul_pos (by exact_mod_cast h.pos) (by positivity)
      have hpos' : (0 : ℚ) < m' * 2 ^ e' := mul_pos (by exact_mod_cast h'.pos) (by positivity)
      have hmagnitude : (m : ℚ) * 2 ^ e = m' * 2 ^ e' := by
        have habs := congrArg (|·|) hvalue
        rwa [abs_signed, abs_signed, abs_of_pos hpos, abs_of_pos hpos'] at habs
      have hsign : s = s' := by
        rw [hmagnitude] at hvalue
        cases s <;> cases s' <;> simp only [signed] at hvalue ⊢ <;> linarith
      have hcompare := h.compare_eq h'
      rw [hmagnitude, compare_eq_iff_eq.mpr rfl, Ordering.then_eq_eq, compare_eq_iff_eq,
        compare_eq_iff_eq] at hcompare
      obtain ⟨rfl, rfl⟩ := hcompare
      rw [hsign]

theorem Holds.sub_self (hu : Holds u q) (hq : q ≠ 0) : UnpackedFloat.sub Format.binary64 u u = .zero .positive := by
  cases hu with
  | zero => exact absurd rfl hq
  | finite s h =>
    simp only [UnpackedFloat.sub, Int.sub_self]
    rfl

/-- Differences that are exact are decided by their values. -/
theorem Holds.sub_congr (hu : Holds u p) (hv : Holds v q) (hu' : Holds u' p') (hv' : Holds v' q')
    (hp : p ≠ 0) (hp' : p' ≠ 0) (heq : p - q = p' - q') (hexact : Representable (p - q))
    (hbound : |p - q| ≤ limit) :
    UnpackedFloat.sub Format.binary64 u v = UnpackedFloat.sub Format.binary64 u' v' := by
  by_cases hzero : p - q = 0
  · obtain rfl : p = q := sub_eq_zero.mp hzero
    obtain rfl : p' = q' := sub_eq_zero.mp (heq.symm.trans hzero)
    rw [← hu.unique hv hp, ← hu'.unique hv' hp', hu.sub_self hp, hu'.sub_self hp']
  · obtain ⟨r, hr, hfaithful⟩ := hu.sub hv hbound
    obtain ⟨r', hr', hfaithful'⟩ := hu'.sub hv' (heq ▸ hbound)
    rw [hfaithful.eq hexact] at hr
    rw [hfaithful'.eq (heq ▸ hexact), ← heq] at hr'
    exact hr.unique hr' hzero

theorem Holds.toInt (hu : Holds u q) (hq : 0 ≤ q) (negativeInfinity positiveInfinity : ℤ) :
    u.toInt negativeInfinity positiveInfinity = ⌊q⌋ := by
  cases hu with
  | zero s => exact Int.floor_zero.symm
  | @finite s m e hu =>
    have hpos : (0 : ℚ) < m * 2 ^ e := mul_pos (by exact_mod_cast hu.pos) (by positivity)
    cases s with
    | negative => exact absurd (neg_lt_zero.mpr hpos) (not_lt.mpr hq)
    | positive =>
      have hshift : ((0 : ℤ) - (e - (e - 0).toNat)).toNat = (-e).toNat := by omega
      show (((ExtendedMantissa.ofMantissaAndAccuracy (m <<< (e - 0).toNat) .exact >>>
        ((0 : ℤ) - (e - (e - 0).toNat)).toNat).mantissa : ℕ) : ℤ) = ⌊(m : ℚ) * 2 ^ e⌋
      rw [mantissa_shiftRight, mantissa_ofMantissaAndAccuracy, hshift, Int.sub_zero, Nat.shiftLeft_eq,
        zpow_eq_div, ← mul_div_assoc]
      exact_mod_cast (Rat.floor_natCast_div_natCast (m * 2 ^ e.toNat) (2 ^ (-e).toNat)).symm

end

/-! ## Machine numbers -/

/-- A machine number that is finite, and its value. -/
def Denotes (x : Float) (q : ℚ) : Prop := Holds x.toModel.unpack q

theorem denotes_pack {u : UnpackedFloat} {q : ℚ} (h : Holds u q) : Denotes (.ofModel (.pack u)) q := by
  show Holds (UnpackedFloat.unpack Format.binary64 (UnpackedFloat.pack Format.binary64 u)) q
  rwa [unpack_pack h]

theorem exists_denotes {x : Float} (hfinite : x.isFinite = true) : ∃ q, Denotes x q :=
  exists_holds_unpack hfinite

theorem two_pow_le_limit {n : ℕ} (h : n ≤ 1023) : (2 : ℚ) ^ n ≤ limit := by
  rw [limit_eq, ← zpow_natCast]
  exact zpow_le_zpow_right₀ (by norm_num) (by exact_mod_cast h)

section
variable {x y : Float} {p q : ℚ}

theorem Denotes.representable (hx : Denotes x p) : Representable p := Holds.representable hx

theorem Denotes.neg (hx : Denotes x p) : Denotes (-x) (-p) := denotes_pack (Holds.neg hx)

theorem Denotes.abs (hx : Denotes x p) : Denotes x.abs |p| := denotes_pack (Holds.abs hx)

theorem Denotes.add (hx : Denotes x p) (hy : Denotes y q) (hbound : |p + q| ≤ limit) :
    ∃ r, Denotes (x + y) r ∧ Faithful (p + q) r := by
  obtain ⟨r, hr, hfaithful⟩ := Holds.add hx hy hbound
  exact ⟨r, denotes_pack hr, hfaithful⟩

theorem Denotes.sub (hx : Denotes x p) (hy : Denotes y q) (hbound : |p - q| ≤ limit) :
    ∃ r, Denotes (x - y) r ∧ Faithful (p - q) r := by
  obtain ⟨r, hr, hfaithful⟩ := Holds.sub hx hy hbound
  exact ⟨r, denotes_pack hr, hfaithful⟩

theorem Denotes.sub_congr {x' y' : Float} {p' q' : ℚ} (hx : Denotes x p) (hy : Denotes y q)
    (hx' : Denotes x' p') (hy' : Denotes y' q') (hp : p ≠ 0) (hp' : p' ≠ 0) (heq : p - q = p' - q')
    (hexact : Representable (p - q)) (hbound : |p - q| ≤ limit) : x - y = x' - y' :=
  congrArg (fun u => Float.ofModel (.pack u)) (Holds.sub_congr hx hy hx' hy' hp hp' heq hexact hbound)

theorem Denotes.mul (hx : Denotes x p) (hy : Denotes y q) (hbound : |p * q| ≤ limit) :
    ∃ r, Denotes (x * y) r ∧ Faithful (p * q) r := by
  obtain ⟨r, hr, hfaithful⟩ := Holds.mul hx hy hbound
  exact ⟨r, denotes_pack hr, hfaithful⟩

theorem Denotes.div (hx : Denotes x p) (hy : Denotes y q) (hq : q ≠ 0) (hbound : |p / q| ≤ limit) :
    ∃ r, Denotes (x / y) r ∧ Faithful (p / q) r := by
  obtain ⟨r, hr, hfaithful⟩ := Holds.div hx hy hq hbound
  exact ⟨r, denotes_pack hr, hfaithful⟩

theorem denotes_toFloat (n : UInt64) : ∃ r, Denotes n.toFloat r ∧ Faithful n.toNat r := by
  have hvalue : (((n.toNat : ℤ)) : ℚ) * 2 ^ (0 : ℤ) = n.toNat := by simp
  have hlt : (n.toNat : ℚ) < 2 ^ 64 := by exact_mod_cast n.toNat_lt
  have hbound : |((n.toNat : ℤ) : ℚ) * 2 ^ (0 : ℤ)| ≤ limit := by
    rw [hvalue, Nat.abs_cast]
    exact hlt.le.trans (two_pow_le_limit (by norm_num))
  obtain ⟨r, hr, hfaithful⟩ := normalize_holds .positive hbound
  rw [hvalue] at hfaithful
  exact ⟨r, denotes_pack hr, hfaithful⟩

theorem lt_iff_compare (x y : Float) : x < y ↔ x.toModel.unpack.compare y.toModel.unpack = some .lt := by
  show decide ((x.toModel.unpack.compare y.toModel.unpack == some .lt) = true) = true ↔ _
  rw [decide_eq_true_iff, beq_iff_eq]

theorem le_iff_compare (x y : Float) :
    x ≤ y ↔ (x.toModel.unpack.compare y.toModel.unpack).any (·.isLE) = true := by
  show decide ((x.toModel.unpack.compare y.toModel.unpack).any (·.isLE) = true) = true ↔ _
  rw [decide_eq_true_iff]

theorem Denotes.lt_iff (hx : Denotes x p) (hy : Denotes y q) : x < y ↔ p < q := by
  rw [lt_iff_compare, Holds.compare hx hy, Option.some_inj, compare_lt_iff_lt]

theorem Denotes.le_iff (hx : Denotes x p) (hy : Denotes y q) : x ≤ y ↔ p ≤ q := by
  rw [le_iff_compare, Holds.compare hx hy, Option.any_some, Ordering.isLE_iff_ne_gt]
  exact compare_le_iff_le

theorem Denotes.value_eq (hx : Denotes x p) (hx' : Denotes x q) : p = q := by
  have hself : x ≤ x := (hx.le_iff hx).mpr le_rfl
  exact le_antisymm ((hx.le_iff hx').mp hself) ((hx'.le_iff hx).mp hself)

theorem Denotes.beq_iff (hx : Denotes x p) (hy : Denotes y q) : (x == y) = true ↔ p = q := by
  show (x.toModel.unpack.compare y.toModel.unpack == some .eq) = true ↔ _
  rw [Holds.compare hx hy, beq_iff_eq, Option.some_inj, compare_eq_iff_eq]

theorem Denotes.toNat_toUInt64 (hx : Denotes x p) (hp : 0 ≤ p) (hword : p < 2 ^ 64) :
    (x.toUInt64.toNat : ℤ) = ⌊p⌋ := by
  have hfloor := Holds.toInt hx hp 0 (UInt64.size - 1)
  have hnonneg : 0 ≤ ⌊p⌋ := Int.floor_nonneg.mpr hp
  have hlt : ⌊p⌋ < 2 ^ 64 := Int.floor_lt.mpr (by exact_mod_cast hword)
  have hsize : ⌊p⌋.toNat < 2 ^ 64 := by omega
  show ((UInt64.ofNatClamp (x.toModel.unpack.toInt 0 (UInt64.size - 1)).toNat).toNat : ℤ) = _
  rw [hfloor, UInt64.ofNatClamp_eq_ofNat _ hsize, UInt64.toNat_ofNat_of_lt' hsize,
    Int.toNat_of_nonneg hnonneg]

end

theorem denotes_one : Denotes 1 1 := by
  have hword : (1 : UInt64).toFloat = 1 := rfl
  obtain ⟨r, hr, hfaithful⟩ := denotes_toFloat 1
  have hvalue : ((1 : UInt64).toNat : ℚ) = (1 : ℤ) := by simp
  rwa [hword, hfaithful.eq (hvalue ▸ representable_intCast (by norm_num)), hvalue, Int.cast_one] at hr

theorem toUInt64_pos {x : Float} (h : 1 < x) : 0 < x.toUInt64.toNat := by
  have hclamp {n : ℕ} (hn : 0 < n) : 0 < (UInt64.ofNatClamp n).toNat := by
    unfold UInt64.ofNatClamp
    split
    · exact hn
    · decide
  have hone : (1 : Float).toModel.unpack = .finite .positive (2 ^ 52) (-52) (by norm_num) := rfl
  have hcompare := (lt_iff_compare 1 x).mp h
  rw [hone] at hcompare
  refine hclamp ?_
  cases hx : x.toModel.unpack with
  | notANumber =>
    rw [hx] at hcompare
    cases hcompare
  | zero s =>
    rw [hx] at hcompare
    cases hcompare
  | infinity s =>
    rw [hx] at hcompare
    cases s with
    | negative => cases hcompare
    | positive => decide
  | finite s m e hm =>
    obtain ⟨q, hq⟩ := exists_denotes (x := x) (by show x.toModel.unpack.isFinite = true; rw [hx]; rfl)
    have hlt : 1 < q := (denotes_one.lt_iff hq).mp h
    have hfloor := Holds.toInt hq (zero_le_one.trans hlt.le) 0 (UInt64.size - 1)
    have hpos : 1 ≤ ⌊q⌋ := Int.le_floor.mpr (by exact_mod_cast hlt.le)
    rw [← hx, hfloor]
    omega

end Handheld.Binary64
