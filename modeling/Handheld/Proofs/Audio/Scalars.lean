import Handheld.Audio.Scalar
import Handheld.Proofs.Binary64.Arithmetic

/-!
# Machine numbers to resample with

What the resamplers do with machine numbers beside the four operations is exact: the largest whole number
that is not larger (`denotes_floatFloor`), and the nearest integer (`nearest_eq`).
-/

namespace Handheld

open Binary64

/-! ## Whole parts of numbers of the format -/

namespace Binary64

theorem Representable.floor {q : ℚ} (h : Representable q) (hq : 0 ≤ q) :
    Representable (⌊q⌋ : ℤ) ∧ Representable (q - ⌊q⌋) := by
  obtain ⟨n, e, hn, he, rfl⟩ := h
  rcases lt_or_ge e 0 with hneg | hnonneg
  · have hpos : (0 : ℚ) < 2 ^ e := by positivity
    have hn_nonneg : 0 ≤ n := by exact_mod_cast nonneg_of_mul_nonneg_left hq hpos
    lift n to ℕ using hn_nonneg
    rw [Nat.abs_cast] at hn
    obtain ⟨d, hd⟩ : ∃ d : ℕ, d = 2 ^ (-e).toNat := ⟨_, rfl⟩
    have hscale : (2 : ℚ) ^ e * d = 1 := by rw [hd, two_zpow_of_neg hneg]
    have hd_pos : (0 : ℚ) < d := by rw [hd]; positivity
    have hunit : (2 : ℚ) ^ e = 1 / d := (eq_div_iff hd_pos.ne').mpr hscale
    have hfloor : ⌊((n : ℤ) : ℚ) * 2 ^ e⌋ = (n / d : ℕ) := by
      rw [hunit, mul_one_div]
      exact Rat.floor_intCast_div_natCast n d
    have hsplit : (n : ℚ) = d * (n / d : ℕ) + (n % d : ℕ) := by
      exact_mod_cast (Nat.div_add_mod n d).symm
    have hquotient : n / d ≤ n := Nat.div_le_self n d
    have hrest : n % d ≤ n := Nat.mod_le n d
    rw [hfloor]
    refine ⟨representable_intCast (by rw [Nat.abs_cast]; omega), (n % d : ℕ), e,
      by rw [Nat.abs_cast]; omega, he, ?_⟩
    calc ((n : ℤ) : ℚ) * 2 ^ e - ((n / d : ℕ) : ℤ)
        = (n - d * (n / d : ℕ)) * 2 ^ e := by
          rw [Int.cast_natCast, Int.cast_natCast, sub_mul, mul_right_comm, mul_comm (d : ℚ), hscale, one_mul]
      _ = ((n % d : ℕ) : ℤ) * 2 ^ e := by
          rw [hsplit, add_sub_cancel_left, Int.cast_natCast]
  · have hwhole : (n : ℚ) * 2 ^ e = (n * 2 ^ e.toNat : ℤ) := by
      rw [two_zpow_of_nonneg hnonneg]
      push_cast
      rfl
    have hsame : ((⌊(n : ℚ) * 2 ^ e⌋ : ℤ) : ℚ) = n * 2 ^ e := by
      rw [hwhole, Int.floor_intCast]
    rw [hsame, sub_self]
    exact ⟨⟨n, e, hn, he, rfl⟩, representable_zero⟩

theorem Representable.sub_one {q : ℚ} (h : Representable q) (hone : 1 ≤ q) (hword : q < 2 ^ 53) :
    Representable (q - 1) := by
  obtain ⟨n, e, hn, he, rfl⟩ := h
  rcases lt_or_ge e 0 with hneg | hnonneg
  · obtain ⟨d, hd⟩ : ∃ d : ℕ, d = 2 ^ (-e).toNat := ⟨_, rfl⟩
    have hscale : (2 : ℚ) ^ e * d = 1 := by rw [hd, two_zpow_of_neg hneg]
    have hpos : (0 : ℚ) < 2 ^ e := by positivity
    have hle : (d : ℤ) ≤ n := by
      have hvalue : (d : ℚ) * 2 ^ e ≤ n * 2 ^ e := by linarith
      exact_mod_cast le_of_mul_le_mul_right hvalue hpos
    refine ⟨n - d, e, ?_, he, ?_⟩
    · rw [abs_of_nonneg (by omega)]
      rw [abs_of_nonneg (by omega)] at hn
      omega
    · push_cast
      linarith
  · have hwhole : (n : ℚ) * 2 ^ e = (n * 2 ^ e.toNat : ℤ) := by
      rw [two_zpow_of_nonneg hnonneg]
      push_cast
      rfl
    rw [hwhole] at hone hword ⊢
    obtain ⟨k, hk⟩ : ∃ k : ℤ, k = n * 2 ^ e.toNat := ⟨_, rfl⟩
    rw [← hk] at hone hword ⊢
    have hlow : (1 : ℤ) ≤ k := by exact_mod_cast hone
    have hhigh : k < 2 ^ 53 := by exact_mod_cast hword
    have hsub : (k : ℚ) - 1 = (k - 1 : ℤ) := by push_cast; rfl
    rw [hsub]
    exact representable_intCast (abs_lt.mpr ⟨by omega, by omega⟩)

/-- No number of the format is closer to one from below. -/
theorem Representable.le_of_lt_one {q : ℚ} (h : Representable q) (hlt : q < 1) : q ≤ 1 - 1 / 2 ^ 53 := by
  rcases lt_or_ge q (1 / 2) with hsmall | hlarge
  · linarith
  · obtain ⟨k, rfl⟩ := h.on_grid (e := -53) (.inr (by
      rw [abs_of_nonneg (by linarith)]
      exact le_trans (by norm_num) hlarge))
    have hk : (k : ℚ) < 2 ^ 53 := by
      rw [zpow_neg, ← div_eq_mul_inv, div_lt_one (by positivity)] at hlt
      exact_mod_cast hlt
    have hk' : k ≤ 2 ^ 53 - 1 := Int.le_sub_one_of_lt (by exact_mod_cast hk)
    have hle : (k : ℚ) ≤ 2 ^ 53 - 1 := by exact_mod_cast hk'
    calc (k : ℚ) * 2 ^ (-53 : ℤ) ≤ (2 ^ 53 - 1) * 2 ^ (-53 : ℤ) := by gcongr
      _ = 1 - 1 / 2 ^ 53 := by norm_num

theorem Faithful.le_two_mul {n : ℕ} {r : ℚ} (h : Faithful n r) (hpos : 0 < n) : (n : ℚ) ≤ 2 * r := by
  have hlow : minExponent ≤ (n.log2 : ℤ) := by
    show (-1074 : ℤ) ≤ n.log2
    omega
  have hpower : (2 : ℚ) ^ n.log2 ≤ r := by
    rw [← zpow_natCast]
    refine h.ge (representable_two_zpow hlow) ?_
    rw [zpow_natCast]
    exact_mod_cast Nat.log2_self_le hpos.ne'
  have hlt : (n : ℚ) < 2 ^ (n.log2 + 1) := by exact_mod_cast Nat.lt_log2_self
  rw [pow_succ] at hlt
  linarith

end Binary64

namespace Scalar

theorem denotes_floatOfWord {n : ℕ} (h : n < 2 ^ 64) :
    ∃ r, Denotes (floatOfWord n) r ∧ Faithful n r := by
  have hn : n.toUInt64.toNat = n := UInt64.toNat_ofNat_of_lt' h
  obtain ⟨r, hr, hfaithful⟩ := denotes_toFloat n.toUInt64
  rw [hn] at hfaithful
  exact ⟨r, hr, hfaithful⟩

theorem denotes_floatOfWord_of_lt {n : ℕ} (h : n < 2 ^ 53) : Denotes (floatOfWord n) n := by
  obtain ⟨r, hr, hfaithful⟩ := denotes_floatOfWord (h.trans (by norm_num))
  have hexact : r = n := hfaithful.eq (representable_intCast (n := n) (by rw [Nat.abs_cast]; exact_mod_cast h))
  rwa [hexact] at hr

theorem denotes_add_floatOfWord {m n : ℕ} (h : m + n < 2 ^ 53) :
    Denotes (floatOfWord m + floatOfWord n) (m + n : ℕ) := by
  have hm : Denotes (floatOfWord m) m := denotes_floatOfWord_of_lt (by omega)
  have hn : Denotes (floatOfWord n) n := denotes_floatOfWord_of_lt (by omega)
  have hlimit : |(m : ℚ) + n| ≤ limit := by
    rw [← Nat.cast_add, Nat.abs_cast]
    refine le_trans ?_ (two_pow_le_limit (n := 53) (by norm_num))
    exact_mod_cast h.le
  have hexact : Representable ((m : ℚ) + n) := by
    rw [← Nat.cast_add, ← Int.cast_natCast]
    exact representable_intCast (by rw [Nat.abs_cast]; exact_mod_cast h)
  obtain ⟨r, hr, hfaithful⟩ := hm.add hn hlimit
  rw [hfaithful.eq hexact] at hr
  rwa [Nat.cast_add]

theorem denotes_ofInt {n : ℤ} (h : n.natAbs < 2 ^ 53) : Denotes (Scalar.ofInt n : Float) n := by
  show Denotes (if n < 0 then -(floatOfWord n.natAbs) else floatOfWord n.natAbs) n
  have hmagnitude := denotes_floatOfWord_of_lt h
  split
  · next hneg =>
    have hvalue : (n : ℚ) = -(n.natAbs : ℚ) := by
      rw [← Int.cast_natCast, ← Int.cast_neg]
      congr 1
      omega
    rw [hvalue]
    exact hmagnitude.neg
  · next hnonneg =>
    have hvalue : (n : ℚ) = (n.natAbs : ℚ) := by
      rw [← Int.cast_natCast]
      congr 1
      omega
    rwa [hvalue]

theorem denotes_truncate {x : Float} {q : ℚ} (hx : Denotes x q) (hq : |q| < 2 ^ 64) :
    ((truncate x).toNat : ℤ) = ⌊|q|⌋ ∧ Denotes (truncate x).toFloat (⌊|q|⌋ : ℤ) := by
  have hword : ((truncate x).toNat : ℤ) = ⌊|q|⌋ := hx.abs.toNat_toUInt64 (abs_nonneg q) hq
  refine ⟨hword, ?_⟩
  obtain ⟨r, hr, hfaithful⟩ := denotes_toFloat (truncate x)
  rw [← Int.cast_natCast, hword] at hfaithful
  rwa [hfaithful.eq (hx.abs.representable.floor (abs_nonneg q)).1] at hr

theorem floor_of_large {q : ℚ} (h : Representable q) (hlarge : 2 ^ 52 ≤ |q|) : ((⌊q⌋ : ℤ) : ℚ) = q := by
  obtain ⟨k, hk⟩ := h.on_grid (e := 0) (.inr (by rwa [zpow_zero, mul_one]))
  rw [zpow_zero, mul_one] at hk
  rw [hk, Int.floor_intCast]

theorem denotes_wholeFrom : Denotes wholeFrom (2 ^ 52) := by
  have hvalue : ((Nat.pow 2 52 : ℕ) : ℚ) = 2 ^ 52 := by
    rw [Nat.pow_eq]
    norm_num
  rw [← hvalue, wholeFrom]
  exact denotes_floatOfWord_of_lt (Nat.pow_lt_pow_right one_lt_two (by norm_num))

theorem floor_eq_of_abs {q : ℚ} (h : |q| = ⌊|q|⌋) : ((⌊q⌋ : ℤ) : ℚ) = q := by
  rcases abs_choice q with hq | hq
  · rwa [hq, eq_comm] at h
  · rw [hq] at h
    have hwhole : q = ((-⌊-q⌋ : ℤ) : ℚ) := by
      push_cast
      linarith
    rw [hwhole, Int.floor_intCast]

theorem floor_of_neg {q : ℚ} (hneg : q < 0) (h : |q| ≠ ⌊|q|⌋) : ⌊q⌋ = -(⌊|q|⌋ + 1) := by
  rw [abs_of_neg hneg] at h ⊢
  have hle := Int.floor_le (-q)
  have hlt := Int.lt_floor_add_one (-q)
  rw [Int.floor_eq_iff]
  push_cast
  exact ⟨by linarith, by linarith [lt_of_le_of_ne hle h.symm]⟩

theorem denotes_floatFloor {x : Float} {q : ℚ} (hx : Denotes x q) : Denotes (floatFloor x) (⌊q⌋ : ℤ) := by
  have hzero : Denotes (floatOfWord 0) (0 : ℕ) := denotes_floatOfWord_of_lt (by norm_num)
  have hone : Denotes (floatOfWord 1) (1 : ℕ) := denotes_floatOfWord_of_lt (by norm_num)
  unfold floatFloor
  dsimp only
  split
  · next hsmall =>
    have hq : |q| < 2 ^ 52 := (hx.abs.lt_iff denotes_wholeFrom).mp hsmall
    obtain ⟨-, hwhole⟩ := denotes_truncate hx (hq.trans (by norm_num))
    split
    · next hsame =>
      have hsame : |q| = ⌊|q|⌋ := (hx.abs.beq_iff hwhole).mp hsame
      rwa [floor_eq_of_abs hsame]
    · next hdiffers =>
      have hdiffers : |q| ≠ ⌊|q|⌋ := fun h => hdiffers ((hx.abs.beq_iff hwhole).mpr h)
      split
      · next hneg =>
        have hneg : q < 0 := by simpa using (hx.lt_iff hzero).mp hneg
        have hbelow : ⌊|q|⌋ < 2 ^ 52 := Int.floor_lt.mpr (by exact_mod_cast hq)
        have hfloor_nonneg : 0 ≤ ⌊|q|⌋ := Int.floor_nonneg.mpr (abs_nonneg q)
        have hnext : Representable ((⌊|q|⌋ : ℤ) + (1 : ℕ)) := by
          have h := representable_intCast (n := ⌊|q|⌋ + 1) (by rw [abs_of_nonneg (by omega)]; omega)
          push_cast at h ⊢
          exact h
        have hvalue : ((⌊q⌋ : ℤ) : ℚ) = -((⌊|q|⌋ : ℤ) + (1 : ℕ)) := by
          rw [floor_of_neg hneg hdiffers]
          push_cast
          ring
        have hlimit : |((⌊|q|⌋ : ℤ) : ℚ) + (1 : ℕ)| ≤ limit := by
          have hbelowq : ((⌊|q|⌋ : ℤ) : ℚ) < 2 ^ 52 := by exact_mod_cast hbelow
          have hnonnegq : (0 : ℚ) ≤ (⌊|q|⌋ : ℤ) := by exact_mod_cast hfloor_nonneg
          refine le_trans ?_ (two_pow_le_limit (n := 53) (by norm_num))
          rw [abs_of_nonneg (by positivity)]
          push_cast
          linarith
        obtain ⟨r, hr, hfaithful⟩ := hwhole.add hone hlimit
        rw [hvalue, ← hfaithful.eq hnext]
        exact hr.neg
      · next hnonneg =>
        have hnonneg : 0 ≤ q := by
          simpa using mt (hx.lt_iff hzero).mpr hnonneg
        rwa [abs_of_nonneg hnonneg] at hwhole
  · next hlarge =>
    have hq : 2 ^ 52 ≤ |q| := not_lt.mp (mt (hx.abs.lt_iff denotes_wholeFrom).mpr hlarge)
    rwa [floor_of_large hx.representable hq]

def halfAway (q : ℚ) : ℤ := if q < 0 then -⌊1 / 2 - q⌋ else ⌊q + 1 / 2⌋

theorem denotes_div_two {x : Float} {n : ℤ} (hx : Denotes x n) (hn : |n| < 2 ^ 53) :
    Denotes (x / floatOfWord 2) (n / 2) := by
  have htwo : Denotes (floatOfWord 2) (2 : ℕ) := denotes_floatOfWord_of_lt (by norm_num)
  have hhalf : Representable ((n : ℚ) / (2 : ℕ)) := representable_half hn
  have hbound : |(n : ℚ)| ≤ 2 ^ 53 := by exact_mod_cast hn.le
  have hlimit : |(n : ℚ) / (2 : ℕ)| ≤ limit := by
    rw [abs_div, Nat.abs_cast]
    exact (div_le_self (abs_nonneg _) (by norm_num)).trans (hbound.trans (two_pow_le_limit (by norm_num)))
  obtain ⟨r, hr, hfaithful⟩ := hx.div htwo (by norm_num) hlimit
  rwa [hfaithful.eq hhalf] at hr

theorem denotes_half : Denotes (floatOfWord 1 / floatOfWord 2) (1 / 2) := by
  have hone : Denotes (floatOfWord 1) (1 : ℤ) := denotes_ofInt (n := 1) (by norm_num)
  have hhalf := denotes_div_two hone (by norm_num)
  rwa [Int.cast_one] at hhalf

/-- What is left of a number when its whole part is taken away is exact. -/
theorem denotes_sub_floor {x whole : Float} {q : ℚ} (hx : Denotes x q) (hwhole : Denotes whole (⌊q⌋ : ℤ))
    (hq : 0 ≤ q) : Denotes (x - whole) (Int.fract q) := by
  have hlimit : |q - (⌊q⌋ : ℤ)| ≤ limit := by
    rw [Int.self_sub_floor, abs_of_nonneg (Int.fract_nonneg q)]
    exact (Int.fract_lt_one q).le.trans (two_pow_le_limit (n := 0) (by norm_num))
  obtain ⟨r, hr, hfaithful⟩ := hx.sub hwhole hlimit
  rwa [hfaithful.eq (hx.representable.floor hq).2, Int.self_sub_floor] at hr

theorem nearest_eq {x : Float} {q : ℚ} (hx : Denotes x q) (hq : |q| < 2 ^ 64) : nearest x = halfAway q := by
  have hzero : Denotes (floatOfWord 0) (0 : ℕ) := denotes_floatOfWord_of_lt (by norm_num)
  obtain ⟨hword, hwhole⟩ := denotes_truncate hx hq
  have hfract_nonneg := Int.fract_nonneg |q|
  have hfract_lt := Int.fract_lt_one |q|
  have hsplit := Int.floor_add_fract |q|
  have hr := denotes_sub_floor hx.abs hwhole (abs_nonneg q)
  have hmagnitude : ((if floatOfWord 1 / floatOfWord 2 ≤ x.abs - (truncate x).toFloat
      then (truncate x).toNat + 1 else (truncate x).toNat : ℕ) : ℤ) = ⌊|q| + 1 / 2⌋ := by
    split
    · next hup =>
      have hup : 1 / 2 ≤ Int.fract |q| := (denotes_half.le_iff hr).mp hup
      rw [Nat.cast_add, hword, eq_comm, Int.floor_eq_iff]
      push_cast
      exact ⟨by linarith, by linarith⟩
    · next hdown =>
      have hdown : Int.fract |q| < 1 / 2 := not_le.mp (mt (denotes_half.le_iff hr).mpr hdown)
      rw [hword, eq_comm, Int.floor_eq_iff]
      exact ⟨by linarith, by linarith⟩
  unfold nearest halfAway
  dsimp only
  rw [hmagnitude]
  have hsign : x < floatOfWord 0 ↔ q < 0 := by simpa using hx.lt_iff hzero
  by_cases hneg : q < 0
  · rw [if_pos (hsign.mpr hneg), if_pos hneg, abs_of_neg hneg, neg_add_eq_sub]
  · rw [if_neg (mt hsign.mp hneg), if_neg hneg, abs_of_nonneg (not_lt.mp hneg)]

end Scalar

end Handheld
