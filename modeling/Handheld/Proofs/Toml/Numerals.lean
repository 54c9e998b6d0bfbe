import Handheld.Decimal.Positional
import Handheld.Proofs.Decimal.Shortest
import Handheld.Toml.Scalar

/-!
# Numerals read back

A natural number is written by its digits, a finite binary64 number by its fewest digits around a point,
behind a sign if it is negative. Either is classified as what it was written from (`scalar?_digits`,
`scalar?_ofBits`); of the many patterns that stand for no number, the writer knows one.
-/

namespace Handheld

namespace Toml.Scalar

/-! ## Digits -/

/-- A numeral without a point: digits, with no superfluous zero in front. -/
structure IsWhole (s : List Char) : Prop where
  ne_nil : s ≠ []
  digits : ∀ c ∈ s, c.isDigit = true
  leading : s.head? = some '0' → s.length = 1

theorem isWhole_of_head {s : List Char} (hs : s ≠ []) (hdigits : ∀ c ∈ s, c.isDigit = true)
    (hhead : s.head? ≠ some '0') : IsWhole s :=
  ⟨hs, hdigits, fun h => absurd h hhead⟩

theorem isDigit_iff (c : Char) : c.isDigit = true ↔ 48 ≤ c.toNat ∧ c.toNat ≤ 57 := by
  simp only [Char.isDigit, Bool.and_eq_true, decide_eq_true_eq, ge_iff_le, UInt32.le_iff_toNat_le]
  rfl

theorem number_eq {s : List Char} (h : ∀ c ∈ s, c.isDigit = true) : number 10 s = Nat.ofDigitChars 10 s 0 := by
  unfold number Nat.ofDigitChars
  refine List.foldl_ext _ _ _ fun n c hc => ?_
  obtain ⟨hlow, hhigh⟩ := (isDigit_iff c).mp (h c hc)
  rw [digitValue, if_pos (by omega), Nat.mul_comm]
  rfl

theorem isDigit_digits {n : Nat} {c : Char} (h : c ∈ Positional.digits n) : c.isDigit = true :=
  Nat.isDigit_of_mem_toDigits (by decide) (by decide) h

theorem number_digits (n : Nat) : number 10 (Positional.digits n) = n := by
  rw [number_eq fun _ => isDigit_digits]
  exact Nat.ofDigitChars_ten_toDigits

theorem head?_digits {n : Nat} (hn : 0 < n) : (Positional.digits n).head? ≠ some '0' := by
  unfold Positional.digits
  induction n using Nat.strong_induction_on with
  | _ n ih =>
    by_cases hsmall : n < 10
    · rw [Nat.toDigits_of_lt_base hsmall]
      have : ∀ d < 10, 0 < d → d.digitChar ≠ '0' := by decide
      simpa using this n hsmall hn
    · rw [Nat.toDigits_of_base_le (by decide) (by omega), List.head?_append_of_ne_nil _ Nat.toDigits_ne_nil]
      exact ih (n / 10) (by omega) (by omega)

theorem isDigit_append {s t : List Char} (hs : ∀ c ∈ s, c.isDigit = true) (ht : ∀ c ∈ t, c.isDigit = true) :
    ∀ c ∈ s ++ t, c.isDigit = true := fun c hc => (List.mem_append.mp hc).elim (hs c) (ht c)

theorem isDigit_zeros (n : Nat) : ∀ c ∈ List.replicate n '0', c.isDigit = true := fun c hc => by
  rw [List.eq_of_mem_replicate hc]
  rfl

theorem number_append {s t : List Char} (hs : ∀ c ∈ s, c.isDigit = true) (ht : ∀ c ∈ t, c.isDigit = true) :
    number 10 (s ++ t) = 10 ^ t.length * number 10 s + number 10 t := by
  rw [number_eq (isDigit_append hs ht), Nat.ofDigitChars_append, Nat.ofDigitChars_eq_ofDigitChars_zero,
    ← number_eq hs, ← number_eq ht]

theorem number_zeros (n : Nat) : number 10 (List.replicate n '0') = 0 := by
  rw [number_eq (isDigit_zeros n), Nat.ofDigitChars_replicate_zero, Nat.mul_zero]

theorem isWhole_digits (n : Nat) : IsWhole (Positional.digits n) where
  ne_nil := Nat.toDigits_ne_nil
  digits := fun _ => isDigit_digits
  leading := by
    rcases Nat.eq_zero_or_pos n with rfl | hn
    · exact fun _ => rfl
    · exact fun h => absurd h (head?_digits hn)

theorem digits?_of_digits {s : List Char} (hs : s ≠ []) (h : ∀ c ∈ s, c.isDigit = true) :
    digits? Char.isDigit s = some s := by
  have hunderscore : ∀ c ∈ s, c ≠ '_' := fun c hc => by
    rintro rfl
    exact absurd (h _ hc) (by decide)
  have hall : s.all (fun c => c.isDigit || c = '_') = true := by
    rw [List.all_eq_true]
    exact fun c hc => by rw [h c hc, Bool.true_or]
  have hhead : s.head?.any Char.isDigit = true := by
    rw [List.head?_eq_some_head hs]
    exact h _ (List.head_mem hs)
  have hlast : s.getLast?.any Char.isDigit = true := by
    rw [List.getLast?_eq_some_getLast hs]
    exact h _ (List.getLast_mem hs)
  have hdoubled : ((s.zip s.tail).any fun p => p.1 = '_' && p.2 = '_') = false := by
    rw [List.any_eq_false]
    intro p hp
    have := hunderscore p.1 (List.of_mem_zip hp).1
    simp [this]
  have hfilter : s.filter (· ≠ '_') = s := List.filter_eq_self.mpr fun c hc => by simp [hunderscore c hc]
  rw [digits?, hall, hhead, hlast, hdoubled, hfilter]
  rfl

theorem IsWhole.decimal? {s : List Char} (h : IsWhole s) : decimal? s = some s := by
  have hleading : ¬(s.head? = some '0' ∧ 1 < s.length) := fun ⟨hzero, hlong⟩ => by
    have := h.leading hzero
    omega
  rw [Scalar.decimal?, if_neg (by simpa using hleading), digits?_of_digits h.ne_nil h.digits]

theorem digits?_eq_none {s : List Char} {c : Char} (hc : c ∈ s) (hdigit : c.isDigit = false)
    (hunderscore : c ≠ '_') : digits? Char.isDigit s = none := by
  have hall : s.all (fun c => c.isDigit || c = '_') = false := by
    rw [List.all_eq_false]
    exact ⟨c, hc, by simp [hdigit, hunderscore]⟩
  rw [digits?, hall]
  rfl

theorem decimal?_eq_none {s : List Char} {c : Char} (hc : c ∈ s) (hdigit : c.isDigit = false)
    (hunderscore : c ≠ '_') : Scalar.decimal? s = none := by
  unfold Scalar.decimal?
  split
  · rfl
  · exact digits?_eq_none hc hdigit hunderscore

/-! ## A point -/

/-- A numeral with a point, and its digits in front of the point and behind it. -/
structure IsPointed (s whole fraction : List Char) : Prop where
  eq : s = whole ++ '.' :: fraction
  whole : IsWhole whole
  ne_nil : fraction ≠ []
  digits : ∀ c ∈ fraction, c.isDigit = true

section

variable {s whole fraction : List Char}

theorem IsPointed.point (h : IsPointed s whole fraction) : '.' ∈ s := by
  rw [h.eq]
  exact List.mem_append_right _ List.mem_cons_self

theorem IsPointed.char (h : IsPointed s whole fraction) {c : Char} (hc : c ∈ s) :
    c.isDigit = true ∨ c = '.' := by
  rw [h.eq] at hc
  rcases List.mem_append.mp hc with hc | hc
  · exact .inl (h.whole.digits c hc)
  · rcases List.mem_cons.mp hc with rfl | hc
    · exact .inr rfl
    · exact .inl (h.digits c hc)

theorem IsPointed.notMem (h : IsPointed s whole fraction) {c : Char} (hdigit : c.isDigit = false)
    (hpoint : c ≠ '.') : c ∉ s := fun hc => by
  rcases h.char hc with hc | hc
  · rw [hdigit] at hc
    cases hc
  · exact hpoint hc

theorem span_append {p : Char → Bool} {u v : List Char} (hu : ∀ c ∈ u, p c = true)
    (hv : v.head?.all (!p ·) = true) : (u ++ v).span p = (u, v) := by
  rw [List.span_eq_takeWhile_dropWhile, List.takeWhile_append_of_pos hu, List.dropWhile_append_of_pos hu]
  cases v with
  | nil => simp
  | cons c v =>
    have hc : p c = false := by simpa using hv
    simp [hc]

theorem span_self {p : Char → Bool} {u : List Char} (hu : ∀ c ∈ u, p c = true) : u.span p = (u, []) := by
  simpa using span_append hu (v := []) rfl

theorem IsPointed.finite? (h : IsPointed s whole fraction) :
    finite? s = some (Binary64.ofDecimal (number 10 (whole ++ fraction)) (-fraction.length)) := by
  have hexponent : s.span (fun c => c ≠ 'e' && c ≠ 'E') = (s, []) := by
    refine span_self fun c hc => ?_
    have hlower : c ≠ 'e' := fun hce => h.notMem (c := 'e') (by decide) (by decide) (hce ▸ hc)
    have hupper : c ≠ 'E' := fun hce => h.notMem (c := 'E') (by decide) (by decide) (hce ▸ hc)
    simp [hlower, hupper]
  have hpoint : s.span (· ≠ '.') = (whole, '.' :: fraction) := by
    rw [h.eq]
    refine span_append (fun c hc => ?_) (by simp)
    have : c ≠ '.' := by
      rintro rfl
      exact absurd (h.whole.digits _ hc) (by decide)
    simpa using this
  have hmantissa : mantissa? s = some (whole, fraction) := by
    unfold mantissa?
    rw [hpoint]
    dsimp only
    rw [h.whole.decimal?, digits?_of_digits h.ne_nil h.digits]
    rfl
  unfold Scalar.finite?
  rw [hexponent]
  dsimp only
  rw [hmantissa]
  simp [h.ne_nil]

/-! ## A sign -/

def withSign (negative : Bool) (s : List Char) : List Char := if negative then '-' :: s else s

theorem mem_withSign {negative : Bool} {c : Char} (hc : c ∈ withSign negative s) : c = '-' ∨ c ∈ s := by
  cases negative
  · exact .inr hc
  · exact List.mem_cons.mp hc

theorem sign_withSign (negative : Bool) (hminus : '-' ∉ s) (hplus : '+' ∉ s) :
    sign (withSign negative s) = (negative, s) := by
  cases negative
  · unfold withSign sign
    rw [if_neg (by decide)]
    split
    · exact absurd List.mem_cons_self hminus
    · exact absurd List.mem_cons_self hplus
    · rfl
  · rfl

theorem IsPointed.float? (h : IsPointed s whole fraction) (negative : Bool) {bits : UInt64}
    (hbits : Binary64.ofDecimal (number 10 (whole ++ fraction)) (-fraction.length) = bits)
    (hfinite : bits ≠ infinityBits) :
    float? (withSign negative s) = some (.float (if negative then bits ||| signBit else bits)) := by
  have hinf : s ≠ ['i', 'n', 'f'] := fun hs => h.notMem (c := 'i') (by decide) (by decide) (by simp [hs])
  have hnan : s ≠ ['n', 'a', 'n'] := fun hs => h.notMem (c := 'n') (by decide) (by decide) (by simp [hs])
  unfold Scalar.float?
  rw [sign_withSign negative (h.notMem (by decide) (by decide)) (h.notMem (by decide) (by decide))]
  dsimp only
  rw [if_neg hinf, if_neg hnan, h.finite?, hbits, Option.map_some, if_neg hfinite]

end

/-! ## What a numeral is not -/

section

variable {t : List Char}

theorem field?_rest {count n : Nat} {r : List Char} (h : field? count t = some (n, r)) : r = t.drop count := by
  unfold field? at h
  dsimp only at h
  split at h <;> simp_all

/-- A moment has a colon, or a minus that is no sign. -/
theorem isMoment_eq_false (hcolon : ':' ∉ t) (hminus : '-' ∉ t.tail) : isMoment t = false := by
  have hdate : afterDate? t = none := by
    unfold afterDate?
    rcases hfield : field? 4 t with _ | ⟨year, r⟩
    · rfl
    · have hr := field?_rest hfield
      simp only [Option.bind_eq_bind, Option.bind_some]
      split
      · next r' => 
        have : '-' ∈ t.drop 4 := hr ▸ List.mem_cons_self
        exact absurd ((List.drop_suffix 3 t.tail).mem (by simpa using this)) hminus
      · rfl
  have htime : afterTime? t = none := by
    unfold afterTime?
    rcases hfield : field? 2 t with _ | ⟨hour, r⟩
    · rfl
    · have hr := field?_rest hfield
      simp only [Option.bind_eq_bind, Option.bind_some]
      split
      · next r' =>
        have : ':' ∈ t.drop 2 := hr ▸ List.mem_cons_self
        exact absurd (List.mem_of_mem_drop this) hcolon
      · rfl
  rw [isMoment, hdate, htime]
  rfl

theorem unbounded?_eq_none (hpoint : '.' ∈ t) (hx : 'x' ∉ t) (ho : 'o' ∉ t) (hb : 'b' ∉ t) :
    unbounded? t = none := by
  unfold unbounded?
  split
  · exact absurd (by simp) hx
  · exact absurd (by simp) ho
  · exact absurd (by simp) hb
  · have hrest : '.' ∈ (sign t).2 := by
      unfold sign
      split
      · simpa using hpoint
      · simpa using hpoint
      · exact hpoint
    dsimp only
    rw [decimal?_eq_none hrest (by decide) (by decide), Option.map_none]

theorem isVoid_eq_false (hpoint : '.' ∈ t) (hunderscore : '_' ∉ t) : isVoid t = false := by
  have hmark : ∀ c, c ≠ '.' → t ≠ ['0', c] := fun c hc ht => by
    rw [ht] at hpoint
    simp [hc.symm] at hpoint
  have hsign : ∀ c ∈ (sign t).2, c ∈ t := fun c hc => by
    unfold sign at hc
    split at hc
    · exact List.mem_cons_of_mem _ hc
    · exact List.mem_cons_of_mem _ hc
    · exact hc
  have hrest : ((sign t).2.dropWhile Char.isDigit).head? ≠ some '_' := fun h =>
    hunderscore (hsign _ ((List.dropWhile_suffix _).mem (List.mem_of_head? h)))
  unfold isVoid
  dsimp only
  rw [if_neg (by simp [hmark]), List.span_eq_takeWhile_dropWhile]
  simp [hrest]

end

/-! ## Classification -/

theorem IsPointed.scalar? {s whole fraction : List Char} (h : IsPointed s whole fraction) (negative : Bool) :
    Toml.scalar? (withSign negative s) = Scalar.float? (withSign negative s) := by
  have hmem : ∀ c, c.isDigit = false → c ≠ '.' → c ≠ '-' → c ∉ withSign negative s :=
    fun c hdigit hpoint hminus hc => (mem_withSign hc).elim hminus (h.notMem hdigit hpoint)
  have hpoint : '.' ∈ withSign negative s := by
    cases negative
    · exact h.point
    · exact List.mem_cons_of_mem _ h.point
  have hminus : '-' ∉ (withSign negative s).tail := by
    have hs : '-' ∉ s := h.notMem (by decide) (by decide)
    cases negative
    · exact fun hc => hs (List.mem_of_mem_tail hc)
    · exact hs
  have htrue : withSign negative s ≠ ['t', 'r', 'u', 'e'] := fun ht => by simp [ht] at hpoint
  have hfalse : withSign negative s ≠ ['f', 'a', 'l', 's', 'e'] := fun ht => by simp [ht] at hpoint
  have hmoment := isMoment_eq_false (hmem ':' (by decide) (by decide) (by decide)) hminus
  have hinteger := unbounded?_eq_none hpoint (hmem 'x' (by decide) (by decide) (by decide))
    (hmem 'o' (by decide) (by decide) (by decide)) (hmem 'b' (by decide) (by decide) (by decide))
  have hvoid := isVoid_eq_false hpoint (hmem '_' (by decide) (by decide) (by decide))
  rw [Toml.scalar?, if_neg htrue, if_neg hfalse, hmoment, if_neg (by decide), hinteger, hvoid]
  rfl

theorem scalar?_digits {n : Nat} (hn : n < 2 ^ 128) :
    Toml.scalar? (Positional.digits n) = some (.integer n) := by
  have hmem : ∀ c, c.isDigit = false → c ∉ Positional.digits n := fun c hc h => by
    rw [isDigit_digits h] at hc
    cases hc
  have htrue : Positional.digits n ≠ ['t', 'r', 'u', 'e'] := fun h => hmem 't' (by decide) (by simp [h])
  have hfalse : Positional.digits n ≠ ['f', 'a', 'l', 's', 'e'] := fun h => hmem 'f' (by decide) (by simp [h])
  have hmoment : isMoment (Positional.digits n) = false :=
    isMoment_eq_false (hmem ':' (by decide)) fun h => hmem '-' (by decide) (List.mem_of_mem_tail h)
  have hsign : sign (Positional.digits n) = (false, Positional.digits n) :=
    sign_withSign false (hmem '-' (by decide)) (hmem '+' (by decide))
  have hinteger : unbounded? (Positional.digits n) = some (n : Int) := by
    unfold unbounded?
    split
    · next h => exact absurd (by simp [h]) (hmem 'x' (by decide))
    · next h => exact absurd (by simp [h]) (hmem 'o' (by decide))
    · next h => exact absurd (by simp [h]) (hmem 'b' (by decide))
    · rw [hsign]
      dsimp only
      rw [(isWhole_digits n).decimal?, Option.map_some, number_digits]
      rfl
  have hword : isWord n = true := by
    have hlow : -(Int.pow 2 127) ≤ n := (by decide : -(Int.pow 2 127) ≤ 0).trans (Int.natCast_nonneg n)
    have hhigh : (n : Int) < Int.pow 2 128 := by
      show (n : Int) < ((2 ^ 128 : Nat) : Int)
      exact_mod_cast hn
    rw [isWord, decide_eq_true hlow, decide_eq_true hhigh]
    rfl
  rw [Toml.scalar?, if_neg htrue, if_neg hfalse, hmoment, if_neg (by decide), hinteger]
  dsimp only
  rw [hword, if_pos rfl]

end Toml.Scalar

/-! ## Writing -/

namespace Positional

open Toml.Scalar Binary64

theorem normalize_spec (fuel : Nat) {d : Nat} (hd : 0 < d) (k : Int) :
    0 < (normalize fuel (d, k)).1 ∧
      ((normalize fuel (d, k)).1 : ℚ) * 10 ^ (normalize fuel (d, k)).2 = d * 10 ^ k := by
  induction fuel generalizing d k with
  | zero => exact ⟨hd, rfl⟩
  | succ fuel ih =>
    unfold normalize
    split
    · next h =>
      simp only [Bool.and_eq_true, decide_eq_true_eq] at h
      obtain ⟨hpos, hsame⟩ := ih (Nat.div_pos (Nat.le_of_mod_lt (by omega)) (by decide) : 0 < d / 10) (k + 1)
      refine ⟨hpos, hsame.trans ?_⟩
      have hten : (d : ℚ) = (d / 10 : Nat) * 10 := by
        exact_mod_cast (Nat.div_mul_cancel (Nat.dvd_of_mod_eq_zero h.2)).symm
      rw [hten, zpow_add_one₀ (by norm_num)]
      ring
    · exact ⟨hd, rfl⟩

/-- A numeral with a point that stands for a number. -/
def Denotes (s : List Char) (x : ℚ) : Prop :=
  ∃ whole fraction, IsPointed s whole fraction ∧
    (number 10 (whole ++ fraction) : ℚ) * 10 ^ (-fraction.length : Int) = x

section

variable {d : Nat}

theorem denotes_whole (hd : 0 < d) (n : Nat) :
    Denotes (digits d ++ List.replicate n '0' ++ ['.', '0']) (d * 10 ^ n) := by
  have hzero : ∀ c ∈ ['0'], c.isDigit = true := isDigit_zeros 1
  have hdigits := (isWhole_digits d).digits
  have hne := (isWhole_digits d).ne_nil
  have hwhole : IsWhole (digits d ++ List.replicate n '0') :=
    isWhole_of_head (List.append_ne_nil_of_left_ne_nil hne _) (isDigit_append hdigits (isDigit_zeros _))
      (by rw [List.head?_append_of_ne_nil _ hne]; exact head?_digits hd)
  refine ⟨_, ['0'], ⟨rfl, hwhole, by simp, hzero⟩, ?_⟩
  rw [number_append hwhole.digits hzero, number_append hdigits (isDigit_zeros _), number_digits,
    number_zeros, List.length_replicate]
  simp [number, digitValue]
  ring

theorem denotes_split (hd : 0 < d) {places : Nat} (hpos : 0 < places) (hshort : places < (digits d).length) :
    Denotes ((digits d).take ((digits d).length - places) ++ '.' :: (digits d).drop ((digits d).length - places))
      (d * 10 ^ (-places : Int)) := by
  have hdigits := (isWhole_digits d).digits
  have hwhole : IsWhole ((digits d).take ((digits d).length - places)) := by
    refine isWhole_of_head ?_ (fun c hc => hdigits c (List.mem_of_mem_take hc)) ?_
    · simp [(isWhole_digits d).ne_nil]
      omega
    · rw [List.head?_take, if_neg (by omega)]
      exact head?_digits hd
  have hfraction : (digits d).drop ((digits d).length - places) ≠ [] := by
    rw [ne_eq, List.drop_eq_nil_iff]
    omega
  refine ⟨_, _, ⟨rfl, hwhole, hfraction, fun c hc => hdigits c (List.mem_of_mem_drop hc)⟩, ?_⟩
  rw [List.take_append_drop, number_digits, List.length_drop, Nat.sub_sub_self hshort.le]

theorem denotes_fraction {places : Nat} (hlong : (digits d).length ≤ places) :
    Denotes ('0' :: '.' :: List.replicate (places - (digits d).length) '0' ++ digits d)
      (d * 10 ^ (-places : Int)) := by
  have hzero : ∀ c ∈ ['0'], c.isDigit = true := isDigit_zeros 1
  have hdigits := (isWhole_digits d).digits
  have hzeros := isDigit_zeros (places - (digits d).length)
  refine ⟨['0'], List.replicate (places - (digits d).length) '0' ++ digits d,
    ⟨rfl, ⟨by simp, hzero, fun _ => rfl⟩, ?_, isDigit_append hzeros hdigits⟩, ?_⟩
  · exact List.append_ne_nil_of_right_ne_nil _ (isWhole_digits d).ne_nil
  · rw [number_append hzero (isDigit_append hzeros hdigits), number_append hzeros hdigits, number_digits,
      number_zeros, List.length_append, List.length_replicate, Nat.sub_add_cancel hlong,
      show number 10 ['0'] = 0 from rfl]
    simp only [Nat.mul_zero, Nat.zero_add]

/-- The written numeral has a point, and its digits are those of the number. -/
theorem denotes_write (hd : 0 < d) (k : Int) : Denotes (write d k) (d * 10 ^ k) := by
  obtain ⟨hpos, hsame⟩ := normalize_spec 20 hd k
  rw [← hsame]
  unfold write
  generalize normalize 20 (d, k) = p at hpos
  obtain ⟨d, k⟩ := p
  dsimp only at hpos ⊢
  split
  · next hk =>
    obtain ⟨n, rfl⟩ := Int.eq_ofNat_of_zero_le hk
    exact denotes_whole hpos n
  · next hk =>
    obtain ⟨places, rfl⟩ := Int.exists_eq_neg_ofNat (Int.le_of_not_le hk)
    rw [Int.neg_neg, Int.toNat_natCast]
    split
    · next hshort => exact denotes_split hpos (by omega) hshort
    · next hlong => exact denotes_fraction (Nat.not_lt.mp hlong)

end

end Positional

/-! ## Bit patterns -/

namespace Binary64

def magnitude (bits : UInt64) : Nat := bits.toNat % 2 ^ 63

theorem magnitude_of_finite {bits : UInt64} {negative : Bool} {m : Nat} {q : Int}
    (h : decode bits = .finite negative m q) :
    negative = decide (bits.toNat / 2 ^ 63 = 1) ∧
      (m = 0 ∧ magnitude bits = 0 ∨ Regular m q ∧ magnitude bits = encode m q) := by
  have hpow : ∀ n, Nat.pow 2 n = 2 ^ n := fun _ => rfl
  have hlt := bits.toNat_lt
  unfold decode at h
  simp only [hpow, fractionBits] at h
  split at h
  · split at h <;> cases h
  · next hlast =>
    split at h
    · next hfirst =>
      simp only [Value.finite.injEq] at h
      obtain ⟨rfl, rfl, rfl⟩ := h
      refine ⟨rfl, ?_⟩
      have hmagnitude : magnitude bits = bits.toNat % 2 ^ 52 := by
        unfold magnitude
        omega
      rcases Nat.eq_zero_or_pos (bits.toNat % 2 ^ 52) with hzero | hpos
      · exact .inl ⟨hzero, hmagnitude.trans hzero⟩
      · refine .inr ⟨⟨hpos, by omega, le_rfl, by decide, .inr rfl⟩, ?_⟩
        rw [hmagnitude, encode, if_pos rfl]
    · next hfirst =>
      simp only [Value.finite.injEq] at h
      obtain ⟨rfl, rfl, rfl⟩ := h
      refine ⟨rfl, .inr ⟨⟨by omega, by omega, ?_, ?_, .inl (by omega)⟩, ?_⟩⟩
      · show -1074 ≤ _
        omega
      · omega
      · unfold encode magnitude
        split
        · next hleast =>
          have : _ = (-1074 : Int) := hleast
          omega
        · omega

theorem magnitude_of_infinite {bits : UInt64} {negative : Bool} (h : decode bits = .infinite negative) :
    negative = decide (bits.toNat / 2 ^ 63 = 1) ∧ magnitude bits = infinityBits := by
  have hpow : ∀ n, Nat.pow 2 n = 2 ^ n := fun _ => rfl
  have hlt := bits.toNat_lt
  unfold decode at h
  simp only [hpow, fractionBits] at h
  split at h
  · split at h
    · simp only [Value.infinite.injEq] at h
      refine ⟨h.symm, ?_⟩
      unfold magnitude infinityBits
      simp only [hpow, fractionBits]
      omega
    · cases h
  · split at h <;> cases h

theorem toNat_magnitude (bits : UInt64) : (magnitude bits).toUInt64.toNat = magnitude bits := by
  have hmagnitude : magnitude bits < 2 ^ 63 := Nat.mod_lt _ (by decide)
  rw [Nat.toUInt64_eq, UInt64.toNat_ofNat_of_lt' (by show _ < 2 ^ 64; omega)]

theorem signed_magnitude (bits : UInt64) :
    (if decide (bits.toNat / 2 ^ 63 = 1) then (magnitude bits).toUInt64 ||| Toml.Scalar.signBit
      else (magnitude bits).toUInt64) = bits := by
  have hlt := bits.toNat_lt
  have hmagnitude : magnitude bits < 2 ^ 63 := Nat.mod_lt _ (by decide)
  apply UInt64.toNat_inj.mp
  split
  · next h =>
    rw [UInt64.toNat_or, toNat_magnitude]
    show magnitude bits ||| 2 ^ 63 = _
    rw [Nat.or_two_pow_eq_add_of_lt hmagnitude]
    simp only [decide_eq_true_eq] at h
    unfold magnitude
    omega
  · next h =>
    rw [toNat_magnitude]
    simp only [decide_eq_true_eq] at h
    unfold magnitude
    omega

end Binary64

namespace Toml.Scalar

theorem IsPointed.scalar?_eq_float {s whole fraction : List Char} (h : IsPointed s whole fraction)
    {bits : UInt64}
    (hvalue : Binary64.ofDecimal (number 10 (whole ++ fraction)) (-fraction.length) =
      (Binary64.magnitude bits).toUInt64)
    (hfinite : Binary64.magnitude bits < Binary64.infinityBits) :
    Toml.scalar? (withSign (decide (bits.toNat / 2 ^ 63 = 1)) s) = some (.float bits) := by
  have hword : (Binary64.magnitude bits).toUInt64 ≠ infinityBits := fun heq => by
    rw [← Binary64.toNat_magnitude, heq] at hfinite
    exact absurd hfinite (by decide)
  rw [h.scalar?, h.float? _ hvalue hword, Binary64.signed_magnitude]

/-- A finite number is written by a numeral with a point that rounds to it. -/
theorem pointed_of_finite {bits : UInt64} {negative : Bool} {m : Nat} {q : Int}
    (hd : Binary64.decode bits = .finite negative m q) :
    ∃ s whole fraction, Positional.ofBits bits = withSign (decide (bits.toNat / 2 ^ 63 = 1)) s ∧
      IsPointed s whole fraction ∧
      Binary64.ofDecimal (number 10 (whole ++ fraction)) (-fraction.length) =
        (Binary64.magnitude bits).toUInt64 ∧
      Binary64.magnitude bits < Binary64.infinityBits := by
  obtain ⟨hsign, hfinite⟩ := Binary64.magnitude_of_finite hd
  unfold Positional.ofBits
  rw [hd, hsign]
  dsimp only
  rcases hfinite with ⟨rfl, hzero⟩ | ⟨hregular, hmagnitude⟩
  · refine ⟨_, _, _, rfl, ⟨rfl, isWhole_digits 0, by simp, isDigit_zeros 1⟩, ?_, ?_⟩
    · rw [hzero]
      rfl
    · rw [hzero]
      decide
  · have hrounds := Binary64.rounds_shortest hregular
    have hpos : 0 < (Binary64.shortest m q).1 := by
      have := hrounds.pos hregular.pos
      refine Nat.pos_of_ne_zero fun hzero => ?_
      simp [hzero] at this
    obtain ⟨whole, fraction, hpointed, hvalue⟩ := Positional.denotes_write hpos (Binary64.shortest m q).2
    rw [← hvalue] at hrounds
    rw [if_neg hregular.pos.ne', hmagnitude]
    exact ⟨_, whole, fraction, rfl, hpointed, Binary64.ofDecimal_of_rounds hregular hrounds,
      Binary64.encode_lt hregular⟩

/-- A binary64 number is read back from its numeral, bit by bit. -/
theorem scalar?_ofBits {bits : UInt64} (hnan : Binary64.decode bits = .nan → bits = nanBits) :
    Toml.scalar? (Positional.ofBits bits) = some (.float bits) := by
  rcases hd : Binary64.decode bits with _ | negative | ⟨negative, m, q⟩
  · rw [hnan hd]
    rfl
  · obtain ⟨rfl, hmagnitude⟩ := Binary64.magnitude_of_infinite hd
    have hsigned := Binary64.signed_magnitude bits
    rw [Positional.ofBits, hd]
    rw [hmagnitude] at hsigned
    generalize decide (bits.toNat / 2 ^ 63 = 1) = negative at hsigned
    rw [← hsigned]
    cases negative <;> rfl
  · obtain ⟨s, whole, fraction, hs, hpointed, hvalue, hfinite⟩ := pointed_of_finite hd
    rw [hs]
    exact hpointed.scalar?_eq_float hvalue hfinite

/-- A character that occurs in a written number. -/
def IsNumeralChar (c : Char) : Prop := c.isDigit = true ∨ c ∈ ['.', '-', 'n', 'a', 'i', 'f']

theorem isNumeralChar_ofBits {bits : UInt64} {c : Char} (hc : c ∈ Positional.ofBits bits) :
    IsNumeralChar c := by
  rcases hd : Binary64.decode bits with _ | negative | ⟨negative, m, q⟩
  · rw [Positional.ofBits, hd] at hc
    exact .inr (by revert hc; simp; tauto)
  · rw [Positional.ofBits, hd] at hc
    exact .inr (by revert hc; cases negative <;> simp <;> tauto)
  · obtain ⟨s, whole, fraction, hs, hpointed, -, -⟩ := pointed_of_finite hd
    rw [hs] at hc
    rcases mem_withSign hc with rfl | hc
    · exact .inr (by simp)
    · rcases hpointed.char hc with hdigit | rfl
      · exact .inl hdigit
      · exact .inr (by simp)

theorem ofBits_ne_nil (bits : UInt64) : Positional.ofBits bits ≠ [] := by
  rcases hd : Binary64.decode bits with _ | negative | ⟨negative, m, q⟩
  · simp [Positional.ofBits, hd]
  · cases negative <;> simp [Positional.ofBits, hd]
  · obtain ⟨s, whole, fraction, hs, hpointed, -, -⟩ := pointed_of_finite hd
    have hne := List.ne_nil_of_mem hpointed.point
    rw [hs]
    unfold withSign
    split <;> simp [hne]

end Toml.Scalar

end Handheld
