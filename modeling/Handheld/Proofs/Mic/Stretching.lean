import Handheld.Proofs.Audio.Resampling
import Handheld.Wav.Samples

/-!
# Recordings at the microphone rate

A recording is brought to the microphone rate by a timer that counts samples of the recording for each one
of the output, and gives whole samples to a read position one at a time (`Settles`). The timer of machine
numbers loses nothing there, so that this loop ends, and where `Cursor.carry` leads at once
(`settles_carry`). A step moves few samples at a time, so that their numbers stay far within a word
(`exists_gain`), and the loop around it then reads as many samples as the length at the new rate, from the
first on and never backwards (`recording_repeats_and_skips`).
-/

namespace Handheld

open Binary64 Scalar

namespace Resample

/-! ## The timer -/

/-- Whole samples are moved from the timer into the index, one at a time, for as long as there is one. The
index is a word. -/
inductive Settles : Cursor Float → Cursor Float → Prop where
  | rest {c : Cursor Float} (h : ¬1 ≤ c.timer) : Settles c c
  | turn {c d : Cursor Float} (h : 1 ≤ c.timer) (hword : c.index + 1 < 2 ^ 64)
      (hrest : Settles ⟨c.index + 1, c.timer - 1⟩ d) : Settles c d

theorem Settles.unique {c d d' : Cursor Float} (h : Settles c d) (h' : Settles c d') : d = d' := by
  induction h with
  | rest hstop =>
    cases h' with
    | rest => rfl
    | turn hgo => exact absurd hgo hstop
  | turn hgo _ _ ih =>
    cases h' with
    | rest hstop => exact absurd hgo hstop
    | turn _ _ hrest => exact ih hrest

theorem Settles.index_le {c d : Cursor Float} (h : Settles c d) : c.index ≤ d.index := by
  induction h with
  | rest => exact le_rfl
  | turn _ _ _ ih => exact (Nat.le_succ _).trans ih

section
variable {c : Cursor Float} {t : ℚ}

theorem carry_of_lt (ht : Denotes c.timer t) (hlt : t < 1) : c.carry = c := by
  rw [Cursor.carry, if_pos ((less_one_iff ht).mpr hlt)]

theorem carry_of_le (ht : Denotes c.timer t) (hone : 1 ≤ t) (hword : t < 2 ^ 64) :
    c.carry = ⟨c.index + ⌊t⌋.toNat, c.timer - floatFloor c.timer⟩ := by
  have hless : ¬Scalar.less c.timer (Scalar.ofNat 1) = true := mt (less_one_iff ht).mp (not_lt.mpr hone)
  have hpos : 0 ≤ ⌊t⌋ := Int.floor_nonneg.mpr (by linarith)
  have hnonneg : (0 : ℚ) ≤ ⌊t⌋ := by exact_mod_cast hpos
  have hwhole : ((floatFloor c.timer).toUInt64.toNat : ℤ) = ⌊((⌊t⌋ : ℤ) : ℚ)⌋ :=
    (denotes_floatFloor ht).toNat_toUInt64 hnonneg ((Int.floor_le t).trans_lt hword)
  rw [Int.floor_intCast] at hwhole
  rw [Cursor.carry, if_neg hless]
  show (⟨c.index + (floatFloor c.timer).toUInt64.toNat, _⟩ : Cursor Float) = _
  rw [← hwhole, Int.toNat_natCast]
  rfl

theorem denotes_sub_one (ht : Denotes c.timer t) (hone : 1 ≤ t) (hword : t < 2 ^ 53) :
    Denotes (c.timer - 1) (t - 1) := by
  have hlimit : |t - 1| ≤ limit := by
    rw [abs_of_nonneg (by linarith)]
    exact le_trans (by linarith) (two_pow_le_limit (n := 53) (by norm_num))
  obtain ⟨r, hr, hfaithful⟩ := ht.sub Binary64.denotes_one hlimit
  rwa [hfaithful.eq (ht.representable.sub_one hone hword)] at hr

theorem carry_turn (ht : Denotes c.timer t) (hone : 1 ≤ t) (hword : t < 2 ^ 53) :
    Cursor.carry ⟨c.index + 1, c.timer - 1⟩ = c.carry := by
  have hnext := denotes_sub_one ht hone hword
  have hfloor : ⌊t - 1⌋ = ⌊t⌋ - 1 := Int.floor_sub_one t
  have hwhole : 1 ≤ ⌊t⌋ := Int.le_floor.mpr (by exact_mod_cast hone)
  have hpos : t ≠ 0 := by
    rintro rfl
    linarith
  have hlimit : |t - ⌊t⌋| ≤ limit := by
    rw [Int.self_sub_floor, abs_of_nonneg (Int.fract_nonneg t)]
    exact (Int.fract_lt_one t).le.trans (two_pow_le_limit (n := 0) (by norm_num))
  have hfract : Representable (t - ⌊t⌋) := (ht.representable.floor (by linarith)).2
  have hrest := denotes_floatFloor ht
  rw [carry_of_le ht hone (hword.trans (by norm_num))]
  rcases lt_or_ge (t - 1) 1 with hlast | hmore
  · have hfloor_one : ⌊t⌋ = 1 := Int.floor_eq_iff.mpr ⟨by push_cast; linarith, by push_cast; linarith⟩
    rw [hfloor_one, Int.cast_one] at hlimit hfract hrest
    have htimer := Denotes.sub_congr ht Binary64.denotes_one ht hrest hpos hpos rfl hfract hlimit
    rw [carry_of_lt (c := ⟨c.index + 1, c.timer - 1⟩) hnext hlast, hfloor_one, htimer]
    rfl
  · have hpos' : t - 1 ≠ 0 := by
      intro hzero
      linarith
    have hsame : t - 1 - (⌊t - 1⌋ : ℤ) = t - ⌊t⌋ := by
      rw [hfloor]
      push_cast
      ring
    have htimer := Denotes.sub_congr ht hrest hnext (denotes_floatFloor hnext) hpos hpos' hsame.symm hfract hlimit
    have hindex : c.index + 1 + (⌊t⌋ - 1).toNat = c.index + ⌊t⌋.toNat := by omega
    rw [carry_of_le (c := ⟨c.index + 1, c.timer - 1⟩) hnext hmore (by linarith), hfloor, hindex, htimer]

/-- The loop ends, and where all whole samples are moved at once. The induction is on their number. -/
theorem settles_carry {whole : ℕ} (ht : Denotes c.timer t) (hwhole : ⌊t⌋ = whole) (hword : t < 2 ^ 53)
    (hindex : c.index + whole < 2 ^ 64) : Settles c c.carry := by
  induction whole generalizing c t with
  | zero =>
    have hlt : t < 1 := by simpa using (Int.floor_eq_iff.mp hwhole).2
    rw [carry_of_lt ht hlt]
    exact .rest fun hone => absurd ((Binary64.denotes_one.le_iff ht).mp hone) (not_le.mpr hlt)
  | succ whole ih =>
    have hone : 1 ≤ t := by
      have hle := (Int.floor_eq_iff.mp hwhole).1
      push_cast at hle
      linarith [whole.cast_nonneg (α := ℚ)]
    refine .turn ((Binary64.denotes_one.le_iff ht).mpr hone) (by omega) ?_
    rw [← carry_turn ht hone hword]
    refine ih (c := ⟨c.index + 1, c.timer - 1⟩) (denotes_sub_one ht hone hword) ?_ (by linarith)
      (show c.index + 1 + whole < 2 ^ 64 by omega)
    rw [Int.floor_sub_one, hwhole]
    push_cast
    ring

end

/-! ## Cursors on a sample -/

/-- A cursor is on a sample, less than one beyond it. -/
structure Poised (c : Cursor Float) (t : ℚ) : Prop where
  denotes : Denotes c.timer t
  nonneg : 0 ≤ t
  lt_one : t < 1

theorem poised_zero : Poised ⟨0, 0⟩ 0 where
  denotes := by
    have hzero : Denotes (floatOfWord 0) (0 : ℕ) := denotes_floatOfWord_of_lt (by norm_num)
    rwa [Nat.cast_zero] at hzero
  nonneg := le_rfl
  lt_one := zero_lt_one

theorem Poised.carry {c : Cursor Float} {t : ℚ} (ht : Denotes c.timer t) (hnonneg : 0 ≤ t)
    (hword : t < 2 ^ 64) : c.carry.index = c.index + ⌊t⌋.toNat ∧ ∃ t', Poised c.carry t' := by
  rcases lt_or_ge t 1 with hlt | hone
  · have hfloor : ⌊t⌋ = 0 := Int.floor_eq_zero_iff.mpr ⟨hnonneg, hlt⟩
    rw [carry_of_lt ht hlt, hfloor]
    exact ⟨rfl, t, ht, hnonneg, hlt⟩
  · rw [carry_of_le ht hone hword]
    exact ⟨rfl, Int.fract t, denotes_sub_floor ht (denotes_floatFloor ht) hnonneg, Int.fract_nonneg t,
      Int.fract_lt_one t⟩

/-- A step from a sample leads to so many samples further on at most. -/
def Gains (step : Float) (gain : ℕ) : Prop :=
  ∀ {c : Cursor Float} {t : ℚ}, Poised c t → ∃ r, Denotes (c.timer + step) r ∧ 0 ≤ r ∧ r < gain + 1

theorem Poised.advance {c : Cursor Float} {t : ℚ} (h : Poised c t) {step : Float} {gain : ℕ}
    (hgains : Gains step gain) (hshort : gain < 2 ^ 53) (hindex : c.index + gain < 2 ^ 64) :
    Settles ⟨c.index, c.timer + step⟩ (c.advance step) ∧ (c.advance step).index ≤ c.index + gain ∧
      ∃ t', Poised (c.advance step) t' := by
  obtain ⟨r, hr, hnonneg, hlt⟩ := hgains h
  have hword : r < 2 ^ 53 := by
    have hle : (gain : ℚ) + 1 ≤ 2 ^ 53 := by exact_mod_cast hshort
    linarith
  have hfloor : 0 ≤ ⌊r⌋ := Int.floor_nonneg.mpr hnonneg
  have hgain : ⌊r⌋ < gain + 1 := Int.floor_lt.mpr (by exact_mod_cast hlt)
  obtain ⟨hmoved, hpoised⟩ := Poised.carry (c := ⟨c.index, c.timer + step⟩) hr hnonneg (by linarith)
  refine ⟨settles_carry (c := ⟨c.index, c.timer + step⟩) hr (Int.toNat_of_nonneg hfloor).symm hword
    (show c.index + ⌊r⌋.toNat < 2 ^ 64 by omega), ?_, hpoised⟩
  rw [Cursor.advance, hmoved]
  exact Nat.add_le_add_left (by omega) _

/-! ## Steps -/

section
variable {step : Float} {s : ℚ}

theorem gains_of_le {k : ℕ} (hstep : Denotes step s) (hs : 0 ≤ s) (hle : s ≤ k) (hk : k ≤ 2 ^ 52) :
    Gains step (k + 1) := by
  intro c t h
  have hnonneg := h.nonneg
  have hlt := h.lt_one
  have hlarge : ((k + 1 : ℕ) : ℚ) ≤ 2 ^ 53 := by
    exact_mod_cast (by omega : k + 1 ≤ 2 ^ 53)
  push_cast at hlarge
  have hlimit : |t + s| ≤ limit := by
    rw [abs_of_nonneg (by linarith)]
    exact le_trans (by linarith) (two_pow_le_limit (n := 53) (by norm_num))
  have hroom : Representable ((k + 1 : ℕ) : ℤ) := representable_intCast (by rw [Nat.abs_cast]; omega)
  obtain ⟨r, hr, hfaithful⟩ := h.denotes.add hstep hlimit
  obtain ⟨hlow, hhigh⟩ := hfaithful.between representable_zero hroom
    ⟨by linarith, by push_cast; linarith⟩
  rw [Int.cast_natCast] at hhigh
  exact ⟨r, hr, hlow, by linarith⟩

/-- With a step of less than one sample, the sum of two such numbers is not rounded up to two. -/
theorem gains_of_lt_one (hstep : Denotes step s) (hs : 0 ≤ s) (hlt : s < 1) : Gains step 1 := by
  intro c t h
  have hnonneg := h.nonneg
  have hs' := hstep.representable.le_of_lt_one hlt
  have ht' := h.denotes.representable.le_of_lt_one h.lt_one
  have hlimit : |t + s| ≤ limit := by
    rw [abs_of_nonneg (by linarith)]
    exact le_trans (by linarith) (two_pow_le_limit (n := 1) (by norm_num))
  have hroom : Representable (2 - 1 / 2 ^ 52) := ⟨2 ^ 53 - 1, -52, by norm_num, by decide, by norm_num⟩
  obtain ⟨r, hr, hfaithful⟩ := h.denotes.add hstep hlimit
  obtain ⟨hlow, hhigh⟩ := hfaithful.between representable_zero hroom ⟨by linarith, by linarith⟩
  refine ⟨r, hr, hlow, ?_⟩
  push_cast
  linarith

end

/-- What all steps gain fits in a word. Steps of less than a sample gain no more than there are of them, and
longer ones together a few times the length of the recording. -/
theorem exists_gain {size n : ℕ} (hsize : 0 < size) (hfits : size * 44100 < 2 ^ 64) (hpos : 0 < n)
    (hn : n < 2 ^ 64) :
    ∃ gain, Gains (Scalar.ofNat size / Scalar.ofNat n) gain ∧ gain < 2 ^ 53 ∧ n * gain < 2 ^ 64 := by
  have hshort : size < 2 ^ 52 := by omega
  have hp : Denotes (floatOfWord size) size := denotes_floatOfWord_of_lt (by omega)
  obtain ⟨q, hq, hfaithful⟩ := denotes_floatOfWord hn
  have hone : Representable 1 := by simpa using representable_intCast (n := 1) (by norm_num)
  have hq_ge : 1 ≤ q := hfaithful.ge hone (by exact_mod_cast hpos)
  have hdouble : (n : ℚ) ≤ 2 * q := hfaithful.le_two_mul hpos
  have hquotient : 0 ≤ (size : ℚ) / q := div_nonneg (Nat.cast_nonneg _) (by linarith)
  have hceil : (size : ℚ) / q ≤ ⌈(size : ℚ) / q⌉₊ := Nat.le_ceil _
  have hceil_lt : (⌈(size : ℚ) / q⌉₊ : ℚ) < size / q + 1 := Nat.ceil_lt_add_one hquotient
  have hceil_le : ⌈(size : ℚ) / q⌉₊ ≤ size := Nat.ceil_le.mpr (div_le_self (Nat.cast_nonneg _) hq_ge)
  have hlimit : |(size : ℚ) / q| ≤ limit := by
    rw [abs_of_nonneg hquotient]
    refine hceil.trans (le_trans ?_ (two_pow_le_limit (n := 52) (by norm_num)))
    exact_mod_cast hceil_le.trans hshort.le
  obtain ⟨s, hs, hfaithful'⟩ := Denotes.div hp hq (by linarith) hlimit
  generalize ⌈(size : ℚ) / q⌉₊ = k at *
  have hroom : Representable (k : ℤ) := representable_intCast (by rw [Nat.abs_cast]; omega)
  obtain ⟨hs_nonneg, hs_le⟩ := hfaithful'.between representable_zero hroom
    ⟨hquotient, by rwa [Int.cast_natCast]⟩
  rw [Int.cast_natCast] at hs_le
  rcases lt_or_ge s 1 with hlt | hge
  · exact ⟨1, gains_of_lt_one hs hs_nonneg hlt, by norm_num, by omega⟩
  · refine ⟨k + 1, gains_of_le hs hs_nonneg hs_le (by omega), by omega, ?_⟩
    have hhalf : Representable (1 / 2) := by simpa using representable_half (n := 1) (by norm_num)
    have hlong : 1 / 2 < (size : ℚ) / q := by
      by_contra hsmall
      linarith [hfaithful'.le hhalf (not_lt.mp hsmall)]
    have hq_lt : q < 2 * size := by
      rw [lt_div_iff₀ (by linarith)] at hlong
      linarith
    have hproduct : (n : ℚ) * (k + 1) < 10 * size := by
      calc (n : ℚ) * (k + 1) ≤ 2 * q * (k + 1) := by gcongr
        _ < 2 * q * (size / q + 2) := by
          refine mul_lt_mul_of_pos_left (by linarith) (by linarith)
        _ = 2 * size + 4 * q := by
          field_simp
          ring
        _ < 10 * size := by linarith
    have hnat : n * (k + 1) < 10 * size := by exact_mod_cast hproduct
    omega

end Resample

namespace Wav

open Resample (Settles Poised Gains)

/-! ## The samples that are read -/

section
variable {samples : Array Int16} {step : Float} {n : ℕ} {c : Resample.Cursor Float}

/-- The loop over the samples of the output, from a cursor on: one sample is read where the cursor is, or at
the end of the recording, and the timer moves on. `sources` is where it has read, and `out` what. -/
inductive Reads (samples : Array Int16) (step : Float) :
    ℕ → Resample.Cursor Float → List ℕ → List Int16 → Prop where
  | done {c : Resample.Cursor Float} : Reads samples step 0 c [] []
  | read {n : ℕ} {c d : Resample.Cursor Float} {s : Int16} {sources : List ℕ} {out : List Int16}
      (hread : samples[min c.index (samples.size - 1)]? = some s)
      (hsettles : Settles ⟨c.index, c.timer + step⟩ d) (hrest : Reads samples step n d sources out) :
      Reads samples step (n + 1) c (min c.index (samples.size - 1) :: sources) (s :: out)

theorem Reads.unique {sources sources' : List ℕ} {out out' : List Int16} (h : Reads samples step n c sources out)
    (h' : Reads samples step n c sources' out') : sources' = sources ∧ out' = out := by
  induction h generalizing sources' out' with
  | done =>
    cases h' with
    | done => exact ⟨rfl, rfl⟩
  | read hread hsettles _ ih =>
    cases h' with
    | read hread' hsettles' hrest' =>
      cases hread.symm.trans hread'
      cases hsettles.unique hsettles'
      obtain ⟨rfl, rfl⟩ := ih hrest'
      exact ⟨rfl, rfl⟩

theorem Reads.out_eq {sources : List ℕ} {out : List Int16} (h : Reads samples step n c sources out) :
    out.map some = sources.map (samples[·]?) := by
  induction h with
  | done => rfl
  | read hread _ _ ih => rw [List.map_cons, List.map_cons, ih, hread]

theorem Reads.first {sources : List ℕ} {out : List Int16} (h : Reads samples step n c sources out)
    (hn : 0 < n) : sources.head? = some (min c.index (samples.size - 1)) ∧
      out.head? = samples[min c.index (samples.size - 1)]? := by
  cases h with
  | done => exact absurd hn (Nat.lt_irrefl 0)
  | read hread => exact ⟨rfl, hread.symm⟩

theorem Reads.bounds {sources : List ℕ} {out : List Int16} (h : Reads samples step n c sources out)
    (hsize : 0 < samples.size) : ∀ i ∈ sources, min c.index (samples.size - 1) ≤ i ∧ i < samples.size := by
  induction h with
  | done => exact fun i hi => absurd hi List.not_mem_nil
  | read _ hsettles _ ih =>
    intro i hi
    rcases List.mem_cons.mp hi with rfl | hlater
    · exact ⟨le_rfl, by omega⟩
    · obtain ⟨hlow, hhigh⟩ := ih i hlater
      exact ⟨le_trans (min_le_min_right _ hsettles.index_le) hlow, hhigh⟩

theorem Reads.pairwise {sources : List ℕ} {out : List Int16} (h : Reads samples step n c sources out)
    (hsize : 0 < samples.size) : sources.Pairwise (· ≤ ·) := by
  induction h with
  | done => exact .nil
  | read _ hsettles hrest ih =>
    refine .cons (fun i hi => ?_) ih
    exact le_trans (min_le_min_right _ hsettles.index_le) (hrest.bounds hsize i hi).1

/-- Where the index has room for all steps, the loop ends, and has picked what `pick` does. -/
theorem exists_reads (hsize : 0 < samples.size) {gain : ℕ} (hgains : Gains step gain)
    (hshort : gain < 2 ^ 53) (hindex : c.index + n * gain < 2 ^ 64) {t : ℚ} (h : Poised c t)
    (done : Array Int16) :
    ∃ sources out, Reads samples step n c sources out ∧
      (pick samples step n c done).toList = done.toList ++ out := by
  induction n generalizing c t done with
  | zero => exact ⟨[], [], .done, (List.append_nil _).symm⟩
  | succ n ih =>
    rw [Nat.succ_mul] at hindex
    obtain ⟨hsettles, hmoved, t', hnext⟩ := h.advance hgains hshort (by omega)
    obtain ⟨s, hs⟩ : ∃ s, s = samples.getD (min c.index (samples.size - 1)) 0 := ⟨_, rfl⟩
    have hinside : min c.index (samples.size - 1) < samples.size := by omega
    have hread : samples[min c.index (samples.size - 1)]? = some s := by
      rw [hs, Array.getD, dif_pos hinside]
      exact Array.getElem?_eq_getElem hinside
    obtain ⟨sources, out, hrest, hpick⟩ := ih (by omega) hnext (done.push s)
    refine ⟨_, _, .read hread hsettles hrest, ?_⟩
    rw [pick, ← hs, hpick, Array.toList_push, List.append_assoc, List.singleton_append]

end

/-! ## Recordings -/

/-- The loop over all of the output for a recording at a rate. -/
def Stretches (samples : Array Int16) (rate : ℕ) (sources : List ℕ) (out : List Int16) : Prop :=
  Reads samples (Scalar.ofNat samples.size / Scalar.ofNat (micLength samples.size rate))
    (micLength samples.size rate) ⟨0, 0⟩ sources out

theorem toMicRate_eq {samples : Array Int16} (hsize : 0 < samples.size) (rate : ℕ) :
    toMicRate Float samples rate =
      pick samples (Scalar.ofNat samples.size / Scalar.ofNat (micLength samples.size rate) : Float)
        (micLength samples.size rate) ⟨0, 0⟩ #[] := by
  have hsome : ¬samples.isEmpty = true := by
    rw [Array.isEmpty_iff_size_eq_zero]
    omega
  exact if_neg hsome

theorem stretches_toMicRate {samples : Array Int16} (hsize : 0 < samples.size) (rate : ℕ)
    (hfits : samples.size * 44100 < 2 ^ 64) :
    ∃ sources, Stretches samples rate sources (toMicRate Float samples rate).toList := by
  have hlength : 735 ≤ micLength samples.size rate := le_max_right _ _
  have hword : micLength samples.size rate < 2 ^ 64 :=
    max_lt ((Nat.div_le_self _ _).trans_lt hfits) (by decide)
  obtain ⟨gain, hgains, hshort, hindex⟩ := Resample.exists_gain hsize hfits (by omega) hword
  obtain ⟨sources, out, hreads, hpick⟩ :=
    exists_reads (n := micLength samples.size rate) hsize hgains hshort ((Nat.zero_add _).trans_lt hindex)
      Resample.poised_zero #[]
  refine ⟨sources, ?_⟩
  rw [toMicRate_eq hsize, hpick, List.nil_append]
  exact hreads

/-! ## Recordings in files -/

theorem ok_of_bind {α β : Type} {x : Reader α} {f : α → Reader β} {c : Cursor} {r : β × Cursor}
    (h : (x >>= f) c = .ok r) : ∃ a d, x c = .ok (a, d) ∧ f a d = .ok r := by
  change (x c >>= fun p => f p.1 p.2) = .ok r at h
  cases hx : x c with
  | error e =>
    rw [hx] at h
    cases h
  | ok p =>
    rw [hx] at h
    exact ⟨p.1, p.2, rfl, h⟩

theorem littleEndian_lt (bytes : List UInt8) :
    bytes.foldr (fun b n => b.toNat + 256 * n) 0 < 256 ^ bytes.length := by
  induction bytes with
  | nil => exact Nat.one_pos
  | cons b bytes ih =>
    have hb : b.toNat < 256 := b.toNat_lt
    rw [List.foldr_cons, List.length_cons, pow_succ]
    omega

theorem lt_of_word {n v : ℕ} {c d : Cursor} (h : word n c = .ok (v, d)) : v < 256 ^ n := by
  obtain ⟨bytes, e, htake, hvalue⟩ := ok_of_bind h
  cases hvalue
  unfold take at htake
  split at htake
  · cases htake
  · next hroom =>
    cases htake
    have hlength : (c.data.extract c.position (c.position + n)).toList.length = n := by
      rw [Array.length_toList, Array.size_extract]
      omega
    have hlt := littleEndian_lt (c.data.extract c.position (c.position + n)).toList
    rwa [hlength] at hlt

theorem length_lt_of_chunks {fuel : ℕ} {known : Option Format} {c d : Cursor} {f : Format} {length : ℕ}
    (h : chunks fuel known c = .ok ((f, length), d)) : length < 2 ^ 32 := by
  induction fuel generalizing known c with
  | zero => cases h
  | succ fuel ih =>
    obtain ⟨kind, c, -, h⟩ := ok_of_bind h
    obtain ⟨size, c, hsize, h⟩ := ok_of_bind h
    split at h
    · obtain ⟨f, c, -, h⟩ := ok_of_bind h
      exact ih h
    split at h
    · dsimp only at h
      split at h
      · exact ih h
      · cases h
    split at h
    · split at h
      · cases h
        exact lt_of_word hsize
      · cases h
    · obtain ⟨-, c, -, h⟩ := ok_of_bind h
      exact ih h

theorem length_lt_of_header {fuel : ℕ} {c d : Cursor} {f : Format} {length : ℕ}
    (h : header fuel c = .ok ((f, length), d)) : length < 2 ^ 32 := by
  obtain ⟨riff, c, -, h⟩ := ok_of_bind h
  obtain ⟨-, c, -, h⟩ := ok_of_bind h
  obtain ⟨size, c, -, h⟩ := ok_of_bind h
  obtain ⟨wave, c, -, h⟩ := ok_of_bind h
  obtain ⟨-, c, -, h⟩ := ok_of_bind h
  obtain ⟨⟨f, length⟩, c, hchunks, h⟩ := ok_of_bind h
  obtain ⟨-, c, -, h⟩ := ok_of_bind h
  obtain ⟨-, c, -, h⟩ := ok_of_bind h
  cases h
  exact length_lt_of_chunks hchunks

theorem size_of_firstChannel {f : Format} {data : Bytes} {n position : ℕ} {done samples : Array Int16}
    (h : firstChannel f data n position done = .ok samples) : samples.size = done.size + n := by
  induction n generalizing position done with
  | zero =>
    cases h
    rfl
  | succ n ih =>
    rw [firstChannel] at h
    cases hkind : sample f 0 with
    | error e =>
      rw [hkind] at h
      cases h
    | ok _ =>
      rw [hkind] at h
      change (if _ then _ else _) = _ at h
      split at h
      · cases h
      cases hsample : sample f (littleEndian (data.extract position (position + f.width))) with
      | error e =>
        rw [hsample] at h
        cases h
      | ok s =>
        rw [hsample] at h
        rw [ih h, Array.size_push]
        omega

/-- The recording that a file holds: the first channel of its samples, and their rate. -/
def Recorded (data : Bytes) (samples : Array Int16) (rate : ℕ) : Prop :=
  ∃ f length c, (header (data.size + 1)).run ⟨data, 0⟩ = .ok ((f, length), c) ∧
    firstChannel f data (length / f.width / f.channels) c.position #[] = .ok samples ∧ rate = f.rate

theorem Recorded.fits {data : Bytes} {samples : Array Int16} {rate : ℕ} (h : Recorded data samples rate) :
    samples.size * 44100 < 2 ^ 64 := by
  obtain ⟨f, length, c, hheader, hsamples, -⟩ := h
  have hlength := length_lt_of_header hheader
  have hsize : samples.size = 0 + length / f.width / f.channels := size_of_firstChannel hsamples
  have hle : length / f.width / f.channels ≤ length := (Nat.div_le_self _ _).trans (Nat.div_le_self _ _)
  omega

theorem recorded_of_decode {data : Bytes} {out : Array Int16} (h : decode data = .ok out) :
    ∃ samples rate, Recorded data samples rate ∧ out = toMicRate Float samples rate := by
  rw [decode] at h
  cases hheader : (header (data.size + 1)).run ⟨data, 0⟩ with
  | error e =>
    rw [hheader] at h
    cases h
  | ok read =>
    obtain ⟨⟨f, length⟩, c⟩ := read
    rw [hheader] at h
    change (firstChannel f data (length / f.width / f.channels) c.position #[] >>= fun samples =>
      pure (toMicRate Float samples f.rate)) = _ at h
    cases hsamples : firstChannel f data (length / f.width / f.channels) c.position #[] with
    | error e =>
      rw [hsamples] at h
      cases h
    | ok samples =>
      rw [hsamples] at h
      cases h
      exact ⟨samples, f.rate, ⟨f, length, c, hheader, hsamples, rfl⟩, rfl⟩

/-- A recording that is not empty comes to the length of its new rate, and to a frame at least, whatever the
rate it was made at: both loops end, and in one way only, with a position that stays within a word, and what
they have read are samples of the recording, from the first on, some of them several times and some not at
all, and never one in front of an earlier one. Its length has to fit in a word where it is multiplied, and
that of every recording that is read from a file does. -/
theorem recording_repeats_and_skips :
    (∀ samples : Array Int16, samples ≠ #[] → samples.size * 44100 < 2 ^ 64 → ∀ rate : ℕ,
      ∃ sources : List ℕ,
        (∀ sources' out, Stretches samples rate sources' out ↔
          sources' = sources ∧ out = (toMicRate Float samples rate).toList) ∧
        (toMicRate Float samples rate).size = max 735 (samples.size * 44100 / max rate 1) ∧
        (toMicRate Float samples rate)[0]? = samples[0]? ∧
        (toMicRate Float samples rate).toList.map some = sources.map (samples[·]?) ∧
        sources.head? = some 0 ∧ sources.Pairwise (· ≤ ·) ∧ ∀ i ∈ sources, i < samples.size) ∧
    ∀ (data : Bytes) (out : Array Int16), decode data = .ok out →
      ∃ samples rate, Recorded data samples rate ∧ samples.size * 44100 < 2 ^ 64 ∧
        out = toMicRate Float samples rate := by
  constructor
  · intro samples hsamples hfits rate
    have hsize : 0 < samples.size := Array.size_pos_iff.mpr hsamples
    obtain ⟨sources, hreads⟩ := stretches_toMicRate hsize rate hfits
    have hlength : (toMicRate Float samples rate).size = max 735 (samples.size * 44100 / max rate 1) :=
      (size_toMicRate (by simpa using hsamples) rate).trans (max_comm _ _)
    obtain ⟨hhead, hfirst⟩ := hreads.first (lt_max_of_lt_right (by decide))
    rw [Nat.zero_min] at hhead hfirst
    refine ⟨sources, fun sources' out => ⟨fun h => hreads.unique h, ?_⟩, hlength, ?_, hreads.out_eq, hhead,
      hreads.pairwise hsize, fun i hi => (hreads.bounds hsize i hi).2⟩
    · rintro ⟨rfl, rfl⟩
      exact hreads
    · rw [← Array.getElem?_toList, ← List.head?_eq_getElem?, hfirst]
  · intro data out hdecode
    obtain ⟨samples, rate, hrecorded, hout⟩ := recorded_of_decode hdecode
    exact ⟨samples, rate, hrecorded, hrecorded.fits, hout⟩

def ramp : Array Int16 := Array.ofFn (n := 100000) fun i => Int16.ofNat i.1

/-- At the largest rate one frame is made of it. -/
theorem recording_repeats_and_skips_of_ramp :
    ramp ≠ #[] ∧ ramp.size * 44100 < 2 ^ 64 ∧ ∃ sources,
      Stretches ramp 4294967295 sources (toMicRate Float ramp 4294967295).toList ∧
      (toMicRate Float ramp 4294967295).size = 735 ∧ (toMicRate Float ramp 4294967295)[0]? = ramp[0]? ∧
      sources.Pairwise (· ≤ ·) ∧ ∀ i ∈ sources, i < 100000 := by
  have hsize : ramp.size = 100000 := Array.size_ofFn
  have hramp : ramp ≠ #[] := Array.size_pos_iff.mp (by omega)
  have hfits : ramp.size * 44100 < 2 ^ 64 := by
    rw [hsize]
    norm_num
  obtain ⟨sources, hruns, hlength, hfirst, -, -, hforward, hinside⟩ :=
    recording_repeats_and_skips.1 ramp hramp hfits 4294967295
  rw [hsize] at hlength hinside
  exact ⟨hramp, hfits, sources, (hruns _ _).mpr ⟨rfl, rfl⟩, hlength, hfirst, hforward, hinside⟩

end Wav

end Handheld
