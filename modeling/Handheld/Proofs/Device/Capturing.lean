import Handheld.Device.Capture
import Mathlib.Algebra.Order.Floor.Semiring
import Mathlib.Data.Rat.Floor
import Mathlib.Tactic.Linarith
import Mathlib.Tactic.NormNum
import Mathlib.Tactic.Positivity
import Mathlib.Tactic.Ring

/-!
# Capture is resampled as one stream

Over exact numbers it makes no difference where a capture stream is cut into callbacks
(`stream_resampled_as_one`). The position that is carried over is where the next read is due, seen from
the end of what has come by, so that read `k` is always due `k` steps into the stream (`Follows`). One
callback keeps this (`Follows.process`), whether it is read from or passed over as a whole.
-/

namespace Handheld

namespace CaptureResampler

def processAll? {α : Type} [Scalar α] (r : CaptureResampler α) :
    List (Array Int16) → Option (List Int16 × CaptureResampler α)
  | [] => some ([], r)
  | input :: rest => do
    let (out, r) ← r.process? input
    let (more, r) ← r.processAll? rest
    return (out.toList ++ more, r)

/-- Sample `k` of the output is the one `k` steps into the stream, the last one passed. -/
def Picks (step : ℚ) (stream out : List Int16) : Prop :=
  ∀ k < out.length, ⌊k * step⌋₊ < stream.length ∧ out[k]? = stream[⌊k * step⌋₊]?

variable {step : ℚ} {stream out : List Int16}

theorem Picks.append (h : Picks step stream out) (more : List Int16) :
    Picks step (stream ++ more) out := by
  intro k hk
  obtain ⟨hinside, hsample⟩ := h k hk
  rw [List.length_append, List.getElem?_append_left hinside]
  exact ⟨by omega, hsample⟩

theorem Picks.snoc (h : Picks step stream out) {s : Int16}
    (hs : stream[⌊out.length * step⌋₊]? = some s) : Picks step stream (out ++ [s]) := by
  intro k hk
  rw [List.length_append, List.length_singleton] at hk
  rcases Nat.lt_succ_iff_lt_or_eq.mp hk with hbefore | rfl
  · rw [List.getElem?_append_left hbefore]
    exact h k hbefore
  · rw [List.getElem?_concat_length, hs]
    exact ⟨(List.getElem?_eq_some_iff.mp hs).1, rfl⟩

/-- Of a stream with so much output, the resampler is due to read on where it stands. -/
structure Follows (step : ℚ) (stream out : List Int16) (r : CaptureResampler ℚ) : Prop where
  step_eq : r.step = step
  nonneg : 0 ≤ r.position
  place : r.position + stream.length = out.length * step
  picks : Picks step stream out

theorem Follows.lt_length_iff {r : CaptureResampler ℚ} (h : Follows step stream out r)
    (hstep : 0 ≤ step) (k : ℕ) : k < out.length ↔ k * step < stream.length := by
  constructor
  · intro hk
    exact (Nat.floor_lt (mul_nonneg k.cast_nonneg hstep)).mp (h.picks k hk).1
  · intro hk
    by_contra hbehind
    have hplace := h.place
    have hsteps : (out.length : ℚ) * step ≤ k * step :=
      mul_le_mul_of_nonneg_right (Nat.cast_le.mpr (not_lt.mp hbehind)) hstep
    linarith [h.nonneg]

/-- The stream decides what is read of it. -/
theorem Follows.unique {r r' : CaptureResampler ℚ} {out' : List Int16} (h : Follows step stream out r)
    (h' : Follows step stream out' r') (hstep : 0 ≤ step) : out' = out ∧ r' = r := by
  have hlength : out'.length = out.length := by
    refine Nat.le_antisymm (not_lt.mp fun hmore => ?_) (not_lt.mp fun hmore => ?_)
    · exact absurd ((h.lt_length_iff hstep _).mpr ((h'.lt_length_iff hstep _).mp hmore)) (Nat.lt_irrefl _)
    · exact absurd ((h'.lt_length_iff hstep _).mpr ((h.lt_length_iff hstep _).mp hmore)) (Nat.lt_irrefl _)
  have hposition : r'.position = r.position := by
    have hplace := h.place
    have hplace' := h'.place
    rw [hlength] at hplace'
    linarith
  constructor
  · refine List.ext_getElem? fun k => ?_
    rcases Nat.lt_or_ge k out.length with hk | hk
    · rw [(h.picks k hk).2, (h'.picks k (by omega)).2]
    · rw [List.getElem?_eq_none hk, List.getElem?_eq_none (by omega)]
  · obtain ⟨step', position'⟩ := r'
    obtain ⟨step'', position⟩ := r
    rw [show step' = step'' from h'.step_eq.trans h.step_eq.symm, show position' = position from hposition]

/-! ## A callback -/

theorem getElem?_of_place {earlier : List Int16} {input : Array Int16} {position : ℚ} {reads : ℕ}
    (hnonneg : 0 ≤ position) (hplace : position + earlier.length = reads * step) :
    input[Scalar.toWord position]? = (earlier ++ input.toList)[⌊reads * step⌋₊]? := by
  have hfloor : ⌊reads * step⌋₊ = earlier.length + ⌊position⌋₊ := by
    rw [← hplace, Nat.floor_add_natCast hnonneg, Nat.add_comm]
  rw [hfloor, List.getElem?_append_right (Nat.le_add_right _ _), Nat.add_sub_cancel_left,
    Array.getElem?_toList]
  rfl

/-- Reading on comes to the end of the input and never leaves it. The induction is on the reads that are
allowed; what is left of them is enough to get there. -/
theorem readOn?_spec (hstep : 0 < step) {earlier : List Int16} {input : Array Int16} {fuel : ℕ}
    {position : ℚ} {done : Array Int16} (hnonneg : 0 ≤ position)
    (hplace : position + earlier.length = (out ++ done.toList).length * step)
    (hpicks : Picks step (earlier ++ input.toList) (out ++ done.toList))
    (hfuel : input.size ≤ position + fuel * step) :
    ∃ done' position', readOn? input step fuel position done = some (done', position') ∧
      input.size ≤ position' ∧
      position' + earlier.length = (out ++ done'.toList).length * step ∧
      Picks step (earlier ++ input.toList) (out ++ done'.toList) := by
  induction fuel generalizing position done with
  | zero =>
    have hbehind : input.size ≤ position := by simpa using hfuel
    have hstop : Scalar.less position (Scalar.ofNat input.size) = false :=
      decide_eq_false (not_lt.mpr hbehind)
    refine ⟨done, position, ?_, hbehind, hplace, hpicks⟩
    rw [readOn?, hstop]
    rfl
  | succ fuel ih =>
    by_cases hinside : position < input.size
    · have hgo : Scalar.less position (Scalar.ofNat input.size) = true := decide_eq_true hinside
      have hindex : Scalar.toWord position < input.size := (Nat.floor_lt hnonneg).mpr hinside
      have hsample : input[Scalar.toWord position]? = some input[Scalar.toWord position] :=
        Array.getElem?_eq_getElem hindex
      have hpushed : out ++ (done.push input[Scalar.toWord position]).toList =
          out ++ done.toList ++ [input[Scalar.toWord position]] := by
        rw [Array.toList_push, List.append_assoc]
      have hnext : readOn? input step (fuel + 1) position done =
          readOn? input step fuel (position + step) (done.push input[Scalar.toWord position]) := by
        rw [readOn?, hgo, if_pos rfl, hsample]
        rfl
      rw [hnext]
      apply ih
      · positivity
      · rw [hpushed, List.length_append, List.length_singleton]
        push_cast
        linarith
      · rw [hpushed]
        exact hpicks.snoc ((getElem?_of_place hnonneg hplace).symm.trans hsample)
      · push_cast at hfuel
        linarith
    · have hstop : Scalar.less position (Scalar.ofNat input.size) = false := decide_eq_false hinside
      refine ⟨done, position, ?_, not_lt.mp hinside, hplace, hpicks⟩
      rw [readOn?, hstop]
      rfl

theorem le_step (rate : ℕ) : (1 : ℚ) / micRate ≤ (new rate : CaptureResampler ℚ).step := by
  show (1 : ℚ) / (micRate : ℕ) ≤ ((max rate 1 : ℕ) : ℚ) / (micRate : ℕ)
  have hrate : (1 : ℚ) ≤ (max rate 1 : ℕ) := by exact_mod_cast Nat.le_max_right rate 1
  exact div_le_div_of_nonneg_right hrate (Nat.cast_nonneg _)

theorem size_le_maxReads (hstep : (1 : ℚ) / micRate ≤ step) (samples : ℕ) :
    samples ≤ (maxReads samples : ℚ) * step := by
  have hmic : (micRate : ℚ) * (1 / micRate) = 1 := by
    rw [micRate]
    norm_num
  calc (samples : ℚ) ≤ samples + 1 := by linarith
    _ = (maxReads samples : ℚ) * (1 / micRate) := by
      rw [maxReads, Nat.cast_mul, mul_right_comm, hmic, one_mul, Nat.cast_succ]
    _ ≤ (maxReads samples : ℚ) * step := mul_le_mul_of_nonneg_left hstep (Nat.cast_nonneg _)

theorem Follows.process {r : CaptureResampler ℚ} (h : Follows step stream out r)
    (hstep : (1 : ℚ) / micRate ≤ step) (input : Array Int16) :
    ∃ new r', r.process? input = some (new, r') ∧
      Follows step (stream ++ input.toList) (out ++ new.toList) r' := by
  have hpos : 0 < step := lt_of_lt_of_le (by rw [micRate]; norm_num) hstep
  have henough : (input.size : ℚ) ≤ r.position + maxReads input.size * step := by
    linarith [h.nonneg, size_le_maxReads hstep input.size]
  have hstart : r.position + stream.length = (out ++ (#[] : Array Int16).toList).length * step := by
    simpa using h.place
  obtain ⟨new, position, hread, hend, hplace, hpicks⟩ :=
    readOn?_spec hpos h.nonneg hstart (by simpa using h.picks.append input.toList) henough
  refine ⟨new, { r with position := position - input.size }, ?_, ?_⟩
  · rw [process?, h.step_eq, hread]
    rfl
  · constructor
    case step_eq => exact h.step_eq
    case nonneg => exact sub_nonneg.mpr hend
    case place =>
      have hlength : input.toList.length = input.size := Array.length_toList
      rw [List.length_append, hlength, Nat.cast_add]
      linarith
    case picks => exact hpicks

theorem Follows.processAll {r : CaptureResampler ℚ} (h : Follows step stream out r)
    (hstep : (1 : ℚ) / micRate ≤ step) (callbacks : List (Array Int16)) :
    ∃ new r', r.processAll? callbacks = some (new, r') ∧
      Follows step (stream ++ callbacks.flatMap Array.toList) (out ++ new) r' := by
  induction callbacks generalizing r stream out with
  | nil => exact ⟨[], r, rfl, by simpa using h⟩
  | cons input rest ih =>
    obtain ⟨new, r', hprocess, hnext⟩ := h.process hstep input
    obtain ⟨more, r'', hrest, hall⟩ := ih hnext
    refine ⟨new.toList ++ more, r'', ?_, ?_⟩
    · rw [processAll?, hprocess]
      show (r'.processAll? rest >>= fun (more, r) => some (new.toList ++ more, r)) = _
      rw [hrest]
      rfl
    · rwa [List.append_assoc, List.append_assoc] at hall

theorem follows_new (rate : ℕ) :
    Follows (new rate : CaptureResampler ℚ).step [] [] (new rate) where
  step_eq := rfl
  nonneg := le_rfl
  place := by
    show ((0 : ℕ) : ℚ) + ((0 : ℕ) : ℚ) = ((0 : ℕ) : ℚ) * _
    simp
  picks := by
    intro k hk
    cases hk

/-! ## A stream -/

/-- **A capture stream is resampled as one**, whatever its rate and wherever it is cut into callbacks, some
of which may be empty. No read leaves its callback. The output has a sample for each step that begins
within the stream, and sample `k` is the last one that `k` steps have passed. The position that is carried
over is never before the next callback. -/
theorem stream_resampled_as_one (rate : ℕ) (callbacks : List (Array Int16)) :
    ∃ out r, (new rate : CaptureResampler ℚ).processAll? callbacks = some (out, r) ∧
      let stream := callbacks.flatMap Array.toList
      let step : ℚ := (max rate 1 : ℕ) / (44100 : ℕ)
      0 ≤ r.position ∧
      (∀ k : ℕ, k < out.length ↔ k * step < stream.length) ∧
      (∀ k < out.length, ⌊k * step⌋₊ < stream.length ∧ out[k]? = stream[⌊k * step⌋₊]?) ∧
      ∀ others : List (Array Int16), others.flatMap Array.toList = stream →
        (new rate : CaptureResampler ℚ).processAll? others = some (out, r) := by
  have hstep := le_step rate
  have hnonneg : 0 ≤ (new rate : CaptureResampler ℚ).step := le_trans (by positivity) hstep
  obtain ⟨out, r, hprocess, hfollows⟩ := (follows_new rate).processAll hstep callbacks
  refine ⟨out, r, hprocess, hfollows.nonneg, hfollows.lt_length_iff hnonneg, hfollows.picks, ?_⟩
  intro others hsame
  obtain ⟨out', r', hprocess', hfollows'⟩ := (follows_new rate).processAll hstep others
  rw [hsame] at hfollows'
  obtain ⟨rfl, rfl⟩ := hfollows.unique hfollows' hnonneg
  exact hprocess'

end CaptureResampler

end Handheld
