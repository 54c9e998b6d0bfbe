import Handheld.Mic.Delivery
import Mathlib.Data.List.Forall2
import Mathlib.Data.Stream.Init

/-!
# A recording goes round and round

While the microphone hotkey stays held, the frames of a recording follow one another without a gap and
without a repetition, and behind its last sample comes its first one again: put together, they are the
beginning of its endless repetition, a `Stream'`. Where the hotkey is let go, there is no signal, and
the recording starts over (`held_calls_hear_repetition`).

A position in the recording stands for all places of the endless repetition that are whole rounds apart
(`drop_cycle_mod`), so that setting it back loses nothing.
-/

namespace Handheld

/-! ## Endless repetition -/

theorem drop_cycle_length {α : Type} (l : List α) (h : l ≠ []) :
    (Stream'.cycle l h).drop l.length = Stream'.cycle l h := by
  calc (Stream'.cycle l h).drop l.length
      = (l ++ₛ Stream'.cycle l h).drop l.length := by rw [← Stream'.cycle_eq]
    _ = Stream'.cycle l h := Stream'.drop_append_stream l _

theorem drop_cycle_mod {α : Type} (l : List α) (h : l ≠ []) (n : Nat) :
    (Stream'.cycle l h).drop (n % l.length) = (Stream'.cycle l h).drop n := by
  have hrounds (k : Nat) : (Stream'.cycle l h).drop (l.length * k) = Stream'.cycle l h := by
    induction k with
    | zero => rfl
    | succ k ih => rw [Nat.mul_succ, ← Stream'.drop_drop, ih, drop_cycle_length]
  calc (Stream'.cycle l h).drop (n % l.length)
      = ((Stream'.cycle l h).drop (l.length * (n / l.length))).drop (n % l.length) := by rw [hrounds]
    _ = (Stream'.cycle l h).drop n := by rw [Stream'.drop_drop, Nat.div_add_mod]

theorem get_cycle {α : Type} (l : List α) (h : l ≠ []) (n : Nat) :
    l[n % l.length]? = some ((Stream'.cycle l h).get n) := by
  have hinside : n % l.length < l.length := Nat.mod_lt n (List.length_pos_iff.mpr h)
  have hround : (Stream'.cycle l h).get (n % l.length) = (Stream'.cycle l h).get n := by
    rw [← Stream'.head_drop, drop_cycle_mod, Stream'.head_drop]
  rw [← hround, Stream'.cycle_eq, Stream'.get_append_left _ _ _ hinside, List.getElem?_eq_getElem hinside]

/-! ## Calls for frames -/

/-- A call for a frame: whether the hotkey is held, and the storage to be filled. -/
structure FrameCall where
  held : Bool
  frame : MicFrame

/-- What comes back: whether there is a signal, and the storage. -/
structure FrameAnswer where
  live : Bool
  frame : MicFrame

/-- A call with the hotkey released gets no signal, and its storage back as it was. -/
def LeftAlone (call : FrameCall) (answer : FrameAnswer) : Prop :=
  call.held = false → answer = ⟨false, call.frame⟩

def samplesOf (answers : List FrameAnswer) : List Int16 := answers.flatMap (·.frame.items)

namespace MicInput

/-- Answer one call after the other; `none` where one of them leaves its storage or the recording. -/
def fillAll? (m : MicInput) : List FrameCall → Option (List FrameAnswer × MicInput)
  | [] => some ([], m)
  | call :: calls => do
    let (live, frame, m) ← m.fillFrame? call.held call.frame
    let (answers, m) ← m.fillAll? calls
    return (⟨live, frame⟩ :: answers, m)

/-- A microphone plays a recording, and is somewhere in it. -/
structure Plays (w : Array Int16) (m : MicInput) : Prop where
  mode : m.mode = .wav
  wav : m.wav = w
  inside : m.position < w.size

variable {m : MicInput} {w : Array Int16}

theorem Plays.ne_nil (h : m.Plays w) : w.toList ≠ [] := by
  have hinside := h.inside
  intro hnil
  simp [Array.toList_eq_nil_iff.mp hnil] at hinside

/-! ## One call -/

theorem loopFrame_eq (h : w.toList ≠ []) (position : Nat) :
    loopFrame w position = ((Stream'.cycle w.toList h).drop position).take micFrameLength := by
  have hplayed (n : Nat) : (List.range n).map (fun i => w.getD ((position + i) % w.size) 0) =
      ((Stream'.cycle w.toList h).drop position).take n := by
    induction n with
    | zero => rfl
    | succ n ih =>
      have hnext : w[(position + n) % w.size]? = some ((Stream'.cycle w.toList h).get (position + n)) := by
        simpa using get_cycle w.toList h (position + n)
      rw [List.range_succ, List.map_append, ih, Stream'.take_succ', Stream'.get_drop]
      simp [Array.getD_eq_getD_getElem?, hnext]
  exact hplayed micFrameLength

theorem Plays.held (h : m.Plays w) (frame : MicFrame) :
    ∃ filled, m.fillFrame? true frame =
        some (true, filled, { m with position := (m.position + micFrameLength) % w.size }) ∧
      filled.items = ((Stream'.cycle w.toList h.ne_nil).drop m.position).take micFrameLength := by
  have hsome := h.ne_nil
  obtain ⟨hmode, rfl, hinside⟩ := h
  obtain ⟨filled, hfill, hitems⟩ := fillFrame?_eq (.inr hinside) true frame
  rw [nextFrame_wav hmode hinside] at hfill hitems
  rw [Option.getD_some, loopFrame_eq hsome] at hitems
  exact ⟨filled, hfill, hitems⟩

theorem Plays.released (h : m.Plays w) (frame : MicFrame) :
    m.fillFrame? false frame = some (false, frame, { m with position := 0 }) := by
  apply fillFrame?_silent
  rw [playing, h.mode]
  rfl

theorem Plays.moved (h : m.Plays w) {position : Nat} (hinside : position < w.size) :
    Plays w { m with position } :=
  ⟨h.mode, h.wav, hinside⟩

/-! ## Many calls -/

theorem fillAll?_cons {held live : Bool} {frame filled : MicFrame} {n last : MicInput}
    {calls : List FrameCall} {answers : List FrameAnswer}
    (h : m.fillFrame? held frame = some (live, filled, n))
    (hrest : n.fillAll? calls = some (answers, last)) :
    m.fillAll? (⟨held, frame⟩ :: calls) = some (⟨live, filled⟩ :: answers, last) := by
  simp [fillAll?, h, hrest]

theorem fillAll?_append {calls more : List FrameCall} {answers further : List FrameAnswer}
    {n last : MicInput} (h : m.fillAll? calls = some (answers, n))
    (hmore : n.fillAll? more = some (further, last)) :
    m.fillAll? (calls ++ more) = some (answers ++ further, last) := by
  induction calls generalizing m answers with
  | nil =>
    cases h
    exact hmore
  | cons call calls ih =>
    simp only [fillAll?, Option.bind_eq_bind, Option.bind_eq_some_iff, Option.pure_def,
      Option.some.injEq, Prod.mk.injEq, Prod.exists] at h
    obtain ⟨live, frame, next, hfill, rest, final, hrest, rfl, rfl⟩ := h
    exact fillAll?_cons hfill (ih hrest)

/-- However often frames are wanted, none is refused, and the microphone goes on playing. -/
theorem Plays.goes_on (h : m.Plays w) (calls : List FrameCall) :
    ∃ answers last, m.fillAll? calls = some (answers, last) ∧ last.Plays w ∧
      List.Forall₂ LeftAlone calls answers := by
  have hsize : 0 < w.size := Nat.zero_lt_of_lt h.inside
  induction calls generalizing m with
  | nil => exact ⟨[], m, rfl, h, .nil⟩
  | cons call calls ih =>
    obtain ⟨held, frame⟩ := call
    cases held with
    | false =>
      obtain ⟨answers, last, hrest, hlast, halone⟩ := ih (h.moved hsize)
      exact ⟨⟨false, frame⟩ :: answers, last, fillAll?_cons (h.released frame) hrest, hlast,
        .cons (fun _ => rfl) halone⟩
    | true =>
      obtain ⟨filled, hfill, -⟩ := h.held frame
      obtain ⟨answers, last, hrest, hlast, halone⟩ :=
        ih (h.moved (Nat.mod_lt (m.position + micFrameLength) hsize))
      refine ⟨⟨true, filled⟩ :: answers, last, fillAll?_cons hfill hrest, hlast,
        .cons (fun hreleased => ?_) halone⟩
      cases hreleased

theorem Plays.wound_back (h : m.Plays w) (hstart : m.position = 0) {calls : List FrameCall}
    (hreleased : ∀ call ∈ calls.getLast?, call.held = false) {answers : List FrameAnswer}
    {last : MicInput} (hcalls : m.fillAll? calls = some (answers, last)) : last.position = 0 := by
  rcases List.eq_nil_or_concat calls with rfl | ⟨earlier, ⟨held, frame⟩, rfl⟩
  · cases hcalls
    exact hstart
  · rw [List.concat_eq_append] at hreleased hcalls
    obtain rfl : held = false := hreleased ⟨held, frame⟩ (by simp)
    obtain ⟨before, n, hbefore, hplays, -⟩ := h.goes_on earlier
    have hone : n.fillAll? [⟨false, frame⟩] = some ([⟨false, frame⟩], { n with position := 0 }) :=
      fillAll?_cons (hplays.released frame) rfl
    rw [fillAll?_append hbefore hone] at hcalls
    cases hcalls
    rfl

theorem Plays.held_run (h : m.Plays w) {run : List FrameCall} (hheld : ∀ call ∈ run, call.held = true) :
    ∃ answers last, m.fillAll? run = some (answers, last) ∧ last.Plays w ∧
      answers.length = run.length ∧ (∀ answer ∈ answers, answer.live = true) ∧
      samplesOf answers = ((Stream'.cycle w.toList h.ne_nil).drop m.position).take
        (run.length * micFrameLength) := by
  induction run generalizing m with
  | nil => exact ⟨[], m, rfl, h, rfl, by simp, by simp [samplesOf]⟩
  | cons call run ih =>
    obtain ⟨held, frame⟩ := call
    obtain rfl : held = true := hheld ⟨held, frame⟩ (by simp)
    obtain ⟨filled, hfill, hitems⟩ := h.held frame
    have hsize : 0 < w.size := Nat.zero_lt_of_lt h.inside
    obtain ⟨answers, last, hrest, hlast, hlength, hlive, hsamples⟩ :=
      ih (h.moved (Nat.mod_lt (m.position + micFrameLength) hsize))
        (fun call hcall => hheld call (List.mem_cons_of_mem _ hcall))
    refine ⟨⟨true, filled⟩ :: answers, last, fillAll?_cons hfill hrest, hlast, ?_, ?_, ?_⟩
    · simp [hlength]
    · simpa using hlive
    · -- the position the others start from stands for the place just behind this frame
      have hplace : (Stream'.cycle w.toList h.ne_nil).drop ((m.position + micFrameLength) % w.size) =
          ((Stream'.cycle w.toList h.ne_nil).drop m.position).drop micFrameLength := by
        rw [Stream'.drop_drop, ← drop_cycle_mod _ _ (m.position + micFrameLength)]
        simp
      have hcount : (run.length + 1) * micFrameLength = micFrameLength + run.length * micFrameLength := by
        rw [Nat.succ_mul, Nat.add_comm]
      rw [List.length_cons, hcount, Stream'.take_add, ← hplace, ← hsamples, ← hitems]
      simp [samplesOf]

/-- **What is heard while the hotkey stays held is the recording, over and over.** Of a microphone that
was switched to a recording, frames are wanted with the hotkey held or released. No call is refused or
reads outside the recording; the frames of consecutive calls with the hotkey held, the first of them
right after a release or at the very start, put together are the beginning of the endless repetition;
a call with the hotkey released gets no signal and its storage back as it was. -/
theorem held_calls_hear_repetition (m : MicInput) {t : FileTree} {p : Path} {w : Array Int16}
    (hload : Wav.load t p = .ok w) (hw : w.toList ≠ []) (calls : List FrameCall) :
    ∃ answers last, (m.reconfigure t .wav (some p)).fillAll? calls = some (answers, last) ∧
      last.position < w.size ∧
      List.Forall₂ LeftAlone calls answers ∧
      ∀ before run after, calls = before ++ run ++ after →
        (∀ call ∈ before.getLast?, call.held = false) → (∀ call ∈ run, call.held = true) →
        let heard := (answers.drop before.length).take run.length
        (∀ answer ∈ heard, answer.live = true) ∧
          samplesOf heard = (Stream'.cycle w.toList hw).take (run.length * micFrameLength) := by
  have hplays : (m.reconfigure t .wav (some p)).Plays w := by
    refine ⟨rfl, ?_, ?_⟩
    · simp [reconfigure, hload, Except.toOption]
    · simpa [reconfigure] using List.length_pos_iff.mpr hw
  obtain ⟨answers, last, hcalls, hlast, halone⟩ := hplays.goes_on calls
  refine ⟨answers, last, hcalls, hlast.inside, halone, ?_⟩
  rintro before run after rfl hreleased hheld
  obtain ⟨earlier, start, hbefore, hstart, haligned⟩ := hplays.goes_on before
  obtain ⟨heard, stop, hrun, hstop, hlength, hlive, hsamples⟩ := hstart.held_run hheld
  obtain ⟨later, final, hafter, -⟩ := hstop.goes_on after
  rw [fillAll?_append (fillAll?_append hbefore hrun) hafter] at hcalls
  cases hcalls
  have hheard : ((earlier ++ heard ++ later).drop before.length).take run.length = heard := by
    rw [haligned.length_eq, ← hlength]
    simp
  rw [hplays.wound_back rfl hreleased hbefore, Stream'.drop_zero] at hsamples
  rw [hheard]
  exact ⟨hlive, hsamples⟩

/-- A WAV file with the two samples 5 and -3. -/
def twoSamples : Bytes :=
  #[0x52, 0x49, 0x46, 0x46, 40, 0, 0, 0, 0x57, 0x41, 0x56, 0x45, 0x66, 0x6D, 0x74, 0x20,
    16, 0, 0, 0, 1, 0, 1, 0, 0x44, 0xAC, 0, 0, 0x88, 0x58, 1, 0, 2, 0, 16, 0,
    0x64, 0x61, 0x74, 0x61, 4, 0, 0, 0, 5, 0, 0xFD, 0xFF]

/-- Two samples, stretched to a whole frame, are heard, let go and heard twice. -/
theorem held_calls_hear_repetition_after_release :
    let t := (FileTree.empty []).put ["blow.wav".toList] (.file twoSamples)
    let p := Path.ofString "blow.wav"
    let w := Wav.toMicRate Float #[5, -3] micRate
    let frame : MicFrame := .blank 7 micFrameLength
    let calls : List FrameCall := [⟨true, frame⟩, ⟨false, frame⟩, ⟨true, frame⟩, ⟨true, frame⟩]
    Wav.load t p = .ok w ∧ ∃ hw : w.toList ≠ [], ∃ first second third last,
      (MicInput.new t .wav (some p)).fillAll? calls =
        some ([first, ⟨false, frame⟩, second, third], last) ∧
      samplesOf [first] = (Stream'.cycle w.toList hw).take micFrameLength ∧
      samplesOf [second, third] = (Stream'.cycle w.toList hw).take (2 * micFrameLength) := by
  intro t p w frame calls
  have hload : Wav.load t p = .ok w := by rfl
  have hw : w.toList ≠ [] := by
    have hsize : w.size = Wav.micLength 2 micRate := Wav.size_toMicRate rfl micRate
    have hpos : 0 < w.size := by
      rw [hsize]
      decide
    rwa [ne_eq, Array.toList_eq_nil_iff, ← ne_eq, ← Array.size_pos_iff]
  obtain ⟨answers, last, hcalls, -, halone, hruns⟩ := held_calls_hear_repetition {} hload hw calls
  obtain ⟨first, second, third, fourth, rfl⟩ :
      ∃ first second third fourth, answers = [first, second, third, fourth] := by
    match answers, halone.length_eq with
    | [first, second, third, fourth], _ => exact ⟨first, second, third, fourth, rfl⟩
  obtain rfl : second = ⟨false, frame⟩ := by
    obtain ⟨-, hrest⟩ := List.forall₂_cons.mp halone
    exact (List.forall₂_cons.mp hrest).1 rfl
  obtain ⟨-, hfirst⟩ := hruns [] [⟨true, frame⟩] (calls.drop 1) rfl (by simp) (by simp)
  obtain ⟨-, hlater⟩ := hruns (calls.take 2) (calls.drop 2) [] rfl (by simp [calls]) (by simp [calls])
  rw [List.length_singleton, Nat.one_mul] at hfirst
  exact ⟨hload, hw, first, third, fourth, last, hcalls, hfirst, hlater⟩

end MicInput

end Handheld
