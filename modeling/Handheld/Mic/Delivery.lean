import Handheld.Audio.Scratch
import Handheld.Mic.Input

/-!
# Delivery of microphone frames

A frame is delivered in storage that its receiver brings along, and where there is no signal that
storage is left alone. An access that would leave the storage or the recording gives `none`; while the
recording goes on at a place of its own, no delivery does, and it is `MicInput.nextFrame` that is
delivered (`MicInput.fillFrame?_eq`).
-/

namespace Handheld

/-- The storage a frame is delivered in. -/
abbrev MicFrame := Scratch Int16 micFrameLength

namespace MicInput

/-- Read `n` samples of a recording from a position on, the first one again behind the last, and say
where it goes on. -/
def readLoop? (wav : Array Int16) : Nat → Nat → Option (List Int16 × Nat)
  | 0, position => some ([], position)
  | n + 1, position => do
    let sample ← wav[position]?
    let (later, position) ← readLoop? wav n ((position + 1) % wav.size)
    return (sample :: later, position)

/-- Behind the `n` samples at the front of a frame, repeat the last of them; with none, all of the frame
is zero. -/
def padInto? (n : Nat) (frame : MicFrame) : Option MicFrame :=
  if n = 0 then some (.blank 0 micFrameLength)
  else if n < micFrameLength then do
    let last ← frame.items[n - 1]?
    frame.write? n (List.replicate (micFrameLength - n) last)
  else some frame

/-- What a microphone plays: a capture device always, the other sources while the hotkey is held. -/
def playing (m : MicInput) (held : Bool) : MicMode :=
  match m.mode with
  | .external => .external
  | mode => if held then mode else .silence

/-- Deliver the next frame, and say whether there is a signal. -/
def fillFrame? (m : MicInput) (held : Bool) (frame : MicFrame) :
    Option (Bool × MicFrame × MicInput) :=
  match m.playing held with
  | .silence => some (false, frame, { m with position := 0 })
  | .external => do
    let (samples, ring) := m.ring.pop micFrameLength
    let frame ← frame.write? 0 samples
    let frame ← padInto? samples.length frame
    return (true, frame, { m with ring })
  | .wav =>
    if m.wav.isEmpty then some (false, frame, { m with position := 0 })
    else do
      let (samples, position) ← readLoop? m.wav micFrameLength m.position
      let frame ← frame.write? 0 samples
      return (true, frame, { m with position })
  | .noise => do
    let (samples, noise) := Lcg.run Lcg.sample micFrameLength m.noise #[]
    let frame ← frame.write? 0 samples.toList
    return (true, frame, { m with noise })

/-! ## What is delivered -/

/-- The place where the recording goes on is in it, if there is a recording. -/
def Inside (m : MicInput) : Prop := m.wav = #[] ∨ m.position < m.wav.size

/-- While the position is in the recording, no read leaves it: the position is set back in time. -/
theorem readLoop?_eq {wav : Array Int16} {position : Nat} (h : position < wav.size) (n : Nat) :
    readLoop? wav n position =
      some ((List.range n).map fun i => wav.getD ((position + i) % wav.size) 0,
        (position + n) % wav.size) := by
  induction n generalizing position with
  | zero => simp [readLoop?, Nat.mod_eq_of_lt h]
  | succ n ih =>
    have hread : wav[position]? = some (wav.getD (position % wav.size) 0) := by
      simp [Nat.mod_eq_of_lt h, h]
    have hnext : (position + 1) % wav.size < wav.size := Nat.mod_lt _ (by omega)
    have hshift (i : Nat) : ((position + 1) % wav.size + i) % wav.size =
        (position + (i + 1)) % wav.size := by
      rw [Nat.mod_add_mod, Nat.add_assoc, Nat.add_comm 1 i]
    rw [readLoop?, hread, ih hnext]
    simp [List.range_succ_eq_map, hshift, Function.comp_def]

theorem padInto?_eq {samples : List Int16} {frame : MicFrame}
    (hfront : frame.first? samples.length = some samples) :
    ∃ padded, padInto? samples.length frame = some padded ∧ padded.items = padFrame samples := by
  have htake : frame.items.take samples.length = samples := Scratch.take_of_first? hfront
  have hfits : samples.length ≤ micFrameLength := by
    have hlength := congrArg List.length htake
    rw [List.length_take, frame.full] at hlength
    omega
  unfold padInto?
  by_cases hnone : samples.length = 0
  · rw [if_pos hnone]
    rw [List.length_eq_zero_iff] at hnone
    subst hnone
    exact ⟨_, rfl, rfl⟩
  · rw [if_neg hnone]
    by_cases hshort : samples.length < micFrameLength
    · have hsome : samples ≠ [] := by
        intro h
        simp [h] at hnone
      have hlast : frame.items[samples.length - 1]? = some (samples.getLast hsome) := by
        rw [Scratch.getElem?_of_first? hfront (by omega), ← List.getLast?_eq_getElem?,
          List.getLast?_eq_some_getLast hsome]
      let copies := List.replicate (micFrameLength - samples.length) (samples.getLast hsome)
      have hcopies : samples.length + copies.length = micFrameLength := by
        simp only [copies, List.length_replicate]
        omega
      obtain ⟨padded, hpadded⟩ := frame.write?_of_le samples.length copies (by omega)
      refine ⟨padded, by simp [hshort, hlast, copies, hpadded], ?_⟩
      have hread := Scratch.take_of_first? (Scratch.first?_of_write? hpadded)
      rw [hcopies, htake, List.take_of_length_le (Nat.le_of_eq padded.full)] at hread
      rw [hread, padFrame, List.getLast?_eq_some_getLast hsome]
      rfl
    · rw [if_neg hshort]
      refine ⟨frame, rfl, ?_⟩
      have hwhole : frame.items = samples := by
        rw [← htake, List.take_of_length_le (by rw [frame.full]; omega)]
      rw [hwhole, padFrame, Nat.sub_eq_zero_of_le (by omega), List.replicate_zero, List.append_nil]

theorem length_loopFrame (wav : Array Int16) (position : Nat) :
    (loopFrame wav position).length = micFrameLength := by
  simp [loopFrame]

/-! ### One source after the other -/

section

variable {m : MicInput}

theorem fillFrame?_silent {held : Bool} (h : m.playing held = .silence) (frame : MicFrame) :
    m.fillFrame? held frame = some (false, frame, { m with position := 0 }) := by
  rw [fillFrame?, h]

theorem nextFrame_silent {held : Bool} (h : m.playing held = .silence) :
    m.nextFrame held = (none, { m with position := 0 }) := by
  unfold playing at h
  unfold nextFrame
  cases hmode : m.mode <;> cases held <;> simp_all

theorem fillFrame?_external (h : m.mode = .external) (held : Bool) (frame : MicFrame) :
    ∃ filled, m.fillFrame? held frame =
        some (true, filled, { m with ring := (m.ring.pop micFrameLength).2 }) ∧
      filled.items = padFrame (m.ring.pop micFrameLength).1 := by
  have hfew : (m.ring.pop micFrameLength).1.length ≤ micFrameLength := List.length_take_le ..
  obtain ⟨front, hfront⟩ := frame.write?_of_le 0 (m.ring.pop micFrameLength).1 (by omega)
  obtain ⟨padded, hpadded, hitems⟩ := padInto?_eq (by simpa using Scratch.first?_of_write? hfront)
  refine ⟨padded, ?_, hitems⟩
  rw [fillFrame?, playing, h]
  simp only [hfront, hpadded, Option.bind_eq_bind, Option.bind_some]
  rfl

theorem nextFrame_external (h : m.mode = .external) (held : Bool) :
    m.nextFrame held =
      (some (padFrame (m.ring.pop micFrameLength).1),
        { m with ring := (m.ring.pop micFrameLength).2 }) := by
  simp [nextFrame, h]

theorem isEmpty_of_lt {wav : Array Int16} {position : Nat} (h : position < wav.size) :
    wav.isEmpty = false := by
  rw [Array.isEmpty_eq_false_iff, ne_eq, ← Array.size_eq_zero_iff]
  omega

theorem fillFrame?_wav (h : m.mode = .wav) (hinside : m.position < m.wav.size) (frame : MicFrame) :
    m.fillFrame? true frame =
      some (true, ⟨loopFrame m.wav m.position, length_loopFrame ..⟩,
        { m with position := (m.position + micFrameLength) % m.wav.size }) := by
  rw [fillFrame?, playing, h]
  simp only [if_true, isEmpty_of_lt hinside, Bool.false_eq_true, if_false, readLoop?_eq hinside,
    Option.bind_eq_bind, Option.bind_some]
  rw [← loopFrame, frame.write?_whole (length_loopFrame ..)]
  rfl

theorem nextFrame_wav (h : m.mode = .wav) (hinside : m.position < m.wav.size) :
    m.nextFrame true =
      (some (loopFrame m.wav m.position),
        { m with position := (m.position + micFrameLength) % m.wav.size }) := by
  simp [nextFrame, h, isEmpty_of_lt hinside]

theorem exists_noise (h : m.mode = .noise) :
    ∃ (made : MicFrame) (noise : Lcg), m.nextFrame true = (some made.items, { m with noise }) ∧
      ∀ frame, m.fillFrame? true frame = some (true, made, { m with noise }) := by
  have hlength := Lcg.size_run Lcg.sample micFrameLength m.noise #[]
  have hnext : m.nextFrame true =
      (some (Lcg.run Lcg.sample micFrameLength m.noise #[]).1.toList,
        { m with noise := (Lcg.run Lcg.sample micFrameLength m.noise #[]).2 }) := by
    simp [nextFrame, h]
  have hfill (frame : MicFrame) : m.fillFrame? true frame =
      (frame.write? 0 (Lcg.run Lcg.sample micFrameLength m.noise #[]).1.toList).map fun filled =>
        (true, filled, { m with noise := (Lcg.run Lcg.sample micFrameLength m.noise #[]).2 }) := by
    simp only [fillFrame?, playing, h, if_true, Option.map_eq_bind, Option.bind_eq_bind,
      Option.pure_def, Function.comp_def]
  generalize Lcg.run Lcg.sample micFrameLength m.noise #[] = made at hlength hnext hfill
  have hwhole : made.1.toList.length = micFrameLength := by
    simpa using hlength
  refine ⟨⟨made.1.toList, hwhole⟩, made.2, hnext, fun frame => ?_⟩
  rw [hfill, frame.write?_whole hwhole, Option.map_some]

theorem fillFrame?_nothing (h : m.mode = .wav) (hnothing : m.wav = #[]) (frame : MicFrame) :
    m.fillFrame? true frame = some (false, frame, { m with position := 0 }) := by
  simp [fillFrame?, playing, h, hnothing]

theorem nextFrame_nothing (h : m.mode = .wav) (hnothing : m.wav = #[]) :
    m.nextFrame true = (none, { m with position := 0 }) := by
  simp [nextFrame, h, hnothing]

theorem mode_of_playing {held : Bool} {mode : MicMode} (h : m.playing held = mode)
    (hsome : mode ≠ .silence) : m.mode = mode ∧ (mode ≠ .external → held = true) := by
  subst h
  unfold playing at hsome ⊢
  cases hmode : m.mode <;> cases held <;> simp_all

end

/-- What is delivered is the next frame, whatever stood in the storage; where there is none, that
stays. -/
theorem fillFrame?_eq {m : MicInput} (h : m.Inside) (held : Bool) (frame : MicFrame) :
    ∃ filled, m.fillFrame? held frame =
        some ((m.nextFrame held).1.isSome, filled, (m.nextFrame held).2) ∧
      filled.items = (m.nextFrame held).1.getD frame.items := by
  cases hplaying : m.playing held with
  | silence =>
    rw [fillFrame?_silent hplaying, nextFrame_silent hplaying]
    exact ⟨frame, rfl, rfl⟩
  | external =>
    obtain ⟨hmode, -⟩ := mode_of_playing hplaying (by decide)
    rw [nextFrame_external hmode]
    exact fillFrame?_external hmode held frame
  | wav =>
    obtain ⟨hmode, hheld⟩ := mode_of_playing hplaying (by decide)
    obtain rfl := hheld (by decide)
    rcases h with hnothing | hinside
    · rw [fillFrame?_nothing hmode hnothing, nextFrame_nothing hmode hnothing]
      exact ⟨frame, rfl, rfl⟩
    · rw [fillFrame?_wav hmode hinside, nextFrame_wav hmode hinside]
      exact ⟨_, rfl, by simp only [Option.getD_some]⟩
  | noise =>
    obtain ⟨hmode, hheld⟩ := mode_of_playing hplaying (by decide)
    obtain rfl := hheld (by decide)
    obtain ⟨made, noise, hnext, hfill⟩ := exists_noise hmode
    rw [hnext, hfill]
    exact ⟨made, rfl, rfl⟩

end MicInput

end Handheld
