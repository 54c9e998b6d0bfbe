import Handheld.Audio.Pipeline
import Handheld.Audio.Rate
import Handheld.Audio.Resample
import Handheld.Audio.Scratch

/-!
# Rendering

A renderer, one per device stream, drains the queue at the device rate. Disabled, nothing is consumed;
muted, everything is consumed and nothing heard. What is read lands in a buffer that is used over and
over; an access that would leave a buffer gives `none`, which no call ever does
(`Pipeline.isSome_renderInto?`).
-/

namespace Handheld

/-- Short reads within this many frames of what was asked are not padded. -/
def underrunMargin : Nat := 6

def maxRead : Nat := 4096

/-- The consumer of a queue, owned by a device stream. -/
structure Renderer where
  converter : RateConverter Float
  /-- Where frames are read to. -/
  scratch : Scratch StereoFrame maxRead

namespace SampleQueue

variable {size : Nat}

/-- Read at most `n` frames to the front of a buffer that has room for as many, and say how many there
were. -/
def readInto? (q : SampleQueue) (buffer : Scratch StereoFrame size) (n : Nat) :
    Option (Nat × Scratch StereoFrame size × SampleQueue) := do
  let _ ← buffer.first? n
  let (frames, queue) := q.read n
  let buffer ← buffer.write? 0 frames
  return (frames.length, buffer, queue)

end SampleQueue

namespace Pipeline

variable {size : Nat}

/-- A new consumer at the rate of its device. -/
def attach (p : Pipeline) (deviceRate : Nat) : Renderer × Pipeline :=
  (⟨.new p.coreRate p.targetFps deviceRate, .blank .silence maxRead⟩,
    { p with renderers := p.renderers + 1 })

def detach (p : Pipeline) : Pipeline := { p with renderers := p.renderers - 1 }

/-- How many frames a callback may read where so many are asked for. -/
def readLimit (p : Pipeline) (asked : Nat) : Nat := min (min asked p.queue.threshold) maxRead

/-- Repeat the last of `n` frames at the front of a buffer to just below what was wanted, and say how
many frames there are then. -/
def extend? (wanted n : Nat) (buffer : Scratch StereoFrame size) :
    Option (Nat × Scratch StereoFrame size) :=
  let target := wanted - underrunMargin
  if n < target then do
    let last ← buffer.items[n - 1]?
    let buffer ← buffer.write? n (List.replicate (target - n) last)
    return (target, buffer)
  else some (n, buffer)

/-- Fill an output buffer from the queue, where so many frames are asked for. -/
def drain? (p : Pipeline) (scratch : Scratch StereoFrame maxRead) (asked : Nat)
    (out : List StereoFrame) :
    Option (List StereoFrame × Scratch StereoFrame maxRead × Pipeline) := do
  let wanted := p.readLimit asked
  let (n, scratch, queue) ← p.queue.readInto? scratch wanted
  if n = 0 || p.muted then return (out.map fun _ => .silence, scratch, { p with queue })
  else
    let (n, scratch) ← extend? wanted n scratch
    let input ← scratch.first? n
    let out ← Resample.into? Float input.toArray out p.volume
    return (out, scratch, { p with queue })

/-- Fill an output buffer, whatever stands in it. -/
def renderInto? (p : Pipeline) (r : Renderer) (out : List StereoFrame) :
    Option (List StereoFrame × Renderer × Pipeline) :=
  if !p.enabled then some (out.map fun _ => .silence, r, p)
  else do
    let (asked, converter) := r.converter.inputLength out.length
    let (out, scratch, p) ← p.drain? r.scratch asked out
    return (out, ⟨converter, scratch⟩, p)

/-! ## What is rendered -/

/-- Frames to resample: what was read, extended by its last frame to just below what was wanted. -/
def pad (wanted : Nat) (frames : List StereoFrame) : List StereoFrame :=
  match frames.getLast? with
  | none => frames
  | some last => frames ++ List.replicate (wanted - underrunMargin - frames.length) last

/-- What `n` frames of output sound like, where so many frames are asked for. -/
def sound (p : Pipeline) (asked n : Nat) : List StereoFrame :=
  let wanted := p.readLimit asked
  let frames := (p.queue.read wanted).1
  if frames.isEmpty || p.muted then List.replicate n .silence
  else (Resample.block Float (pad wanted frames).toArray n p.volume).toList

/-- The pipeline after a callback that so many frames were asked for. -/
def drained (p : Pipeline) (asked : Nat) : Pipeline :=
  { p with queue := (p.queue.read (p.readLimit asked)).2 }

theorem readLimit_le (p : Pipeline) (asked : Nat) : p.readLimit asked ≤ maxRead := Nat.min_le_right _ _

theorem readInto?_eq (q : SampleQueue) (buffer : Scratch StereoFrame size) {n : Nat} (h : n ≤ size) :
    ∃ filled, q.readInto? buffer n = some ((q.read n).1.length, filled, (q.read n).2) ∧
      filled.first? (q.read n).1.length = some (q.read n).1 := by
  have hfew : (q.read n).1.length ≤ n := List.length_take_le ..
  obtain ⟨filled, hfilled⟩ := buffer.write?_of_le 0 (q.read n).1 (by omega)
  refine ⟨filled, ?_, ?_⟩
  · rw [SampleQueue.readInto?, Scratch.first?, if_pos h]
    simp [hfilled]
  · simpa using Scratch.first?_of_write? hfilled

theorem extend?_eq {buffer : Scratch StereoFrame size} {frames : List StereoFrame} {wanted : Nat}
    (hfront : buffer.first? frames.length = some frames) (hsome : frames ≠ [])
    (hwanted : wanted ≤ size) :
    ∃ extended, extend? wanted frames.length buffer = some ((pad wanted frames).length, extended) ∧
      extended.first? (pad wanted frames).length = some (pad wanted frames) := by
  have hpos : 0 < frames.length := List.length_pos_iff.mpr hsome
  have htake : buffer.items.take frames.length = frames := Scratch.take_of_first? hfront
  have hpad : pad wanted frames = frames ++
      List.replicate (wanted - underrunMargin - frames.length) (frames.getLast hsome) := by
    rw [pad, List.getLast?_eq_some_getLast hsome]
  by_cases hshort : frames.length < wanted - underrunMargin
  · have hlast : buffer.items[frames.length - 1]? = some (frames.getLast hsome) := by
      rw [Scratch.getElem?_of_first? hfront (by omega), ← List.getLast?_eq_getElem?,
        List.getLast?_eq_some_getLast hsome]
    let copies := List.replicate (wanted - underrunMargin - frames.length) (frames.getLast hsome)
    have hcopies : copies.length = wanted - underrunMargin - frames.length := List.length_replicate
    obtain ⟨extended, hextended⟩ := buffer.write?_of_le frames.length copies (by omega)
    refine ⟨extended, ?_, ?_⟩
    · have hlength : (pad wanted frames).length = wanted - underrunMargin := by
        rw [hpad, List.length_append, hcopies]
        omega
      rw [extend?, if_pos hshort, hlast, hlength]
      show (buffer.write? frames.length copies >>= fun buffer => some (_, buffer)) = _
      rw [hextended]
      rfl
    · have hread := Scratch.first?_of_write? hextended
      rwa [htake, ← hpad, ← List.length_append, ← hpad] at hread
  · have hsame : pad wanted frames = frames := by
      rw [hpad, Nat.sub_eq_zero_of_le (by omega), List.replicate_zero, List.append_nil]
    rw [hsame, extend?, if_neg hshort]
    exact ⟨buffer, rfl, hfront⟩

/-- No access leaves its buffer, and neither what the buffers held before nor how many frames there are
has a say in it. -/
theorem drain?_eq (p : Pipeline) (scratch : Scratch StereoFrame maxRead) (asked : Nat)
    (out : List StereoFrame) :
    ∃ used, p.drain? scratch asked out = some (p.sound asked out.length, used, p.drained asked) := by
  obtain ⟨filled, hread, hfront⟩ := readInto?_eq p.queue scratch (p.readLimit_le asked)
  simp only [drain?, hread, sound, Option.bind_eq_bind, Option.bind_some]
  by_cases hsilent : (p.queue.read (p.readLimit asked)).1 = [] ∨ p.muted = true
  · refine ⟨filled, ?_⟩
    rw [if_pos (by simpa using hsilent), if_pos (by simpa using hsilent), List.map_const']
    rfl
  · rw [if_neg (by simpa using hsilent), if_neg (by simpa using hsilent)]
    obtain ⟨extended, hextend, hinput⟩ :=
      extend?_eq hfront (fun h => hsilent (.inl h)) (p.readLimit_le asked)
    simp only [hextend, hinput, Resample.into?_eq, Option.bind_some]
    exact ⟨extended, rfl⟩

theorem renderInto?_of_disabled {p : Pipeline} (h : p.enabled = false) (r : Renderer)
    (out : List StereoFrame) :
    p.renderInto? r out = some (List.replicate out.length .silence, r, p) := by
  rw [renderInto?, if_pos (by rw [h]; rfl), List.map_const']

theorem renderInto?_of_enabled {p : Pipeline} (h : p.enabled = true) (r : Renderer)
    (out : List StereoFrame) :
    ∃ used, p.renderInto? r out =
      some (p.sound (r.converter.inputLength out.length).1 out.length,
        ⟨(r.converter.inputLength out.length).2, used⟩,
        p.drained (r.converter.inputLength out.length).1) := by
  obtain ⟨used, hdrain⟩ := p.drain?_eq r.scratch (r.converter.inputLength out.length).1 out
  refine ⟨used, ?_⟩
  rw [renderInto?, if_neg (by rw [h]; exact Bool.false_ne_true)]
  simp [hdrain]

theorem isSome_renderInto? (p : Pipeline) (r : Renderer) (out : List StereoFrame) :
    (p.renderInto? r out).isSome := by
  cases h : p.enabled with
  | false => rw [renderInto?_of_disabled h]; rfl
  | true =>
    obtain ⟨used, hrender⟩ := renderInto?_of_enabled h r out
    rw [hrender]
    rfl

/-- Fill a callback of `n` frames. -/
def render (p : Pipeline) (r : Renderer) (n : Nat) : List StereoFrame × Renderer × Pipeline :=
  (p.renderInto? r (List.replicate n .silence)).get (p.isSome_renderInto? r _)

theorem render_of_disabled {p : Pipeline} (h : p.enabled = false) (r : Renderer) (n : Nat) :
    p.render r n = (List.replicate n .silence, r, p) := by
  simp [render, renderInto?_of_disabled h]

theorem render_of_enabled {p : Pipeline} (h : p.enabled = true) (r : Renderer) (n : Nat) :
    ∃ used, p.render r n =
      (p.sound (r.converter.inputLength n).1 n, ⟨(r.converter.inputLength n).2, used⟩,
        p.drained (r.converter.inputLength n).1) := by
  obtain ⟨used, hrender⟩ := renderInto?_of_enabled h r (List.replicate n .silence)
  rw [List.length_replicate] at hrender
  exact ⟨used, Option.get_of_eq_some _ hrender⟩

end Pipeline

end Handheld
