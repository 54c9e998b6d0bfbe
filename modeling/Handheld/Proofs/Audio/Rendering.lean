import Handheld.Audio.Render

/-!
# What a callback plays

A callback plays the oldest frames of the queue and nothing else: not what stood in the output buffer,
nor what an earlier callback left where frames are read to (`renders_oldest_frames`). No access leaves
its buffer, however many frames the rate converter asks for.
-/

namespace Handheld

namespace Resample

variable {α : Type} [Scalar α]

theorem size_frames (input : Array StereoFrame) (volume : UInt16) (step : α) (n : Nat) (c : Cursor α)
    (done : Array StereoFrame) : (frames input volume step n c done).size = done.size + n := by
  induction n generalizing c done with
  | zero => rfl
  | succ n ih =>
    rw [frames, ih, Array.size_push]
    omega

theorem size_block (input : Array StereoFrame) (n : Nat) (volume : UInt16) :
    (block α input n volume).size = n := by
  unfold block
  split
  · exact Array.size_replicate
  · rw [size_frames, Array.size_empty, Nat.zero_add]

end Resample

namespace Pipeline

/-- How many frames a callback takes: as many as it may read, if there are as many. -/
def taken (p : Pipeline) (asked : Nat) : Nat := min (p.readLimit asked) p.queue.ring.items.length

theorem read_readLimit (p : Pipeline) (asked : Nat) :
    (p.queue.read (p.readLimit asked)).1 = p.queue.ring.items.take (p.taken asked) := by
  rw [taken, ← List.take_eq_take_min]
  rfl

theorem drained_eq (p : Pipeline) (asked : Nat) :
    p.drained asked = { p with queue.ring := (p.queue.ring.pop (p.taken asked)).2 } := by
  have hitems : p.queue.ring.items.drop (p.readLimit asked) =
      p.queue.ring.items.drop (p.taken asked) := by
    rw [taken, ← List.drop_eq_drop_min]
  simp only [drained, SampleQueue.read, Ring.pop, hitems]

theorem sound_of_silent {p : Pipeline} {asked : Nat} (h : p.taken asked = 0 ∨ p.muted = true)
    (n : Nat) : p.sound asked n = List.replicate n .silence := by
  have hsilent : ((p.queue.read (p.readLimit asked)).1.isEmpty || p.muted) = true := by
    rcases h with h | h
    · rw [read_readLimit, h]
      rfl
    · rw [h, Bool.or_true]
  rw [sound, if_pos hsilent]

theorem sound_of_heard {p : Pipeline} {asked : Nat} (htaken : 0 < p.taken asked)
    (hmuted : p.muted = false) (n : Nat) :
    ∃ last, p.queue.ring.items[p.taken asked - 1]? = some last ∧
      p.sound asked n =
        (Resample.block Float
          (p.queue.ring.items.take (p.taken asked) ++
            List.replicate (p.readLimit asked - underrunMargin - p.taken asked) last).toArray
          n p.volume).toList := by
  let frames := p.queue.ring.items.take (p.taken asked)
  have hlength : frames.length = p.taken asked := List.length_take_of_le (Nat.min_le_right _ _)
  have hsome : frames ≠ [] := List.ne_nil_of_length_pos (hlength ▸ htaken)
  have hlast : p.queue.ring.items[p.taken asked - 1]? = frames.getLast? := by
    rw [List.getLast?_eq_getElem?, hlength, List.getElem?_take_of_lt (Nat.sub_one_lt_of_lt htaken)]
  refine ⟨frames.getLast hsome, hlast.trans (List.getLast?_eq_some_getLast hsome), ?_⟩
  have hheard : ¬(frames.isEmpty || p.muted) = true := by
    simp [hsome, hmuted]
  rw [sound, read_readLimit, if_neg hheard, pad, List.getLast?_eq_some_getLast hsome, hlength]

theorem length_sound (p : Pipeline) (asked n : Nat) : (p.sound asked n).length = n := by
  unfold sound
  dsimp only
  split
  · exact List.length_replicate
  · rw [Array.length_toList, Resample.size_block]

theorem length_render (p : Pipeline) (r : Renderer) (n : Nat) : (p.render r n).1.length = n := by
  cases h : p.enabled with
  | false =>
    rw [render_of_disabled h]
    exact List.length_replicate
  | true =>
    obtain ⟨used, hrender⟩ := render_of_enabled h r n
    rw [hrender]
    exact p.length_sound _ n

/-- **A callback plays the oldest frames of the queue**, of which it takes as many as it may, and fills
the whole of its buffer, whatever stood there and wherever an earlier callback left frames. Disabled, it
takes nothing and is silent; muted or out of frames, it is silent. -/
theorem renders_oldest_frames (p : Pipeline) (c : RateConverter Float) (n : Nat) :
    let asked := (c.inputLength n).1
    let limit := min (min asked p.queue.threshold) 4096
    let queued := p.queue.ring.items
    let k := min limit queued.length
    ∃ (played : List StereoFrame) (c' : RateConverter Float) (rest : Pipeline),
      (∀ (stale : Scratch StereoFrame maxRead) (out : List StereoFrame), out.length = n →
        ∃ used, p.renderInto? ⟨c, stale⟩ out = some (played, ⟨c', used⟩, rest)) ∧
      played.length = n ∧
      (p.enabled = false → played = List.replicate n .silence ∧ c' = c ∧ rest = p) ∧
      (p.enabled = true →
        c' = (c.inputLength n).2 ∧
        rest = { p with queue.ring := (p.queue.ring.pop k).2 } ∧
        rest.queue.ring.items = queued.drop k ∧
        (k = 0 ∨ p.muted = true → played = List.replicate n .silence) ∧
        (0 < k → p.muted = false →
          ∃ last, queued[k - 1]? = some last ∧
            played =
              (Resample.block Float (queued.take k ++ List.replicate (limit - 6 - k) last).toArray
                n p.volume).toList)) := by
  intro asked limit queued k
  rcases Bool.eq_false_or_eq_true p.enabled with henabled | henabled
  · refine ⟨p.sound asked n, (c.inputLength n).2, p.drained asked, ?_, p.length_sound asked n,
      fun hdisabled => ?_, fun _ => ⟨rfl, p.drained_eq asked, ?_, ?_, ?_⟩⟩
    · rintro stale out rfl
      exact renderInto?_of_enabled henabled ⟨c, stale⟩ out
    · rw [henabled] at hdisabled
      cases hdisabled
    · rw [p.drained_eq asked]
      rfl
    · exact fun hsilent => sound_of_silent hsilent n
    · exact fun htaken hmuted => sound_of_heard htaken hmuted n
  · refine ⟨List.replicate n .silence, c, p, ?_, List.length_replicate, fun _ => ⟨rfl, rfl, rfl⟩,
      fun h => ?_⟩
    · rintro stale out rfl
      exact ⟨stale, renderInto?_of_disabled henabled _ _⟩
    · rw [henabled] at h
      cases h

end Pipeline

end Handheld
