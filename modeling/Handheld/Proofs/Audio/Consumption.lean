import Handheld.Audio.Render
import Mathlib.Data.List.InsertIdx

/-!
# What is heard and what is consumed

A session with the sound of an instance: machine output is queued, sound is let out or held back, and
renderers come, drain the queue and go. In between, the mute policy, the focus and the volume change as
they like. Two sessions in which the same sound is moved are compared through a third one in which nobody
touches mute or volume (`course_eq`): after every move the same frames are queued, as many have been
consumed, and every renderer carries the same phase (`hearing_consumes_nothing`).
-/

namespace Handheld

/-- What moves sound. -/
inductive Flow where
  | push (frames : List StereoFrame)
  /-- A renderer has to fill a callback of `length` frames. -/
  | render (renderer length : Nat)
  | clear
  | enable
  | disable
  /-- A renderer for a device of this rate comes after the others. -/
  | attach (deviceRate : Nat)
  | detach (renderer : Nat)

/-- What decides who is heard, and how loud. -/
inductive Hearing where
  | mode (mode : MuteMode)
  | instances (count : Nat)
  | focus (id : Option Nat)
  /-- The pipeline looks at the mute policy. -/
  | refresh
  | volume (volume : UInt16)
  | stepVolume (up : Bool)

inductive SoundStep where
  | flow (f : Flow)
  | hearing (h : Hearing)

def flows (steps : List SoundStep) : List Flow :=
  steps.filterMap fun step =>
    match step with
    | .flow f => some f
    | .hearing _ => none

/-- The sound of an instance, the policy it is muted by, and who plays it. -/
structure SoundSession where
  pipeline : Pipeline
  mute : MuteState
  renderers : List Renderer := []
  /-- How many frames callbacks have taken out of the queue. -/
  consumed : Nat := 0

/-- What a session has used up and what it still has. -/
structure Drawn where
  queued : List StereoFrame
  consumed : Nat
  /-- The fraction of a frame that each renderer carries into its next callback. -/
  phases : List Float

namespace SoundSession

variable {s t u : SoundSession}

/-- Let a renderer fill a callback; one that is not there fills none. -/
def callback (s : SoundSession) (renderer length : Nat) : SoundSession :=
  match s.renderers[renderer]? with
  | none => s
  | some r =>
    let (_, r, pipeline) := s.pipeline.render r length
    { s with
      pipeline
      renderers := s.renderers.set renderer r
      consumed := s.consumed + (s.pipeline.queue.ring.length - pipeline.queue.ring.length) }

def dismiss (s : SoundSession) (renderer : Nat) : SoundSession :=
  if renderer < s.renderers.length then
    { s with pipeline := s.pipeline.detach, renderers := s.renderers.eraseIdx renderer }
  else s

def move (s : SoundSession) : Flow → SoundSession
  | .push frames => { s with pipeline := (s.pipeline.push frames).2 }
  | .render renderer length => s.callback renderer length
  | .clear => { s with pipeline.queue := s.pipeline.queue.clear }
  | .enable => { s with pipeline := s.pipeline.enable }
  | .disable => { s with pipeline := s.pipeline.disable }
  | .attach deviceRate =>
    let (r, pipeline) := s.pipeline.attach deviceRate
    { s with pipeline, renderers := s.renderers ++ [r] }
  | .detach renderer => s.dismiss renderer

def hear (s : SoundSession) : Hearing → SoundSession
  | .mode mode => { s with mute.mode := mode }
  | .instances count => { s with mute.instances := count }
  | .focus id => { s with mute := s.mute.setFocused id }
  | .refresh => { s with pipeline := s.pipeline.refreshMute s.mute }
  | .volume volume => { s with pipeline := s.pipeline.setVolume volume }
  | .stepVolume up => { s with pipeline := (s.pipeline.stepVolume up).2 }

def drawn (s : SoundSession) : Drawn :=
  ⟨s.pipeline.queue.ring.items, s.consumed, s.renderers.map (·.converter.phase)⟩

/-- What is drawn after each move of a session. -/
def course (s : SoundSession) : List SoundStep → List Drawn
  | [] => []
  | .flow f :: rest => (s.move f).drawn :: (s.move f).course rest
  | .hearing h :: rest => (s.hear h).course rest

/-! ## Sessions that draw alike -/

/-- Two sessions are the same but for mute, volume and what callbacks have left in their buffers. -/
structure DrawsLike (s t : SoundSession) : Prop where
  pipeline : ∃ muted volume, t.pipeline = { s.pipeline with muted, volume }
  converters : t.renderers.map (·.converter) = s.renderers.map (·.converter)
  consumed : t.consumed = s.consumed

theorem DrawsLike.refl (s : SoundSession) : DrawsLike s s := ⟨⟨_, _, rfl⟩, rfl, rfl⟩

theorem DrawsLike.symm (h : DrawsLike s t) : DrawsLike t s := by
  obtain ⟨⟨muted, volume, hpipeline⟩, hconverters, hconsumed⟩ := h
  exact ⟨⟨s.pipeline.muted, s.pipeline.volume, by rw [hpipeline]⟩, hconverters.symm, hconsumed.symm⟩

theorem DrawsLike.trans (hst : DrawsLike s t) (htu : DrawsLike t u) : DrawsLike s u := by
  obtain ⟨⟨_, _, hpipeline⟩, hconverters, hconsumed⟩ := hst
  obtain ⟨⟨muted, volume, hpipeline'⟩, hconverters', hconsumed'⟩ := htu
  exact ⟨⟨muted, volume, by rw [hpipeline', hpipeline]⟩, hconverters'.trans hconverters,
    hconsumed'.trans hconsumed⟩

theorem DrawsLike.drawn_eq (h : DrawsLike s t) : t.drawn = s.drawn := by
  obtain ⟨⟨muted, volume, hpipeline⟩, hconverters, hconsumed⟩ := h
  have hphases : t.renderers.map (·.converter.phase) = s.renderers.map (·.converter.phase) := by
    simpa [Function.comp_def] using congrArg (List.map RateConverter.phase) hconverters
  rw [drawn, drawn, hphases, hconsumed, hpipeline]

theorem drawsLike_hear (s : SoundSession) (h : Hearing) : DrawsLike s (s.hear h) := by
  cases h <;> exact ⟨⟨_, _, rfl⟩, rfl, rfl⟩

/-! ## Moves -/

theorem render_draws (p : Pipeline) (r : Renderer) (length : Nat) :
    (p.render r length).2.1.converter =
        (if p.enabled then (r.converter.inputLength length).2 else r.converter) ∧
      (p.render r length).2.2 =
        if p.enabled then p.drained (r.converter.inputLength length).1 else p := by
  cases henabled : p.enabled with
  | false =>
    rw [Pipeline.render_of_disabled henabled]
    exact ⟨rfl, rfl⟩
  | true =>
    obtain ⟨used, hrender⟩ := Pipeline.render_of_enabled henabled r length
    rw [hrender]
    exact ⟨rfl, rfl⟩

theorem DrawsLike.callback (h : DrawsLike s t) (renderer length : Nat) :
    DrawsLike (s.callback renderer length) (t.callback renderer length) := by
  obtain ⟨⟨muted, volume, hpipeline⟩, hconverters, hconsumed⟩ := h
  have hconverter := congrArg (·[renderer]?) hconverters
  simp only [List.getElem?_map] at hconverter
  unfold SoundSession.callback
  rcases hs : s.renderers[renderer]? with - | r
  · rw [hs, Option.map_none, Option.map_eq_none_iff] at hconverter
    rw [hconverter]
    exact ⟨⟨muted, volume, hpipeline⟩, hconverters, hconsumed⟩
  · rw [hs, Option.map_some] at hconverter
    obtain ⟨r', ht, hsame⟩ := Option.map_eq_some_iff.mp hconverter
    rw [ht]
    obtain ⟨hconverted, hdrained⟩ := render_draws s.pipeline r length
    obtain ⟨hconverted', hdrained'⟩ := render_draws t.pipeline r' length
    have hrest : (t.pipeline.render r' length).2.2 =
        { (s.pipeline.render r length).2.2 with muted, volume } := by
      rw [hdrained', hdrained, hsame, hpipeline]
      split <;> rfl
    refine ⟨⟨muted, volume, hrest⟩, ?_, ?_⟩
    · show (t.renderers.set renderer _).map _ = (s.renderers.set renderer _).map _
      rw [List.map_set, List.map_set, hconverters, hconverted', hconverted, hsame, hpipeline]
    · show t.consumed + _ = s.consumed + _
      rw [hrest, hconsumed, hpipeline]

theorem DrawsLike.dismiss (h : DrawsLike s t) (renderer : Nat) :
    DrawsLike (s.dismiss renderer) (t.dismiss renderer) := by
  have hcount : t.renderers.length = s.renderers.length := by
    simpa using congrArg List.length h.converters
  unfold SoundSession.dismiss
  rw [hcount]
  split
  · obtain ⟨⟨muted, volume, hpipeline⟩, hconverters, hconsumed⟩ := h
    refine ⟨⟨muted, volume, by rw [hpipeline]; rfl⟩, ?_, hconsumed⟩
    show (t.renderers.eraseIdx renderer).map _ = (s.renderers.eraseIdx renderer).map _
    rw [← List.eraseIdx_map, ← List.eraseIdx_map, hconverters]
  · exact h

theorem DrawsLike.move (h : DrawsLike s t) (f : Flow) : DrawsLike (s.move f) (t.move f) := by
  cases f with
  | render renderer length => exact h.callback renderer length
  | detach renderer => exact h.dismiss renderer
  | attach deviceRate =>
    obtain ⟨⟨muted, volume, hpipeline⟩, hconverters, hconsumed⟩ := h
    refine ⟨⟨muted, volume, by rw [SoundSession.move, hpipeline]; rfl⟩, ?_, hconsumed⟩
    show (t.renderers ++ [_]).map _ = (s.renderers ++ [_]).map _
    rw [List.map_append, List.map_append, hconverters, hpipeline]
  | _ =>
    obtain ⟨⟨muted, volume, hpipeline⟩, hconverters, hconsumed⟩ := h
    exact ⟨⟨muted, volume, by rw [SoundSession.move, hpipeline]; rfl⟩, hconverters, hconsumed⟩

/-! ## Whole sessions -/

/-- A session draws what the same moves draw where nobody touches mute or volume. -/
theorem course_eq (h : DrawsLike s t) (steps : List SoundStep) :
    s.course steps = t.course ((flows steps).map .flow) := by
  induction steps generalizing s t with
  | nil => rfl
  | cons step steps ih =>
    cases step with
    | flow f =>
      have hmoved := h.move f
      show (s.move f).drawn :: (s.move f).course steps =
        (t.move f).drawn :: (t.move f).course ((flows steps).map .flow)
      rw [hmoved.drawn_eq, ih hmoved]
    | hearing hearing => exact ih ((s.drawsLike_hear hearing).symm.trans h)

/-- **What is done about mute and volume consumes nothing.** Two sessions in which the same sound is
moved have, after each move, the same frames queued, as many consumed, and the same phase in every
renderer, whatever happens to mute mode, instance count, focus and volume in between. -/
theorem hearing_consumes_nothing (s : SoundSession) {steps others : List SoundStep}
    (h : flows steps = flows others) : s.course steps = s.course others := by
  rw [course_eq (.refl s) steps, course_eq (.refl s) others, h]

/-- The second of two instances is silenced, and heard again at another volume. -/
theorem hearing_consumes_nothing_of_second :
    let s : SoundSession := { pipeline := .new 1 {} {} {}, mute := {} }
    let moved : List Flow := [.attach 48000, .enable, .push (List.replicate 512 ⟨1000, -1000⟩), .render 0 64]
    let steps : List SoundStep :=
      [.flow (.attach 48000), .hearing (.mode .firstOnly), .flow .enable, .hearing (.instances 2),
        .hearing .refresh, .flow (.push (List.replicate 512 ⟨1000, -1000⟩)), .hearing (.stepVolume false),
        .flow (.render 0 64)]
    flows steps = flows (moved.map .flow) ∧ s.course steps = s.course (moved.map .flow) := by
  intro s moved steps
  exact ⟨rfl, hearing_consumes_nothing s rfl⟩

end SoundSession

end Handheld
