import Handheld.Device.Output
import Handheld.Proofs.Audio.Consumption

/-!
# Who holds a renderer

The renderer of a device is attached before it is known whether there will be a device, and every way out
has to give it back. Opening a device ends in one of two ways (`connect_cases`): there is an error and the
pipeline is as it was, or there is a device and one renderer more. From this the renderers are counted
through whole sessions, in which devices are opened, ask for samples and are closed while the sound of the
instance goes on (`renderers_follow_devices`): for each device that is open there is one, and for one that
could not be opened there is none, so that nobody waits for it.

What a library does with a callback that it has no use for is not known here. That it drops the callback
is what `AudioLibrary.Drops` says.
-/

namespace Handheld

/-- A callback is dropped where no stream can be built for it, and with its stream. -/
structure AudioLibrary.Drops (l : AudioLibrary) : Prop where
  unbuilt : l.dropsUnbuilt = true
  withStream : l.dropsWithStream = true

/-! ## One device -/

namespace Pipeline

theorem release_of_dropped (p : Pipeline) {dropped : Bool} (h : dropped = true) :
    p.release dropped = p.detach := by
  rw [h]
  rfl

theorem renderers_render (p : Pipeline) (r : Renderer) (n : Nat) :
    (p.render r n).2.2.renderers = p.renderers := by
  rw [(SoundSession.render_draws p r n).2]
  split <;> rfl

theorem sync_of_no_renderer {p : Pipeline} (h : p.renderers = 0) : p.sync = true := by
  simp [sync, hasRenderer, h]

end Pipeline

namespace OutputDevice

theorem library_of_build {d : AudioDevice} {wanted stream : AudioStream}
    (h : d.build wanted = .ok stream) : stream.library = wanted.library := by
  unfold AudioDevice.build at h
  split at h
  · cases h
  · cases h
    rfl

theorem connect_cases (host : AudioHost) (hdrops : host.library.Drops) (p : Pipeline)
    (audio : AudioConfig) :
    (∃ e, connect host p audio = (p, .error e)) ∨
      ∃ o rate, connect host p audio = ((p.attach rate).2, .ok o) ∧ o.stream.library = host.library := by
  unfold connect
  dsimp only
  split
  case h_1 => exact .inl ⟨_, rfl⟩
  case h_2 d _ =>
    split
    case h_1 => exact .inl ⟨_, rfl⟩
    case h_2 shape _ =>
      split
      case h_1 => exact .inl ⟨_, rfl⟩
      case h_2 =>
        split
        case h_1 =>
          -- the callback was given away, and is dropped unused
          rw [Pipeline.release_of_dropped _ hdrops.unbuilt]
          exact .inl ⟨_, rfl⟩
        case h_2 stream hbuild =>
          have hlibrary : stream.library = host.library := library_of_build hbuild
          split
          case h_1 =>
            -- the stream was built, and is dropped with its callback
            rw [close, hlibrary, Pipeline.release_of_dropped _ hdrops.withStream]
            exact .inl ⟨_, rfl⟩
          case h_2 => exact .inr ⟨_, shape.rate, rfl, hlibrary⟩

theorem connect_of_error {host : AudioHost} (hdrops : host.library.Drops) {p : Pipeline}
    {audio : AudioConfig} {e : DeviceError} (h : (connect host p audio).2 = .error e) :
    (connect host p audio).1 = p := by
  rcases connect_cases host hdrops p audio with ⟨_, heq⟩ | ⟨_, _, heq, -⟩
  · rw [heq]
  · rw [heq] at h
    cases h

theorem connect_of_ok {host : AudioHost} (hdrops : host.library.Drops) {p : Pipeline}
    {audio : AudioConfig} {o : OutputDevice} (h : (connect host p audio).2 = .ok o) :
    (connect host p audio).1.renderers = p.renderers + 1 ∧ o.stream.library.Drops := by
  rcases connect_cases host hdrops p audio with ⟨_, heq⟩ | ⟨_, _, heq, hlibrary⟩
  · rw [heq] at h
    cases h
  · rw [heq] at h ⊢
    cases h
    exact ⟨rfl, hlibrary ▸ hdrops⟩

theorem renderers_close {o : OutputDevice} (h : o.stream.library.Drops) (p : Pipeline) :
    (o.close p).renderers = p.renderers - 1 := by
  rw [close, Pipeline.release_of_dropped _ h.withStream]
  rfl

theorem renderers_callback (o : OutputDevice) (p : Pipeline) (buffer : List DeviceSample) :
    (o.callback p buffer).2.2.renderers = p.renderers :=
  p.renderers_render _ _

end OutputDevice

/-! ## Sessions -/

/-- What happens to the sound of an instance and to the devices that play it. -/
inductive OutputStep where
  /-- What is done without devices; renderers of others may come and go. -/
  | sound (s : SoundStep)
  | connect (host : AudioHost) (audio : AudioConfig)
  | close (device : Nat)
  | callback (device : Nat) (buffer : List DeviceSample)

/-- What a step opens is run by a library that drops callbacks. -/
def OutputStep.Drops : OutputStep → Prop
  | .connect host _ => host.library.Drops
  | _ => True

/-- The sound of an instance, and the devices open for it. -/
structure OutputSession where
  sound : SoundSession
  devices : List OutputDevice := []

namespace OutputSession

def new (p : Pipeline) (mute : MuteState) : OutputSession := { sound := { pipeline := p, mute } }

def pipeline (s : OutputSession) : Pipeline := s.sound.pipeline

def connect (s : OutputSession) (host : AudioHost) (audio : AudioConfig) : OutputSession :=
  let (pipeline, opened) := OutputDevice.connect host s.pipeline audio
  { s with sound.pipeline := pipeline, devices := s.devices ++ opened.toOption.toList }

def close (s : OutputSession) (device : Nat) : OutputSession :=
  match s.devices[device]? with
  | none => s
  | some o => { s with sound.pipeline := o.close s.pipeline, devices := s.devices.eraseIdx device }

def callback (s : OutputSession) (device : Nat) (buffer : List DeviceSample) : OutputSession :=
  match s.devices[device]? with
  | none => s
  | some o =>
    let (_, o, pipeline) := o.callback s.pipeline buffer
    { s with sound.pipeline := pipeline, devices := s.devices.set device o }

def step (s : OutputSession) : OutputStep → OutputSession
  | .sound (.flow f) => { s with sound := s.sound.move f }
  | .sound (.hearing h) => { s with sound := s.sound.hear h }
  | .connect host audio => s.connect host audio
  | .close device => s.close device
  | .callback device buffer => s.callback device buffer

def run (s : OutputSession) (steps : List OutputStep) : OutputSession := steps.foldl step s

/-- Beside some that were there before, there is a renderer for each device that is open and for each of
the others that has come. -/
structure Counted (before : Nat) (s : OutputSession) : Prop where
  count : s.pipeline.renderers = before + s.sound.renderers.length + s.devices.length
  drops : ∀ o ∈ s.devices, o.stream.library.Drops

variable {before : Nat} {s : OutputSession}

theorem counted_new (p : Pipeline) (mute : MuteState) : (new p mute).Counted p.renderers where
  count := rfl
  drops := by
    intro o ho
    cases ho

theorem Counted.hear (h : s.Counted before) (hearing : Hearing) :
    { s with sound := s.sound.hear hearing }.Counted before := by
  refine ⟨?_, h.drops⟩
  cases hearing <;> exact h.count

theorem Counted.move (h : s.Counted before) (f : Flow) :
    { s with sound := s.sound.move f }.Counted before := by
  refine ⟨?_, h.drops⟩
  have hcount : s.sound.pipeline.renderers = before + s.sound.renderers.length + s.devices.length :=
    h.count
  cases f with
  | attach rate =>
    show s.sound.pipeline.renderers + 1 = before + (s.sound.renderers ++ [_]).length + s.devices.length
    rw [List.length_append, List.length_singleton]
    omega
  | detach renderer =>
    show (s.sound.dismiss renderer).pipeline.renderers =
      before + (s.sound.dismiss renderer).renderers.length + s.devices.length
    unfold SoundSession.dismiss
    split
    case isTrue hthere =>
      show s.sound.pipeline.renderers - 1 =
        before + (s.sound.renderers.eraseIdx renderer).length + s.devices.length
      rw [List.length_eraseIdx, if_pos hthere]
      omega
    case isFalse => exact hcount
  | render renderer length =>
    show (s.sound.callback renderer length).pipeline.renderers =
      before + (s.sound.callback renderer length).renderers.length + s.devices.length
    unfold SoundSession.callback
    split
    case h_1 => exact hcount
    case h_2 r _ =>
      show (s.sound.pipeline.render r length).2.2.renderers =
        before + (s.sound.renderers.set renderer _).length + s.devices.length
      rw [Pipeline.renderers_render, List.length_set, hcount]
  | push frames => exact hcount
  | clear => exact hcount
  | enable => exact hcount
  | disable => exact hcount

theorem connect_of_error {host : AudioHost} (hdrops : host.library.Drops) {audio : AudioConfig}
    {e : DeviceError} (h : (OutputDevice.connect host s.pipeline audio).2 = .error e) :
    s.connect host audio = s := by
  have hsame := OutputDevice.connect_of_error hdrops h
  unfold connect
  dsimp only
  rw [hsame, h, Except.toOption, Option.toList_none, List.append_nil]
  rfl

theorem devices_connect_of_ok {host : AudioHost} {audio : AudioConfig} {o : OutputDevice}
    (h : (OutputDevice.connect host s.pipeline audio).2 = .ok o) :
    (s.connect host audio).devices = s.devices ++ [o] := by
  show s.devices ++ (OutputDevice.connect host s.pipeline audio).2.toOption.toList = s.devices ++ [o]
  rw [h]
  rfl

theorem Counted.connect (h : s.Counted before) {host : AudioHost} (hdrops : host.library.Drops)
    (audio : AudioConfig) : (s.connect host audio).Counted before := by
  cases hopened : (OutputDevice.connect host s.pipeline audio).2 with
  | error e =>
    rw [connect_of_error hdrops hopened]
    exact h
  | ok o =>
    obtain ⟨hattached, ho⟩ := OutputDevice.connect_of_ok hdrops hopened
    have hdevices : (s.connect host audio).devices = s.devices ++ [o] := devices_connect_of_ok hopened
    constructor
    case count =>
      show (OutputDevice.connect host s.pipeline audio).1.renderers =
        before + s.sound.renderers.length + (s.connect host audio).devices.length
      rw [hattached, hdevices, List.length_append, List.length_singleton, h.count]
      omega
    case drops =>
      rw [hdevices]
      intro o' ho'
      rcases List.mem_append.mp ho' with hold | hnew
      · exact h.drops o' hold
      · rw [List.mem_singleton.mp hnew]
        exact ho

theorem Counted.close (h : s.Counted before) (device : Nat) : (s.close device).Counted before := by
  unfold OutputSession.close
  split
  case h_1 => exact h
  case h_2 o ho =>
    obtain ⟨hthere, hmem⟩ := List.getElem?_eq_some_iff.mp ho
    have hdrops : o.stream.library.Drops := h.drops o (hmem ▸ List.getElem_mem hthere)
    constructor
    case count =>
      show (o.close s.pipeline).renderers =
        before + s.sound.renderers.length + (s.devices.eraseIdx device).length
      rw [OutputDevice.renderers_close hdrops, h.count, List.length_eraseIdx, if_pos hthere]
      omega
    case drops => exact fun o' ho' => h.drops o' (List.mem_of_mem_eraseIdx ho')

theorem Counted.callback (h : s.Counted before) (device : Nat) (buffer : List DeviceSample) :
    (s.callback device buffer).Counted before := by
  unfold OutputSession.callback
  split
  case h_1 => exact h
  case h_2 o ho =>
    obtain ⟨hthere, hmem⟩ := List.getElem?_eq_some_iff.mp ho
    constructor
    case count =>
      show (o.callback s.pipeline buffer).2.2.renderers =
        before + s.sound.renderers.length + (s.devices.set device _).length
      rw [OutputDevice.renderers_callback, h.count, List.length_set]
    case drops =>
      intro o' ho'
      rcases List.mem_or_eq_of_mem_set ho' with hold | rfl
      · exact h.drops o' hold
      · exact h.drops o (hmem ▸ List.getElem_mem hthere)

theorem Counted.step (h : s.Counted before) {e : OutputStep} (hdrops : e.Drops) :
    (s.step e).Counted before := by
  cases e with
  | sound e =>
    cases e with
    | flow f => exact h.move f
    | hearing hearing => exact h.hear hearing
  | connect host audio => exact h.connect hdrops audio
  | close device => exact h.close device
  | callback device buffer => exact h.callback device buffer

theorem Counted.run (h : s.Counted before) {steps : List OutputStep} (hdrops : ∀ e ∈ steps, e.Drops) :
    (s.run steps).Counted before := by
  induction steps generalizing s with
  | nil => exact h
  | cons e rest ih =>
    obtain ⟨hfirst, hrest⟩ := List.forall_mem_cons.mp hdrops
    exact ih (h.step hfirst) hrest

/-- **For each device that is open there is a renderer, and none for one that could not be opened.** This
is so in every session, provided that callbacks are dropped with their streams. An attempt that fails,
whatever step it fails at, leaves everything as it was, and so whether the producer may go on; one that
succeeds adds a device and a renderer, which is taken away when the device is closed. Where no renderer was
attached otherwise, the producer waits only while a device is open. -/
theorem renderers_follow_devices (p : Pipeline) (mute : MuteState) {steps : List OutputStep}
    (hsteps : ∀ e ∈ steps, e.Drops) {host : AudioHost} (hdrops : host.library.Drops)
    (audio : AudioConfig) :
    let s := (new p mute).run steps
    let opened := OutputDevice.connect host s.pipeline audio
    s.pipeline.renderers = p.renderers + s.sound.renderers.length + s.devices.length ∧
      (∀ e, opened.2 = .error e → opened.1 = s.pipeline ∧ s.step (.connect host audio) = s) ∧
      (∀ o, opened.2 = .ok o → opened.1.renderers = s.pipeline.renderers + 1 ∧
        (o.close opened.1).renderers = s.pipeline.renderers ∧
        (s.step (.connect host audio)).devices = s.devices ++ [o]) ∧
      (p.renderers = 0 → s.sound.renderers = [] → s.pipeline.sync = false → s.devices ≠ []) := by
  intro s opened
  have hcounted : s.Counted p.renderers := (counted_new p mute).run hsteps
  refine ⟨hcounted.count, ?_, ?_, ?_⟩
  · intro e he
    exact ⟨OutputDevice.connect_of_error hdrops he, connect_of_error hdrops he⟩
  · intro o ho
    obtain ⟨hattached, hlibrary⟩ := OutputDevice.connect_of_ok hdrops ho
    refine ⟨hattached, ?_, devices_connect_of_ok ho⟩
    rw [OutputDevice.renderers_close hlibrary, hattached, Nat.add_sub_cancel]
  · intro hbefore hothers hwaits hclosed
    have hnone : s.pipeline.renderers = 0 := by
      rw [hcounted.count, hbefore, hothers, hclosed]
      rfl
    rw [Pipeline.sync_of_no_renderer hnone] at hwaits
    cases hwaits

/-- There is no device, its shape cannot be told, its format is not supported, its stream cannot be built,
or cannot be started: nobody holds a renderer. Then a device is opened. -/
theorem renderers_follow_devices_of_failures :
    let shape : StreamShape := { channels := 2, rate := 48000, format := .f32 }
    let device : AudioDevice := { name := none, default := .ok shape, configs := .ok [] }
    let failing : List AudioHost :=
      [{}, { output := some { device with default := .error "gone" } },
        { output := some { device with default := .ok { shape with format := .f64 } } },
        { output := some { device with buildError := some "busy" } },
        { output := some { device with playError := some "lost" } }]
    let steps : List OutputStep := failing.map fun host => .connect host {}
    let host : AudioHost := { output := some device }
    let s := (new (.new 0 {} {} {}) {}).run steps
    ((∀ e ∈ steps, e.Drops) ∧ host.library.Drops) ∧ s.pipeline.renderers = 0 ∧
      (OutputDevice.connect host s.pipeline {}).1.renderers = 1 := by
  intro shape device failing steps host s
  have hsteps : ∀ e ∈ steps, e.Drops := by
    intro e he
    obtain ⟨h, hh, rfl⟩ := List.mem_map.mp he
    have hlibrary : h.library = {} := by
      simp only [failing, List.mem_cons, List.not_mem_nil, or_false] at hh
      rcases hh with rfl | rfl | rfl | rfl | rfl <;> rfl
    exact ⟨by rw [hlibrary], by rw [hlibrary]⟩
  have hdrops : host.library.Drops := ⟨rfl, rfl⟩
  obtain ⟨hcount, -, hopened, -⟩ := renderers_follow_devices (.new 0 {} {} {}) {} hsteps hdrops {}
  have hnone : s.pipeline.renderers = 0 := hcount
  refine ⟨⟨hsteps, hdrops⟩, hnone, ?_⟩
  rw [(hopened _ rfl).1]
  exact congrArg (· + 1) hnone

end OutputSession

end Handheld
