import Handheld.Proofs.Machine.Frames
import Handheld.Proofs.Machine.Savestates

/-!
# What a restored tone machine sounds like

A savestate has the counter and the phase, but not what the last frame left of a sample. Machines that
differ in this carry, in their counters and in their saves only (`Tuned`) play the same wave from the same
place. They sound alike for ever exactly if their frames to come have as many samples
(`Tuned.soundAlike_iff`). `restored_sounds_alike_iff` says so of a machine after any frames and of a fresh
one that its savestate was loaded into, and how many frames these may be.
-/

namespace Handheld.ToneMachine

open Binary64

/-! ## Machines that play the same wave -/

/-- They play the same wave from the same place and have put out the same; what they carry over, count and
save may differ. -/
def Tuned (a b : ToneMachine) : Prop := ∃ fps carry frame save, b = { a with fps, carry, frame, save }

/-- So have their frames to come as many samples. -/
structure Together (a b : ToneMachine) : Prop where
  tuned : Tuned a b
  samples (k : ℕ) : samplesIn a.samplesPerFrame a.carry k = samplesIn b.samplesPerFrame b.carry k

variable {a b : ToneMachine}

theorem Together.runFrame (h : Together a b) (input : FrameInput) :
    Together (Call.on a (.runFrame input)).machine (Call.on b (.runFrame input)).machine := by
  obtain ⟨⟨fps, carry, frame, save, rfl⟩, hsamples⟩ := h
  -- as many samples in this frame, so the same wave is played from the same place
  have hlength : frameLength a.samplesPerFrame carry = frameLength a.samplesPerFrame a.carry :=
    (hsamples 1).symm
  obtain ⟨phase, output, -, hsound⟩ := a.sound_spec input
  have hsound' : sound { a with fps, carry, frame, save } input =
      { a.sound input with fps, carry := carryOver a.samplesPerFrame carry, frame, save } := by
    unfold sound
    dsimp only
    rw [hlength, ← play_with]
  obtain ⟨_, -, ha⟩ := (a.sound input).machine_count
  obtain ⟨_, -, hb⟩ := (sound { a with fps, carry, frame, save } input).machine_count
  rw [on_runFrame, on_runFrame, Outcome.machine_silent, Outcome.machine_silent, ha, hb, hsound', hsound]
  refine ⟨⟨_, _, _, _, rfl⟩, fun k => ?_⟩
  have hnext := hsamples (k + 1)
  simp only [samplesIn, hlength] at hnext
  exact Nat.add_left_cancel hnext

theorem Together.on (h : Together a b) (call : Call) :
    (call.on a).answer = (call.on b).answer ∧ Together (call.on a).machine (call.on b).machine := by
  cases call with
  | runFrame input =>
    have hanswer (m : ToneMachine) : (Call.on m (.runFrame input)).answer = [] := Outcome.answer_silent _
    exact ⟨(hanswer a).trans (hanswer b).symm, h.runFrame input⟩
  | loadState data =>
    obtain ⟨⟨fps, carry, frame, save, rfl⟩, hsamples⟩ := h
    by_cases hsize : data.size = toneStateLength
    · simp only [Call.on, loadState_of_size hsize, Outcome.answer_silent, Outcome.machine_silent]
      exact ⟨trivial, ⟨_, _, _, _, rfl⟩, hsamples⟩
    · simp only [Call.on, loadState_of_size_ne hsize, Outcome.answer_silent, Outcome.machine_silent]
      exact ⟨trivial, ⟨_, _, _, _, rfl⟩, hsamples⟩
  | reset =>
    obtain ⟨⟨fps, carry, frame, save, rfl⟩, -⟩ := h
    exact ⟨rfl, ⟨_, _, _, _, rfl⟩, fun _ => rfl⟩
  | start | stop | hearMic | readOutput | saveState | insertCart | ejectCart | importSave | setCheats =>
    obtain ⟨⟨fps, carry, frame, save, rfl⟩, hsamples⟩ := h
    exact ⟨rfl, ⟨_, _, _, _, rfl⟩, hsamples⟩

theorem Together.soundAlike (h : Together a b) : Machine.SoundAlike a b := by
  intro calls
  induction calls generalizing a b with
  | nil => rfl
  | cons call calls ih =>
    obtain ⟨hanswer, hnext⟩ := h.on call
    rw [Machine.sounds, Machine.sounds, hanswer, ih hnext]

/-! ## Listening to the number of samples -/

theorem output_eq_of_soundAlike (h : Machine.SoundAlike a b) : a.output = b.output := by
  have hread : [(a.output.extract 0 (max a.output.size b.output.size)).toList] =
      [(b.output.extract 0 (max a.output.size b.output.size)).toList] :=
    h [.readOutput (max a.output.size b.output.size) 0]
  rw [Array.extract_eq_self_of_le (le_max_left _ _), Array.extract_eq_self_of_le (le_max_right _ _)] at hread
  exact Array.toList_inj.mp (List.singleton_inj.mp hread)

theorem outputLength_readOutput (m : ToneMachine) (room : ℕ) :
    Machine.outputLength (Machine.readOutput m room).machine = m.output.size - room := by
  show (m.output.extract (min room m.output.size) m.output.size).size = _
  rw [Array.size_extract]
  omega

theorem size_output_frames (m : ToneMachine) (k : ℕ) :
    (Machine.after m (List.replicate k (.runFrame {}))).output.size =
      m.output.size + samplesIn m.samplesPerFrame m.carry k := by
  induction k generalizing m with
  | zero => rfl
  | succ k ih =>
    obtain ⟨phase, output, save, hsize, -, hframe⟩ := m.runFrame_spec {}
    rw [List.replicate_succ, Machine.after_cons, ih, hframe]
    simp only [hsize, samplesIn, Nat.add_assoc]

/-- Machines that play the same wave sound alike exactly if their frames to come have as many samples. -/
theorem Tuned.soundAlike_iff (h : Tuned a b) :
    Machine.SoundAlike a b ↔
      ∀ k, samplesIn a.samplesPerFrame a.carry k = samplesIn b.samplesPerFrame b.carry k := by
  refine ⟨fun halike k => ?_, fun hsamples => Together.soundAlike ⟨h, hsamples⟩⟩
  have hsize := congrArg Array.size (output_eq_of_soundAlike (halike.after (List.replicate k (.runFrame {}))))
  rw [size_output_frames, size_output_frames, output_eq_of_soundAlike halike] at hsize
  exact Nat.add_left_cancel hsize

/-! ## From a boot on -/

/-- Playing on without a microphone: no reset, no savestate, no other cartridge. -/
def PlaysOn : Call → Prop
  | .reset | .hearMic (some _) | .loadState _ | .insertCart _ | .ejectCart => False
  | _ => True

theorem machine_on {m : ToneMachine} (hmic : m.micLevel = 0) {call : Call} (hplays : PlaysOn call) :
    ∃ phase frame output save, (call.on m).machine =
      { m with phase, carry := carryAfter m.samplesPerFrame m.carry (framesIn [call]), frame, output, save } := by
  cases call with
  | runFrame input =>
    obtain ⟨phase, output, save, -, -, hframe⟩ := m.runFrame_spec input
    exact ⟨phase, _, output, save, hframe⟩
  | hearMic signal =>
    cases signal with
    | none =>
      refine ⟨m.phase, m.frame, m.output, m.save, ?_⟩
      rw [hmic]
      rfl
    | some samples => exact hplays.elim
  | reset | loadState | insertCart | ejectCart => exact hplays.elim
  | start | stop | readOutput | saveState | importSave | setCheats => exact ⟨_, _, _, _, rfl⟩

theorem after_plays {m : ToneMachine} (hmic : m.micLevel = 0) {calls : List Call}
    (hplays : ∀ call ∈ calls, PlaysOn call) :
    ∃ phase frame output save, Machine.after m calls =
      { m with phase, carry := carryAfter m.samplesPerFrame m.carry (framesIn calls), frame, output, save } := by
  induction calls generalizing m with
  | nil => exact ⟨_, _, _, _, rfl⟩
  | cons call calls ih =>
    obtain ⟨phase, frame, output, save, hon⟩ := machine_on hmic (hplays call List.mem_cons_self)
    have hcarry : carryAfter m.samplesPerFrame m.carry (framesIn (call :: calls)) =
        carryAfter m.samplesPerFrame (carryAfter m.samplesPerFrame m.carry (framesIn [call]))
          (framesIn calls) := by
      rw [framesIn_cons]
      exact Function.iterate_add_apply _ _ _ _
    obtain ⟨phase', frame', output', save', hlater⟩ :=
      ih (m := (call.on m).machine) (by rw [hon]; exact hmic) fun c hc => hplays c (List.mem_cons_of_mem call hc)
    refine ⟨phase', frame', output', save', ?_⟩
    rw [hcarry]
    show Machine.after (call.on m).machine calls = _
    rw [hlater, hon]

section
variable {f : ToneFactory} {rom : Rom} {fresh : ToneMachine} {calls : List Call}

/-- A fresh machine takes over the savestate of one that has played on and was drained, and plays the same
wave; it has nothing left of a sample. -/
theorem tuned_restored (hboot : (Factory.bootRom f rom).machine = .ok fresh)
    (hplays : ∀ call ∈ calls, PlaysOn call) (hdrained : Machine.outputLength (Machine.after fresh calls) = 0) :
    ∃ state restored, (Machine.saveState (Machine.after fresh calls)).answer = .ok state ∧
      Machine.loadState fresh state = { machine := restored, answer := .ok () } ∧
      Tuned (Machine.after fresh calls) restored ∧
      (Machine.after fresh calls).samplesPerFrame = fresh.samplesPerFrame ∧
      (Machine.after fresh calls).carry = carryAfter fresh.samplesPerFrame 0 (framesIn calls) ∧
      restored.samplesPerFrame = fresh.samplesPerFrame ∧ restored.carry = 0 := by
  obtain ⟨pitch, rfl⟩ := ToneFactory.eq_build_of_makes (.inl ⟨rom, hboot⟩)
  obtain ⟨phase, frame, output, save, hafter⟩ := after_plays (m := f.build pitch) rfl hplays
  rw [hafter] at hdrained ⊢
  obtain rfl : output = #[] := Array.size_eq_zero_iff.mp hdrained
  exact ⟨_, _, rfl, loadState_of_ok (decodeState_encodeState _ _), ⟨_, _, _, _, rfl⟩, rfl, rfl, rfl, rfl⟩

/-- After any frames since a boot, with no microphone and the output drained, a savestate can be loaded into
a fresh machine of the same ROM. The two sound alike, whatever is then done with both, exactly if the frames
to come have as many samples without what the frames so far have left of one. At rates at which no bit of a
carry is rounded away, that is the case exactly if a whole number of samples was due so far. -/
theorem restored_sounds_alike_iff (hboot : (Factory.bootRom f rom).machine = .ok fresh)
    (hplays : ∀ call ∈ calls, PlaysOn call) (hdrained : Machine.outputLength (Machine.after fresh calls) = 0) :
    ∃ state restored, (Machine.saveState (Machine.after fresh calls)).answer = .ok state ∧
      Machine.loadState fresh state = { machine := restored, answer := .ok () } ∧
      (Machine.SoundAlike (Machine.after fresh calls) restored ↔
        ∀ k, samplesIn fresh.samplesPerFrame (carryAfter fresh.samplesPerFrame 0 (framesIn calls)) k =
          samplesIn fresh.samplesPerFrame 0 k) ∧
      ∀ e q, Denotes fresh.samplesPerFrame q → Roomy e q →
        (Machine.SoundAlike (Machine.after fresh calls) restored ↔ ∃ z : ℤ, framesIn calls * q = z) := by
  obtain ⟨state, restored, hsave, hload, htuned, hrate, hcarry, hrate', hcarry'⟩ :=
    tuned_restored hboot hplays hdrained
  have hiff := htuned.soundAlike_iff
  rw [hrate, hcarry, hrate', hcarry'] at hiff
  exact ⟨state, restored, hsave, hload, hiff, fun e q hdenotes hroomy =>
    hiff.trans (samplesIn_eq_iff hdenotes hroomy (framesIn calls))⟩

end

/-! ## Five samples in two frames -/

def fiveInTwo : ToneFactory := ⟨Scalar.floatOfWord 150, Scalar.floatOfWord 60⟩

def smallRom : Rom := ⟨#[1], ⟨['a']⟩⟩

/-- A machine that plays five samples in two frames. -/
def limping : ToneMachine := fiveInTwo.build (pitchOf smallRom.data)

def drainedFrames (k : ℕ) : List Call := List.replicate k (.runFrame {}) ++ [.readOutput (5 * k) 0]

theorem denotes_limping : Denotes limping.samplesPerFrame (5 / 2) := by
  have hrate : Denotes (Scalar.floatOfWord 150) (150 : ℕ) := Scalar.denotes_floatOfWord_of_lt (by norm_num)
  have hfps : Denotes (Scalar.floatOfWord 60) (60 : ℕ) := Scalar.denotes_floatOfWord_of_lt (by norm_num)
  have hvalue : ((150 : ℕ) : ℚ) / (60 : ℕ) = 5 / 2 := by norm_num
  have hexact : Representable (((150 : ℕ) : ℚ) / (60 : ℕ)) := by
    have hhalf : Representable ((5 : ℤ) / 2) := representable_half (by norm_num)
    rwa [hvalue, ← Int.cast_ofNat]
  obtain ⟨r, hr, hfaithful⟩ := hrate.div hfps (by norm_num)
    (le_trans (by norm_num) (two_pow_le_limit (n := 2) (by norm_num)))
  rw [hfaithful.eq hexact, hvalue] at hr
  exact hr

theorem roomy_limping : Roomy 1 (5 / 2) := ⟨by norm_num, by norm_num, by norm_num⟩

theorem plays_drainedFrames (k : ℕ) : ∀ call ∈ drainedFrames k, PlaysOn call := by
  intro call hcall
  rcases List.mem_append.mp hcall with hframe | hread
  · rw [List.eq_of_mem_replicate hframe]
    trivial
  · rw [List.mem_singleton.mp hread]
    trivial

theorem outputLength_drainedFrames (k : ℕ) :
    Machine.outputLength (Machine.after limping (drainedFrames k)) = 0 := by
  have hsamples : (samplesIn limping.samplesPerFrame limping.carry k : ℤ) = ⌊(0 : ℚ) + k * (5 / 2)⌋ :=
    (carries_zero 1).samplesIn_eq denotes_limping roomy_limping k
  have hsize : (Machine.after limping (List.replicate k (.runFrame {}))).output.size =
      0 + samplesIn limping.samplesPerFrame limping.carry k := size_output_frames limping k
  have hfloor : ⌊(0 : ℚ) + k * (5 / 2)⌋ ≤ 5 * k := by
    refine Int.floor_le_iff.mpr ?_
    push_cast
    linarith [k.cast_nonneg (α := ℚ)]
  rw [drainedFrames, Machine.after_append]
  refine (outputLength_readOutput _ _).trans ?_
  omega

/-- Two frames leave nothing of a sample. -/
theorem restored_sounds_alike_of_two_frames :
    (Factory.bootRom fiveInTwo smallRom).machine = .ok limping ∧
      ∃ state restored, (Machine.saveState (Machine.after limping (drainedFrames 2))).answer = .ok state ∧
        Machine.loadState limping state = { machine := restored, answer := .ok () } ∧
        Machine.SoundAlike (Machine.after limping (drainedFrames 2)) restored := by
  have hboot : (Factory.bootRom fiveInTwo smallRom).machine = .ok limping := rfl
  obtain ⟨state, restored, hsave, hload, -, hiff⟩ :=
    restored_sounds_alike_iff hboot (plays_drainedFrames 2) (outputLength_drainedFrames 2)
  refine ⟨hboot, state, restored, hsave, hload, (hiff 1 (5 / 2) denotes_limping roomy_limping).mpr ⟨5, ?_⟩⟩
  rw [show framesIn (drainedFrames 2) = 2 from rfl]
  norm_num

/-- One frame leaves half a sample, which the savestate does not have: the machine plays three samples next,
and the one that took over its savestate plays two. -/
theorem carry_is_not_saved :
    (Factory.bootRom fiveInTwo smallRom).machine = .ok limping ∧ (∀ call ∈ drainedFrames 1, PlaysOn call) ∧
      Machine.outputLength (Machine.after limping (drainedFrames 1)) = 0 ∧
      ∃ state restored, (Machine.saveState (Machine.after limping (drainedFrames 1))).answer = .ok state ∧
        Machine.loadState limping state = { machine := restored, answer := .ok () } ∧
        ¬Machine.SoundAlike (Machine.after limping (drainedFrames 1)) restored := by
  have hboot : (Factory.bootRom fiveInTwo smallRom).machine = .ok limping := rfl
  obtain ⟨state, restored, hsave, hload, htuned, hrate, hcarry, hrate', hcarry'⟩ :=
    tuned_restored hboot (plays_drainedFrames 1) (outputLength_drainedFrames 1)
  refine ⟨hboot, plays_drainedFrames 1, outputLength_drainedFrames 1, state, restored, hsave, hload,
    fun halike => ?_⟩
  have hsamples := htuned.soundAlike_iff.mp halike
  rw [hrate, hcarry, hrate', hcarry'] at hsamples
  obtain ⟨z, hz⟩ := (samplesIn_eq_iff denotes_limping roomy_limping 1).mp hsamples
  have hodd : (5 : ℤ) = 2 * z := by
    have hdouble : (5 : ℚ) = 2 * z := by linarith
    exact_mod_cast hdouble
  omega

end Handheld.ToneMachine
