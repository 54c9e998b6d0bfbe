import Handheld.Proofs.Machine.Calls
import Handheld.Proofs.Machine.Carrying

/-!
# Frames of the tone machine

A frame puts out its samples (`sound`) and is counted then. Playing samples depends on the place in the wave,
the pitch and the microphone only (`play_with`), and changes nothing but the place and the output.
-/

namespace Handheld

/-- A factory makes this machine, for some ROM or for none. -/
def Factory.Makes {F M : Type} [Factory F M] (f : F) (m : M) : Prop :=
  (∃ rom, (Factory.bootRom f rom).machine = .ok m) ∨ (Factory.bootFirmware f).machine = .ok m

theorem ToneFactory.eq_build_of_makes {f : ToneFactory} {m : ToneMachine} (h : Factory.Makes f m) :
    ∃ pitch, m = f.build pitch := by
  rcases h with ⟨rom, hrom⟩ | hfirmware
  · have hbuilt : f.bootRom rom = .ok m := hrom
    unfold ToneFactory.bootRom at hbuilt
    split at hbuilt
    · cases hbuilt
    · exact ⟨_, (Except.ok.inj hbuilt).symm⟩
  · exact ⟨_, (Except.ok.inj hfirmware).symm⟩

namespace ToneMachine

theorem play_with (silent : Bool) (n : ℕ) (m : ToneMachine) (fps frame : UInt64) (carry : Float)
    (save : Bytes) :
    play silent n { m with fps, carry, frame, save } = { play silent n m with fps, carry, frame, save } := by
  induction n generalizing m with
  | zero => rfl
  | succ n ih =>
    exact ih { m with output := m.output.push ⟨m.level silent, m.level silent⟩, phase := m.nextPhase }

theorem size_output_play (silent : Bool) (n : ℕ) (m : ToneMachine) :
    (play silent n m).output.size = m.output.size + n := by
  induction n generalizing m with
  | zero => rfl
  | succ n ih =>
    rw [play, ih, Array.size_push]
    omega

theorem play_keeps (silent : Bool) (n : ℕ) (m : ToneMachine) :
    ∃ phase output, play silent n m = { m with phase, output } := by
  induction n generalizing m with
  | zero => exact ⟨_, _, rfl⟩
  | succ n ih =>
    obtain ⟨phase, output, h⟩ :=
      ih { m with output := m.output.push ⟨m.level silent, m.level silent⟩, phase := m.nextPhase }
    exact ⟨phase, output, h⟩

/-- A machine with the sound of a frame put out, before the frame is counted. -/
def sound (m : ToneMachine) (input : FrameInput) : ToneMachine :=
  play (input.keys ≠ keysReleased) (frameLength m.samplesPerFrame m.carry)
    { m with carry := carryOver m.samplesPerFrame m.carry }

theorem sound_spec (m : ToneMachine) (input : FrameInput) :
    ∃ phase output, output.size = m.output.size + frameLength m.samplesPerFrame m.carry ∧
      m.sound input = { m with phase, carry := carryOver m.samplesPerFrame m.carry, output } := by
  obtain ⟨phase, output, hplay⟩ := play_keeps (input.keys ≠ keysReleased)
    (frameLength m.samplesPerFrame m.carry) { m with carry := carryOver m.samplesPerFrame m.carry }
  have hsize := size_output_play (input.keys ≠ keysReleased) (frameLength m.samplesPerFrame m.carry)
    { m with carry := carryOver m.samplesPerFrame m.carry }
  rw [hplay] at hsize
  exact ⟨phase, output, hsize, hplay⟩

theorem machine_count (m : ToneMachine) :
    ∃ save, save.size = m.save.size ∧ m.count.machine = { m with frame := m.frame + 1, save } := by
  unfold count
  dsimp only
  split
  · exact ⟨_, Array.size_modify, rfl⟩
  · exact ⟨_, rfl, rfl⟩

theorem on_runFrame (m : ToneMachine) (input : FrameInput) :
    Call.on m (.runFrame input) = (m.sound input).count.silent := rfl

theorem runFrame_spec (m : ToneMachine) (input : FrameInput) :
    ∃ phase output save, output.size = m.output.size + frameLength m.samplesPerFrame m.carry ∧
      save.size = m.save.size ∧ (Call.on m (.runFrame input)).machine =
        { m with phase, carry := carryOver m.samplesPerFrame m.carry, frame := m.frame + 1, output, save } := by
  obtain ⟨phase, output, hsize, hsound⟩ := m.sound_spec input
  obtain ⟨save, hsave, hcount⟩ := (m.sound input).machine_count
  rw [hsound] at hsave hcount
  exact ⟨phase, output, save, hsize, hsave, by rw [on_runFrame, Outcome.machine_silent, hsound, hcount]⟩

end ToneMachine

end Handheld
