import Handheld.Config.Disk
import Handheld.Proofs.Binary64.Arithmetic
import Handheld.Proofs.Text.Utf8

/-!
# Usable configurations

Whatever a file says, volume, buffer size and frequency are in range once it has been read. A rate that is
zero or less is replaced by the default. One that is not a number, or infinite, is not less than anything
and stays. So what is read can be used exactly if the file gives neither of its rates as such a value, and
in any case there is nothing left to repair (`read_configuration_usable_iff`).
-/

namespace Handheld

open Float.Model Binary64

/-! ## Rates -/

/-- A rate that something can run at. -/
structure IsRate (x : Float) : Prop where
  finite : x.isFinite = true
  positive : 0 < x

/-- No rate, and yet not too small for one. -/
def PassesForRate (x : Float) : Prop := x.isNaN = true ∨ x.isInf = true ∧ 0 < x

theorem isRate_iff (x : Float) : IsRate x ↔ x.isFinite = true ∧ 0 < x :=
  ⟨fun h => ⟨h.finite, h.positive⟩, fun h => ⟨h.1, h.2⟩⟩

/-- Zero is compared with the sign of a number. -/
theorem isRate_of_not_nonpos {x : Float} (h : ¬x ≤ 0) : IsRate x ↔ ¬PassesForRate x := by
  have hzero : (0 : Float).toModel.unpack = .zero .positive := rfl
  rw [le_iff_compare, hzero] at h
  rw [isRate_iff, PassesForRate, lt_iff_compare, hzero]
  show x.toModel.unpack.isFinite = true ∧ _ ↔
    ¬(x.toModel.unpack.isNaN = true ∨ x.toModel.unpack.isInf = true ∧ _)
  cases hx : x.toModel.unpack with
  | infinity s => cases s <;> simp_all [UnpackedFloat.isFinite, UnpackedFloat.isInf, UnpackedFloat.compare]
  | notANumber => simp [UnpackedFloat.isFinite, UnpackedFloat.isNaN]
  | zero s => simp_all [UnpackedFloat.compare]
  | finite s m e hm =>
    cases s <;>
      simp_all [UnpackedFloat.isFinite, UnpackedFloat.isNaN, UnpackedFloat.isInf, UnpackedFloat.compare]

theorem not_passesForRate_of_nonpos {x : Float} (h : x ≤ 0) : ¬PassesForRate x := by
  have hzero : (0 : Float).toModel.unpack = .zero .positive := rfl
  rw [le_iff_compare, hzero] at h
  rw [PassesForRate, lt_iff_compare, hzero]
  show ¬(x.toModel.unpack.isNaN = true ∨ x.toModel.unpack.isInf = true ∧ _)
  cases hx : x.toModel.unpack with
  | infinity s => cases s <;> simp_all [UnpackedFloat.isNaN, UnpackedFloat.compare]
  | notANumber => simp_all [UnpackedFloat.compare]
  | zero s => simp [UnpackedFloat.isNaN, UnpackedFloat.isInf]
  | finite s m e hm => simp [UnpackedFloat.isNaN, UnpackedFloat.isInf]

theorem isRate_repaired {default : Float} (hdefault : IsRate default) (x : Float) :
    IsRate (if x ≤ 0 then default else x) ↔ ¬PassesForRate x := by
  split
  · next h => exact iff_of_true hdefault (not_passesForRate_of_nonpos h)
  · next h => exact isRate_of_not_nonpos h

theorem not_nonpos_repaired {default : Float} (hdefault : ¬default ≤ 0) (x : Float) :
    ¬(if x ≤ 0 then default else x) ≤ 0 := by
  split
  · exact hdefault
  · next h => exact h

namespace Config

/-- Everything in range: what the audio path and the worker rely on. -/
structure IsUsable (c : Config) : Prop where
  volume : c.audio.volume ≤ maxVolume
  bufferSize : 0 < c.audio.bufferSize
  frequency : 0 < c.audio.frequency
  targetFps : IsRate c.emu.targetFps
  coreSampleRate : IsRate c.emu.coreSampleRate

theorem min_maxVolume_le (v : UInt16) : min v maxVolume ≤ maxVolume := by
  show (if v ≤ maxVolume then v else maxVolume) ≤ _
  split
  · next h => exact h
  · exact UInt16.le_refl _

theorem pos_or_default {n default : UInt32} (h : 0 < default) : 0 < if n = 0 then default else n := by
  split
  · exact h
  · next hn => exact UInt32.pos_iff_ne_zero.mpr hn

theorem sanitize_eq_self {c : Config} (hvolume : c.audio.volume ≤ maxVolume) (hbuffer : 0 < c.audio.bufferSize)
    (hfrequency : 0 < c.audio.frequency) (hfps : ¬c.emu.targetFps ≤ 0) (hrate : ¬c.emu.coreSampleRate ≤ 0) :
    c.sanitize = c := by
  have hkept : min c.audio.volume maxVolume = c.audio.volume := if_pos hvolume
  unfold sanitize
  simp only [hkept, if_neg (UInt32.pos_iff_ne_zero.mp hbuffer), if_neg (UInt32.pos_iff_ne_zero.mp hfrequency),
    if_neg hfps, if_neg hrate]

theorem sanitize_sanitize (c : Config) : c.sanitize.sanitize = c.sanitize :=
  sanitize_eq_self (min_maxVolume_le _) (pos_or_default (by decide)) (pos_or_default (by decide))
    (not_nonpos_repaired (by decide) _) (not_nonpos_repaired (by decide) _)

theorem isUsable_sanitize_iff (c : Config) :
    c.sanitize.IsUsable ↔ ¬PassesForRate c.emu.targetFps ∧ ¬PassesForRate c.emu.coreSampleRate := by
  have hfps := isRate_repaired (⟨by decide, by decide⟩ : IsRate 60) c.emu.targetFps
  have hrate := isRate_repaired (⟨by decide, by decide⟩ : IsRate 32823.6328125) c.emu.coreSampleRate
  rw [← hfps, ← hrate]
  exact ⟨fun h => ⟨h.targetFps, h.coreSampleRate⟩, fun h =>
    ⟨min_maxVolume_le _, pos_or_default (by decide), pos_or_default (by decide), h.1, h.2⟩⟩

/-- What is read from a file that describes a configuration is in range but for its rates, and there is
nothing left to repair. It can be used exactly if no rate of the file only passes for one. -/
theorem read_configuration_usable_iff {t : FileTree} {p : Path} {text : List Char} {c : Config}
    (hread : t.readText p = .ok text) (hparse : ofText? text = some c) :
    ∃ d, readFrom t p = .ok d ∧ d.sanitize = d ∧
      d.audio.volume ≤ maxVolume ∧ 0 < d.audio.bufferSize ∧ 0 < d.audio.frequency ∧
      (IsRate d.emu.targetFps ↔ ¬PassesForRate c.emu.targetFps) ∧
      (IsRate d.emu.coreSampleRate ↔ ¬PassesForRate c.emu.coreSampleRate) ∧
      (d.IsUsable ↔ ¬PassesForRate c.emu.targetFps ∧ ¬PassesForRate c.emu.coreSampleRate) := by
  refine ⟨c.sanitize, ?_, sanitize_sanitize c, min_maxVolume_le _, pos_or_default (by decide),
    pos_or_default (by decide), isRate_repaired ⟨by decide, by decide⟩ _,
    isRate_repaired ⟨by decide, by decide⟩ _, isUsable_sanitize_iff c⟩
  unfold readFrom
  rw [hread]
  simp only [Except.mapError, bind, Except.bind, hparse]

/-- A working directory with a configuration file of this text. -/
def oneFile (text : String) : FileTree :=
  ⟨[], [(["config.toml".toList], .file (Utf8.encode text.toList).toArray)]⟩

theorem readText_oneFile (text : String) :
    (oneFile text).readText (.ofString "config.toml") = .ok text.toList := by
  have hread : (oneFile text).read (.ofString "config.toml") = .ok (Utf8.encode text.toList).toArray := rfl
  unfold FileTree.readText
  rw [hread]
  simp only [bind, Except.bind, Utf8.decode_encode]

def smallRates : String := "[audio]\nvolume = 900\n\n[emu]\ntarget_fps = -inf\ncore_sample_rate = 0\n"

/-- Rates of zero and of negative infinity are replaced. -/
theorem read_configuration_usable_of_small_rates :
    let c : Config := { audio := { volume := 900 }, emu := { targetFps := -1 / 0, coreSampleRate := 0 } }
    (oneFile smallRates).readText (.ofString "config.toml") = .ok smallRates.toList ∧
      ofText? smallRates.toList = some c ∧
      ∃ d, readFrom (oneFile smallRates) (.ofString "config.toml") = .ok d ∧ d.IsUsable := by
  intro c
  have hparse : ofText? smallRates.toList = some c := rfl
  obtain ⟨d, hd, -, -, -, -, -, -, husable⟩ :=
    read_configuration_usable_iff (readText_oneFile smallRates) hparse
  refine ⟨readText_oneFile smallRates, hparse, d, hd, husable.mpr ⟨?_, ?_⟩⟩ <;>
    exact not_passesForRate_of_nonpos (by decide)

/-- A rate that is not a number is read as it stands. -/
theorem rate_without_number_is_kept :
    ∃ d, readFrom (oneFile "[emu]\ntarget_fps = nan\n") (.ofString "config.toml") = .ok d ∧
      d.emu.targetFps.isNaN = true ∧ ¬d.IsUsable := by
  have hparse : ofText? "[emu]\ntarget_fps = nan\n".toList = some { emu := { targetFps := 0 / 0 } } := rfl
  refine ⟨{ emu := { targetFps := 0 / 0 } }, ?_, by decide, fun h => absurd h.targetFps.finite (by decide)⟩
  unfold readFrom
  rw [readText_oneFile]
  simp only [Except.mapError, bind, Except.bind, hparse]
  rfl

end Config

end Handheld
