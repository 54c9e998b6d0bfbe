import Handheld.Config.Disk
import Handheld.Proofs.Files.Places
import Handheld.Proofs.Text.Utf8
import Handheld.Proofs.Toml.Documents
import Mathlib

/-!
# Configurations read back

A configuration is read back from its text as it was (`ofText?_toText`): every setting that has a value
has a line with its key, and a setting without one is left out and gets its default, which is that it has
no value. A rate is written from its own bits, also where it is not a number. So a file that could be written can be read, and answers the sanitized configuration
(`written_configuration_is_read`).
-/

namespace Handheld.Config

open Toml (Value Entries Key Leaf Section IsBare)

/-! ## Rates -/

section

open Float.Model Float.Model.UnpackedFloat

theorem toNat_unpackExponent (b : BitVec Format.binary64.numBits) :
    (unpackExponent b).toNat = b.toNat / 2 ^ 52 % 2048 := by
  show (b.toNat >>> 52) % 2 ^ 11 = _
  rw [Nat.shiftRight_eq_div_pow]

theorem toNat_unpackMantissa (b : BitVec Format.binary64.numBits) :
    (unpackMantissa b).toNat = b.toNat % 2 ^ 52 := by
  show (b.toNat >>> 0) % 2 ^ 52 = _
  rw [Nat.shiftRight_zero]

/-- Of the patterns that stand for no number a float has one only. -/
theorem toBits_of_decode_nan {x : Float} (h : Binary64.decode x.toBits = .nan) :
    x.toBits = Toml.Scalar.nanBits := by
  obtain ⟨bits, hvalid⟩ := x
  change Binary64.decode bits = .nan at h
  have hpow : ∀ n, Nat.pow 2 n = 2 ^ n := fun _ => rfl
  unfold Binary64.decode at h
  simp only [hpow, Binary64.fractionBits] at h
  split at h
  · next hlast =>
    split at h
    · cases h
    · next hsome =>
      refine UInt64.toBitVec_inj.mp (hvalid.eq_packedNaN ?_ ?_)
      · exact BitVec.eq_of_toNat_eq ((toNat_unpackExponent bits.toBitVec).trans hlast)
      · intro hzero
        have hmantissa := toNat_unpackMantissa bits.toBitVec
        rw [hzero] at hmantissa
        exact hsome hmantissa.symm
  · split at h <;> cases h

theorem rateBits_eq (x : Float) : rateBits x = x.toBits := by
  unfold rateBits
  split
  · next h =>
    rw [Float.isNaN_eq_decide_eq_nan, decide_eq_true_eq] at h
    rw [h]
    rfl
  · rfl

end

/-! ## Settings -/

theorem natural?_cast {bound n : Nat} (h : n < bound) : natural? bound (.integer n) = some n := by
  have hlow : (0 : Int) ≤ n := Int.natCast_nonneg n
  have hhigh : (n : Int) < bound := by exact_mod_cast h
  simp [natural?, hlow, hhigh]

theorem word16?_toNat (n : UInt16) : word16? (.integer n.toNat) = some n := by
  rw [word16?, natural?_cast n.toNat_lt_size, Option.map_some, Nat.toUInt16_eq, UInt16.ofNat_toNat]

theorem word32?_toNat (n : UInt32) : word32? (.integer n.toNat) = some n := by
  rw [word32?, natural?_cast n.toNat_lt_size, Option.map_some, Nat.toUInt32_eq, UInt32.ofNat_toNat]

theorem word64?_toNat (n : UInt64) : word64? (.integer n.toNat) = some n := by
  rw [word64?, natural?_cast n.toNat_lt_size, Option.map_some, Nat.toUInt64_eq, UInt64.ofNat_toNat]

theorem rate?_rateBits (x : Float) : rate? (.float (rateBits x)) = some x := by
  rw [rate?, rateBits_eq, Float.ofBits_toBits]

theorem choice?_muteMode (m : MuteMode) : choice? MuteMode.ofKey? (.text m.key) = some m := by
  cases m <;> rfl

theorem choice?_micMode (m : MicMode) : choice? MicMode.ofKey? (.text m.key) = some m := by
  cases m <;> rfl

theorem get_some {α : Type} (read : Value → Option α) (default : α) (v : Value) :
    get read default (some v) = read v := by
  rw [get]

/-! ## Sections -/

section

variable {v : Value}

theorem readAudio_of_settings (a : AudioConfig)
    (h : settings audioKeys v =
      some [some (.integer a.volume.toNat), some (.integer a.bufferSize.toNat),
        some (.integer a.frequency.toNat), some (.text a.multiInstance.key), some (.integer a.syncTimeout.toNat)]) : readAudio v = some a := by
  unfold readAudio
  rw [h, Option.bind_eq_bind, Option.bind_some]
  simp only [get_some, word16?_toNat, word32?_toNat, word64?_toNat, choice?_muteMode]
  rfl

theorem readMic_of_settings (m : MicConfig)
    (h : settings micKeys v =
      some [some (.text m.input.key), m.device.map .text, m.wavPath.map fun p => .text p.text]) :
    readMic v = some m := by
  have hdevice : get (fun x => (text? x).map some) none (m.device.map Value.text) = some m.device := by
    cases m.device <;> rfl
  have hwavPath :
      get (fun x => (text? x).map fun s => some ⟨s⟩) none (m.wavPath.map fun p => Value.text p.text) =
        some m.wavPath := by
    cases m.wavPath <;> rfl
  unfold readMic
  rw [h, Option.bind_eq_bind, Option.bind_some]
  simp only [get_some, choice?_micMode, hdevice, hwavPath]
  rfl

theorem readEmu_of_settings (e : EmuConfig)
    (h : settings emuKeys v =
      some [some (.integer e.framePeriod.toNat), some (.integer e.idlePeriod.toNat),
        some (.boolean e.pauseOnFocusLoss), some (.float (rateBits e.coreSampleRate)),
        some (.float (rateBits e.targetFps))]) : readEmu v = some e := by
  unfold readEmu
  rw [h, Option.bind_eq_bind, Option.bind_some]
  simp only [get_some, word64?_toNat, rate?_rateBits, flag?]
  rfl

theorem readSave_of_settings (s : SaveConfig)
    (h : settings saveKeys v = some [some (.integer s.debounce.toNat), some (.integer s.poll.toNat)]) :
    readSave v = some s := by
  unfold readSave
  rw [h, Option.bind_eq_bind, Option.bind_some]
  simp only [get_some, word64?_toNat]
  rfl

theorem ofEntries?_of_sections {audio mic emu save : Value} (c : Config)
    (haudio : readAudio audio = some c.audio) (hmic : readMic mic = some c.mic) (hemu : readEmu emu = some c.emu)
    (hsave : readSave save = some c.save) :
    ofEntries? [("audio".toList, audio), ("mic".toList, mic), ("emu".toList, emu), ("save".toList, save)] =
      some c := by
  have hsettings : settings sectionKeys (.table .header
      [("audio".toList, audio), ("mic".toList, mic), ("emu".toList, emu), ("save".toList, save)]) =
      some [some audio, some mic, some emu, some save] := rfl
  unfold ofEntries?
  rw [hsettings, Option.bind_eq_bind, Option.bind_some]
  simp only [get_some, haudio, hmic, hemu, hsave]
  rfl

end

theorem ofEntries?_sections (c : Config) : ofEntries? (c.sections.map Section.entry) = some c := by
  refine ofEntries?_of_sections c (readAudio_of_settings _ rfl) (readMic_of_settings _ ?_)
    (readEmu_of_settings _ rfl) (readSave_of_settings _ rfl)
  rcases c.mic.device with _ | device <;> rcases c.mic.wavPath with _ | wavPath <;> rfl

theorem readable_word (k : String) {n : Nat} (h : n < 2 ^ 64) : (word k n).2.Readable :=
  Nat.lt_trans h (by decide)

theorem readable_rate (x : Float) : (Leaf.float (rateBits x)).Readable := fun h => by
  rw [rateBits_eq] at h ⊢
  exact toBits_of_decode_nan h

theorem readable_of_keys {name : String} {fields : List (Key × Leaf)} (keys : List String)
    (hname : IsBare name.toList) (hbare : (keys.map String.toList).all (IsBare ·) = true) (hdistinct : (keys.map String.toList).Nodup) (hkeys : (fields.map Prod.fst).Sublist (keys.map String.toList))
    (hleaves : ∀ f ∈ fields, f.2.Readable) :
    Section.Readable ⟨name.toList, fields⟩ where
  name := hname
  keys := fun k hk => by simpa using List.all_eq_true.mp hbare k (hkeys.mem hk)
  leaves := hleaves
  distinct := hdistinct.sublist hkeys

theorem readable_of_mem_sections (c : Config) : ∀ s ∈ c.sections, s.Readable := by
  have hword16 (n : UInt16) : n.toNat < 2 ^ 64 := Nat.lt_trans n.toNat_lt (by decide)
  have hword32 (n : UInt32) : n.toNat < 2 ^ 64 := Nat.lt_trans n.toNat_lt (by decide)
  simp only [sections, List.forall_mem_cons]
  refine ⟨readable_of_keys audioKeys (by decide) (by decide) (by decide) (.refl _) ?_,
    readable_of_keys micKeys (by decide) (by decide) (by decide) ?_ ?_,
    readable_of_keys emuKeys (by decide) (by decide) (by decide) (.refl _) ?_,
    readable_of_keys saveKeys (by decide) (by decide) (by decide) (.refl _) ?_, by simp⟩
  · simp only [List.forall_mem_cons]
    exact ⟨readable_word _ (hword16 _), readable_word _ (hword32 _), readable_word _ (hword32 _), trivial,
      readable_word _ (UInt64.toNat_lt _), by simp⟩
  · rcases c.mic.device with _ | device <;> rcases c.mic.wavPath with _ | wavPath <;>
      simp [micKeys]
  · rcases c.mic.device with _ | device <;> rcases c.mic.wavPath with _ | wavPath <;> simp [Leaf.Readable]
  · simp only [List.forall_mem_cons]
    exact ⟨readable_word _ (UInt64.toNat_lt _), readable_word _ (UInt64.toNat_lt _), trivial, readable_rate _,
      readable_rate _, by simp⟩
  · simp only [List.forall_mem_cons]
    exact ⟨readable_word _ (UInt64.toNat_lt _), readable_word _ (UInt64.toNat_lt _), by simp⟩

/-- **A configuration is read back from its text.** -/
theorem ofText?_toText (c : Config) : ofText? c.toText = some c := by
  have hnames : (c.sections.map Section.name).Nodup := by
    show (sectionKeys.map String.toList).Nodup
    decide
  rw [ofText?, toText, Toml.parse_writeSections c.sections c.readable_of_mem_sections hnames,
    Option.bind_eq_bind, Option.bind_some, ofEntries?_sections]

/-! ## Files -/

theorem readText_of_write {t t' : FileTree} {p : Path} {text : List Char}
    (h : t.write p (Utf8.encode text).toArray = .ok t') : t'.readText p = .ok text := by
  unfold FileTree.readText
  rw [FileTree.read_of_write h]
  simp only [bind, Except.bind, Utf8.decode_encode]

theorem writeTo_eq_ok {c : Config} {t : FileTree} {p : Path} (h : (c.writeTo t p).2 = .ok ()) :
    ∃ t' : FileTree, t'.write p (Utf8.encode c.toText).toArray = .ok (c.writeTo t p).1 := by
  revert h
  unfold writeTo
  split
  next t' made _ =>
  intro h
  cases made with
  | error e => cases h
  | ok =>
    refine ⟨t', ?_⟩
    dsimp only at h ⊢
    cases hwrite : t'.write p (Utf8.encode c.toText).toArray with
    | error e =>
      rw [hwrite] at h
      cases h
    | ok t'' => rfl

/-- What is written to a path is read from it, sanitized: whatever the names in it contain, and whichever
settings have no value. -/
theorem written_configuration_is_read (c : Config) (t : FileTree) (p : Path) (h : (c.writeTo t p).2 = .ok ()) :
    readFrom (c.writeTo t p).1 p = .ok c.sanitize := by
  obtain ⟨t', hwrite⟩ := writeTo_eq_ok h
  unfold readFrom
  rw [readText_of_write hwrite]
  simp only [Except.mapError, bind, Except.bind, ofText?_toText]

/-- A device name with quotes and a line break, a volume out of range and a rate that is not a number. -/
theorem written_configuration_is_read_of_odd_names :
    let c : Config :=
      { audio := { volume := 999 }, mic := { device := some ['\'', '\'', '\'', '\n', '\x22', 'ß'] },
        emu := { targetFps := 0 / 0 } }
    (c.writeTo (.empty []) defaultPath).2 = .ok () ∧
      readFrom (c.writeTo (.empty []) defaultPath).1 defaultPath = .ok c.sanitize :=
  ⟨rfl, written_configuration_is_read _ _ _ rfl⟩

end Handheld.Config
