import Handheld.Machine.Checked
import Handheld.Proofs.Audio.Scalars

/-!
# The pitch of a ROM

A ROM sounds at 220 Hz and the sum of its bytes modulo 660. The sum is taken in a word of 32 bits, so a ROM
whose bytes come to more, of sixteen megabytes at least, either ends the program or is taken with a pitch
that leaves out what the word had no room for (`pitch_follows_bytes_iff`).
-/

namespace Handheld

open Binary64

/-- The sum of all bytes, whatever its size. -/
def byteTotal (data : Bytes) : ℕ := (data.toList.map UInt8.toNat).sum

/-! ## The sum in a word -/

theorem byteSum_eq (data : Bytes) :
    byteSum data = data.toList.foldl (fun sum b => sum + b.toUInt32) 0 :=
  (Array.foldl_toList _).symm

theorem byteSum?_eq (o : OnOverflow) (data : Bytes) :
    byteSum? o data = data.toList.foldlM (fun sum b => add? o sum b.toUInt32) 0 :=
  Array.foldlM_toList.symm

theorem toNat_foldl_add (bytes : List UInt8) (sum : UInt32) :
    (bytes.foldl (fun sum b => sum + b.toUInt32) sum).toNat =
      (sum.toNat + (bytes.map UInt8.toNat).sum) % 2 ^ 32 := by
  induction bytes generalizing sum with
  | nil => exact (Nat.mod_eq_of_lt sum.toNat_lt).symm
  | cons b bytes ih =>
    rw [List.foldl_cons, ih, UInt32.toNat_add, UInt8.toNat_toUInt32, Nat.mod_add_mod, Nat.add_assoc,
      List.map_cons, List.sum_cons]

theorem toNat_byteSum (data : Bytes) : (byteSum data).toNat = byteTotal data % 2 ^ 32 := by
  rw [byteSum_eq, toNat_foldl_add, UInt32.toNat_zero, Nat.zero_add, byteTotal]

/-- Where every addition is checked, one of them fails exactly if the whole sum does not fit. -/
theorem foldlM_add?_stop (bytes : List UInt8) (sum : UInt32) :
    bytes.foldlM (fun sum b => add? .stop sum b.toUInt32) sum =
      if sum.toNat + (bytes.map UInt8.toNat).sum < 2 ^ 32 then
        .ok (bytes.foldl (fun sum b => sum + b.toUInt32) sum)
      else .error .overflow := by
  have hsize : UInt32.size = 2 ^ 32 := rfl
  induction bytes generalizing sum with
  | nil => exact (if_pos sum.toNat_lt).symm
  | cons b bytes ih =>
    rw [List.foldlM_cons, List.foldl_cons, List.map_cons, List.sum_cons, add?, UInt8.toNat_toUInt32]
    by_cases hfits : sum.toNat + b.toNat < 2 ^ 32
    · have hsum : (sum + b.toUInt32).toNat = sum.toNat + b.toNat := by
        rw [UInt32.toNat_add, UInt8.toNat_toUInt32, Nat.mod_eq_of_lt hfits]
      have hok : ¬(OnOverflow.stop = .stop ∧ UInt32.size ≤ sum.toNat + b.toNat) := by omega
      rw [if_neg hok]
      show bytes.foldlM _ (sum + b.toUInt32) = _
      rw [ih, hsum, Nat.add_assoc]
    · have hfails : OnOverflow.stop = .stop ∧ UInt32.size ≤ sum.toNat + b.toNat := ⟨rfl, by omega⟩
      rw [if_pos hfails, if_neg (by omega)]
      rfl

theorem foldlM_add?_wrap (bytes : List UInt8) (sum : UInt32) :
    bytes.foldlM (fun sum b => add? .wrap sum b.toUInt32) sum =
      .ok (bytes.foldl (fun sum b => sum + b.toUInt32) sum) := by
  induction bytes generalizing sum with
  | nil => rfl
  | cons b bytes ih => exact ih (sum + b.toUInt32)

/-! ## The pitch -/

/-- 220 and the sum of all bytes modulo 660. -/
def truePitch (data : Bytes) : ℚ := 220 + (byteTotal data % 660 : ℕ)

theorem pitchOf?_stop (data : Bytes) :
    pitchOf? .stop data = if byteTotal data < 2 ^ 32 then .ok (pitchOf data) else .error .overflow := by
  have hsum : byteSum? .stop data =
      if byteTotal data < 2 ^ 32 then .ok (byteSum data) else .error .overflow := by
    rw [byteSum?_eq, foldlM_add?_stop, UInt32.toNat_zero, Nat.zero_add, byteSum_eq]
    rfl
  rw [pitchOf?, hsum]
  split <;> rfl

theorem pitchOf?_wrap (data : Bytes) : pitchOf? .wrap data = .ok (pitchOf data) := by
  have hsum : byteSum? .wrap data = .ok (byteSum data) := by
    rw [byteSum?_eq, foldlM_add?_wrap, byteSum_eq]
  rw [pitchOf?, hsum]
  rfl

theorem denotes_pitchOf (data : Bytes) :
    Denotes (pitchOf data) (220 + (byteTotal data % 2 ^ 32 % 660 : ℕ)) := by
  have hbase : Scalar.floatOfWord 220 = 220 := rfl
  have hsum : Denotes (Scalar.floatOfWord 220 + Scalar.floatOfWord (byteTotal data % 2 ^ 32 % 660))
      (220 + byteTotal data % 2 ^ 32 % 660 : ℕ) :=
    Scalar.denotes_add_floatOfWord (by omega)
  rw [hbase] at hsum
  rw [pitchOf, toNat_byteSum]
  exact_mod_cast hsum

/-- What the word leaves out makes no difference to the pitch where it is a multiple of 165 words. -/
theorem mod_660_eq_iff (n : ℕ) : n % 2 ^ 32 % 660 = n % 660 ↔ 165 ∣ n / 2 ^ 32 := by
  omega

theorem denotes_truePitch_iff (data : Bytes) :
    Denotes (pitchOf data) (truePitch data) ↔ 165 ∣ byteTotal data / 2 ^ 32 := by
  rw [← mod_660_eq_iff]
  have hmade := denotes_pitchOf data
  constructor
  · intro htrue
    have hsame := hmade.value_eq htrue
    rw [truePitch, add_right_inj] at hsame
    exact_mod_cast hsame
  · intro hsame
    rwa [hsame] at hmade

/-! ## ROMs -/

/-- A ROM is taken with a pitch, whether a factory boots it or it is inserted into a machine. -/
structure TakenWith (o : OnOverflow) (f : ToneFactory) (m : ToneMachine) (rom : Rom) (pitch : Float) : Prop where
  boots : f.bootRom? o rom = .ok (.ok (f.build pitch))
  inserts : m.insertCart? o rom =
    .ok { machine := { m with step := pitch / m.sampleRate }, answer := .ok () }

section
variable {o : OnOverflow} {rom : Rom} {pitch : Float}

theorem bootRom?_eq (o : OnOverflow) (f : ToneFactory) (hrom : rom.data ≠ #[]) :
    f.bootRom? o rom = (pitchOf? o rom.data).map fun pitch => .ok (f.build pitch) := by
  have hsome : ¬rom.data.isEmpty = true := by rwa [Array.isEmpty_iff]
  rw [ToneFactory.bootRom?, if_neg hsome]
  cases pitchOf? o rom.data <;> rfl

theorem insertCart?_eq (o : OnOverflow) (m : ToneMachine) (rom : Rom) :
    m.insertCart? o rom = (pitchOf? o rom.data).map fun pitch =>
      { machine := { m with step := pitch / m.sampleRate }, answer := .ok () } := by
  rw [ToneMachine.insertCart?]
  cases pitchOf? o rom.data <;> rfl

theorem takenWith_of_pitchOf? (f : ToneFactory) (m : ToneMachine) (hrom : rom.data ≠ #[])
    (h : pitchOf? o rom.data = .ok pitch) : TakenWith o f m rom pitch where
  boots := by rw [bootRom?_eq o f hrom, h]; rfl
  inserts := by rw [insertCart?_eq, h]; rfl

theorem fails_of_pitchOf? (f : ToneFactory) (m : ToneMachine) (hrom : rom.data ≠ #[]) {fault : Fault}
    (h : pitchOf? o rom.data = .error fault) :
    f.bootRom? o rom = .error fault ∧ m.insertCart? o rom = .error fault := by
  rw [bootRom?_eq o f hrom, insertCart?_eq, h]
  exact ⟨rfl, rfl⟩

/-- Where sums wrap around, a ROM is taken as it is where nothing is checked. -/
theorem taken_wrapping (f : ToneFactory) (m : ToneMachine) (hrom : rom.data ≠ #[]) :
    f.bootRom? .wrap rom = .ok (f.bootRom rom) ∧ m.insertCart? .wrap rom = .ok (Machine.insertCart m rom) := by
  have hsome : ¬rom.data.isEmpty = true := by rwa [Array.isEmpty_iff]
  rw [bootRom?_eq .wrap f hrom, insertCart?_eq, pitchOf?_wrap, ToneFactory.bootRom, if_neg hsome]
  exact ⟨rfl, rfl⟩

end

/-- The program that checks its sums takes a ROM with a pitch, and runs on. -/
structure SoundsAt (f : CheckedToneFactory) (m : ToneMachine) (rom : Rom) (pitch : Float) : Prop where
  boots : (Factory.bootRom f rom).machine = .ok (.running (f.tone.build pitch))
  inserts : Machine.insertCart (CheckedTone.running m) rom =
    { machine := .running { m with step := pitch / m.sampleRate }, answer := .ok () }

theorem soundsAt_of_takenWith {f : CheckedToneFactory} {m : ToneMachine} {rom : Rom} {pitch : Float}
    (h : TakenWith .stop f.tone m rom pitch) : SoundsAt f m rom pitch where
  boots := by
    show f.bootRom rom = _
    rw [CheckedToneFactory.bootRom, h.boots]
    rfl
  inserts := by
    show CheckedTone.call _ (·.insertCart? .stop rom) (.running m) = _
    rw [CheckedTone.call, h.inserts]
    rfl

theorem ends_of_pitchOf? (f : CheckedToneFactory) (m : ToneMachine) {rom : Rom} (hrom : rom.data ≠ #[])
    {fault : Fault} (h : pitchOf? .stop rom.data = .error fault) :
    (Factory.bootRom f rom).machine = .ok (.ended fault) ∧
      (Machine.insertCart (CheckedTone.running m) rom).machine = .ended fault := by
  obtain ⟨hboots, hinserts⟩ := fails_of_pitchOf? f.tone m hrom h
  constructor
  · show f.bootRom rom = _
    rw [CheckedToneFactory.bootRom, hboots]
  · show (CheckedTone.call _ (·.insertCart? .stop rom) (.running m)).machine = _
    rw [CheckedTone.call, hinserts]

/-- A ROM that is not empty is taken without an overflow, and with the pitch of its byte sum, exactly if that
sum is less than `2 ^ 32`. Otherwise the program ends; in one that lets its sums wrap around, the pitch is that
of the byte sum exactly if 165 divides the number of times it has wrapped. -/
theorem pitch_follows_bytes_iff (f : CheckedToneFactory) (m : ToneMachine) {rom : Rom} (hrom : rom.data ≠ #[]) :
    ((∃ pitch, SoundsAt f m rom pitch ∧ Denotes pitch (truePitch rom.data)) ↔ byteTotal rom.data < 2 ^ 32) ∧
    (2 ^ 32 ≤ byteTotal rom.data → (Factory.bootRom f rom).machine = .ok (.ended .overflow) ∧
      (Machine.insertCart (CheckedTone.running m) rom).machine = .ended .overflow) ∧
    f.tone.bootRom? .wrap rom = .ok (f.tone.bootRom rom) ∧
    m.insertCart? .wrap rom = .ok (Machine.insertCart m rom) ∧
    TakenWith .wrap f.tone m rom (pitchOf rom.data) ∧
    (Denotes (pitchOf rom.data) (truePitch rom.data) ↔ 165 ∣ byteTotal rom.data / 2 ^ 32) := by
  have hstop := pitchOf?_stop rom.data
  have hends (hlarge : 2 ^ 32 ≤ byteTotal rom.data) :
      (Factory.bootRom f rom).machine = .ok (.ended .overflow) ∧
        (Machine.insertCart (CheckedTone.running m) rom).machine = .ended .overflow := by
    rw [if_neg (not_lt.mpr hlarge)] at hstop
    exact ends_of_pitchOf? f m hrom hstop
  obtain ⟨hboots, hinserts⟩ := taken_wrapping f.tone m hrom
  refine ⟨⟨?_, ?_⟩, hends, hboots, hinserts, takenWith_of_pitchOf? f.tone m hrom (pitchOf?_wrap _),
    denotes_truePitch_iff _⟩
  · rintro ⟨pitch, hsounds, -⟩
    by_contra hlarge
    cases hsounds.boots.symm.trans (hends (not_lt.mp hlarge)).1
  · intro hfits
    rw [if_pos hfits] at hstop
    refine ⟨pitchOf rom.data, soundsAt_of_takenWith (takenWith_of_pitchOf? f.tone m hrom hstop),
      (denotes_truePitch_iff _).mpr ?_⟩
    rw [Nat.div_eq_of_lt hfits]
    exact dvd_zero 165

def evenRom (n : ℕ) (b : UInt8) : Rom := ⟨Array.replicate n b, ⟨['a', '.', 'n', 'd', 's']⟩⟩

theorem byteTotal_evenRom (n : ℕ) (b : UInt8) : byteTotal (evenRom n b).data = n * b.toNat := by
  rw [byteTotal, evenRom, Array.toList_replicate, List.map_replicate, List.sum_replicate, smul_eq_mul]

theorem evenRom_ne_empty {n : ℕ} (hn : n ≠ 0) (b : UInt8) : (evenRom n b).data ≠ #[] := by
  intro hempty
  have hsize := congrArg Array.size hempty
  rw [evenRom, Array.size_replicate] at hsize
  exact hn hsize

/-- The largest bytes that fit come to `2 ^ 32 - 1`. -/
theorem pitch_follows_bytes_of_largest :
    (evenRom 16843009 255).data ≠ #[] ∧ ∃ pitch,
      SoundsAt ⟨⟨48000, 60⟩⟩ (ToneFactory.bootFirmware ⟨48000, 60⟩) (evenRom 16843009 255) pitch ∧
        Denotes pitch (truePitch (evenRom 16843009 255).data) := by
  have hrom := evenRom_ne_empty (n := 16843009) (by norm_num) 255
  refine ⟨hrom, (pitch_follows_bytes_iff ⟨⟨48000, 60⟩⟩ (ToneFactory.bootFirmware ⟨48000, 60⟩) hrom).1.mpr ?_⟩
  rw [byteTotal_evenRom]
  decide

/-- With one byte more the sum overflows, which ends the program; what is left of a sum that wraps around
makes another pitch. -/
theorem pitch_loses_bytes :
    (evenRom 16843010 255).data ≠ #[] ∧
      (Factory.bootRom (⟨⟨48000, 60⟩⟩ : CheckedToneFactory) (evenRom 16843010 255)).machine =
        .ok (.ended .overflow) ∧
      (Machine.insertCart (CheckedTone.running (ToneFactory.bootFirmware ⟨48000, 60⟩))
        (evenRom 16843010 255)).machine = .ended .overflow ∧
      Denotes (pitchOf (evenRom 16843010 255).data) 474 ∧ truePitch (evenRom 16843010 255).data = 610 := by
  have hrom := evenRom_ne_empty (n := 16843010) (by norm_num) 255
  have htotal : byteTotal (evenRom 16843010 255).data = 4294967550 := byteTotal_evenRom 16843010 255
  have hstop : pitchOf? .stop (evenRom 16843010 255).data = .error .overflow := by
    rw [pitchOf?_stop, htotal, if_neg (by norm_num)]
  have hmade := denotes_pitchOf (evenRom 16843010 255).data
  rw [htotal] at hmade
  obtain ⟨hboots, hinserts⟩ :=
    ends_of_pitchOf? ⟨⟨48000, 60⟩⟩ (ToneFactory.bootFirmware ⟨48000, 60⟩) hrom hstop
  refine ⟨hrom, hboots, hinserts, ?_, ?_⟩
  · norm_num at hmade
    exact hmade
  · rw [truePitch, htotal]
    norm_num

end Handheld
