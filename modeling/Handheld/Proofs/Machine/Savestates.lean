import Handheld.Machine.Tone
import Mathlib.Data.Nat.Digits.Lemmas

/-!
# Savestates of the tone machine

A savestate is the frame counter and the phase, eight bytes each, least significant first. Words and their
bytes determine each other (`decodeWord_encodeWord`, `encodeWord_decodeWord`), so every sixteen bytes are
the savestate of the machine that takes them over, and nothing else can be loaded
(`loaded_savestate_is_saved`).
-/

namespace Handheld.ToneMachine

/-! ## Bytes of a word -/

theorem lt_of_mem_bytes {l : List UInt8} {d : ℕ} (h : d ∈ l.map UInt8.toNat) : d < 256 := by
  obtain ⟨b, -, rfl⟩ := List.mem_map.mp h
  exact b.toNat_lt

/-- Bytes are the digits of a word in radix 256: as long as there are eight at most, no bit is shifted
out. -/
theorem toNat_decodeWord {bytes : Bytes} (h : bytes.size ≤ 8) :
    (decodeWord bytes).toNat = Nat.ofDigits 256 (bytes.toList.map UInt8.toNat) := by
  unfold decodeWord
  rw [← Array.length_toList] at h
  generalize bytes.toList = l at h ⊢
  induction l with
  | nil => rfl
  | cons b l ih =>
    have hl : l.length ≤ 7 := by
      rw [List.length_cons] at h
      omega
    have hb : b.toNat < 2 ^ 8 := b.toNat_lt
    have hrest : Nat.ofDigits 256 (l.map UInt8.toNat) < 256 ^ 7 := by
      refine (Nat.ofDigits_lt_base_pow_length (by norm_num) fun d => lt_of_mem_bytes).trans_le ?_
      rw [List.length_map]
      exact Nat.pow_le_pow_right (by norm_num) hl
    have hshift : Nat.ofDigits 256 (l.map UInt8.toNat) <<< 8 < 2 ^ 64 := by
      rw [Nat.shiftLeft_eq]
      omega
    rw [List.foldr_cons, UInt64.toNat_or, UInt64.toNat_shiftLeft, ih (by omega), List.map_cons, Nat.ofDigits_cons]
    show b.toNat ||| (Nat.ofDigits 256 (l.map UInt8.toNat) <<< 8) % 2 ^ 64 = _
    rw [Nat.mod_eq_of_lt hshift, Nat.or_comm, ← Nat.shiftLeft_add_eq_or_of_lt hb, Nat.shiftLeft_eq]
    omega

theorem size_encodeWord (n : UInt64) : (encodeWord n).size = 8 := Array.size_ofFn

theorem toNat_getElem_encodeWord (n : UInt64) {i : ℕ} (h : i < (encodeWord n).size) :
    (encodeWord n)[i].toNat = n.toNat / 256 ^ i % 256 := by
  rw [size_encodeWord] at h
  have hshift : (8 * i).toUInt64.toNat = 8 * i := by
    rw [Nat.toUInt64_eq, UInt64.toNat_ofNat_of_lt']
    exact (by omega : 8 * i < 64).trans (by decide)
  simp only [encodeWord, Array.getElem_ofFn, UInt64.toNat_toUInt8, UInt64.toNat_shiftRight, hshift,
    Nat.shiftRight_eq_div_pow, Nat.mod_eq_of_lt (by omega : 8 * i < 64), Nat.pow_mul]

theorem decodeWord_encodeWord (n : UInt64) : decodeWord (encodeWord n) = n := by
  have hbytes : (encodeWord n).toList.map UInt8.toNat = (List.range 8).map fun i => n.toNat / 256 ^ i % 256 := by
    refine List.ext_getElem (by simp [size_encodeWord]) fun i hi _ => ?_
    rw [List.getElem_map, Array.getElem_toList, toNat_getElem_encodeWord, List.getElem_map, List.getElem_range]
  have hword : n.toNat < 2 ^ 64 := n.toNat_lt
  rw [← UInt64.toNat_inj, toNat_decodeWord (size_encodeWord n).le, hbytes]
  simp only [List.range, List.range.loop, List.map_cons, List.map_nil, Nat.ofDigits_cons, Nat.ofDigits_nil]
  omega

theorem encodeWord_decodeWord {bytes : Bytes} (h : bytes.size = 8) : encodeWord (decodeWord bytes) = bytes := by
  refine Array.ext (by rw [size_encodeWord, h]) fun i _ hi => ?_
  rw [← UInt8.toNat_inj, toNat_getElem_encodeWord, toNat_decodeWord h.le,
    Nat.ofDigits_div_pow_eq_ofDigits_drop i (by norm_num) _ fun d => lt_of_mem_bytes,
    List.drop_eq_getElem_cons (by simpa using hi), Nat.ofDigits_cons, Nat.add_mul_mod_self_left,
    List.getElem_map, Array.getElem_toList]
  exact Nat.mod_eq_of_lt (UInt8.toNat_lt _)

/-! ## Counter and phase -/

theorem size_encodeState (m : ToneMachine) : m.encodeState.size = toneStateLength := by
  rw [encodeState, Array.size_append, size_encodeWord, size_encodeWord]
  rfl

theorem decodeState_encodeState (m saved : ToneMachine) :
    m.decodeState saved.encodeState = .ok { m with frame := saved.frame, phase := saved.phase } := by
  have hframe : saved.encodeState.extract 0 8 = encodeWord saved.frame := by
    simp [encodeState, Array.extract_append, size_encodeWord, Array.extract_eq_self_of_le]
  have hphase : saved.encodeState.extract 8 16 = encodeWord saved.phase := by
    simp [encodeState, Array.extract_append, size_encodeWord, Array.extract_eq_self_of_le]
  rw [decodeState, if_pos (size_encodeState saved), hframe, hphase, decodeWord_encodeWord, decodeWord_encodeWord]

theorem encodeState_of_decodeState {m loaded : ToneMachine} {data : Bytes} (h : m.decodeState data = .ok loaded) :
    loaded.encodeState = data := by
  unfold decodeState at h
  split at h
  · next hsize =>
    cases h
    have hsize : data.size = 16 := hsize
    rw [encodeState, encodeWord_decodeWord (by rw [Array.size_extract]; omega),
      encodeWord_decodeWord (by rw [Array.size_extract]; omega), Array.extract_append_extract]
    exact Array.extract_eq_self_of_le hsize.le
  · cases h

theorem loadState_of_ok {m loaded : ToneMachine} {data : Bytes} (h : m.decodeState data = .ok loaded) :
    Machine.loadState m data = { machine := loaded, answer := .ok () } := by
  simp only [Machine.loadState, h]

theorem loadState_of_error {m : ToneMachine} {data : Bytes} {e : MachineError}
    (h : m.decodeState data = .error e) : Machine.loadState m data = { machine := m, answer := .error e } := by
  simp only [Machine.loadState, h]

theorem loadState_of_size {data : Bytes} (hsize : data.size = toneStateLength) (m : ToneMachine) :
    Machine.loadState m data =
      { machine := { m with frame := decodeWord (data.extract 0 8), phase := decodeWord (data.extract 8 16) }
        answer := .ok () } := loadState_of_ok (if_pos hsize)

theorem loadState_of_size_ne {data : Bytes} (hsize : data.size ≠ toneStateLength) (m : ToneMachine) :
    Machine.loadState m data =
      { machine := m, answer := .error (.invalidState ("expected 16 bytes, got " ++ toString data.size)) } :=
  loadState_of_error (if_neg hsize)

/-- Sixteen bytes can be loaded, whatever they are, and are what the machine saves next; nothing but its
counter and its phase has changed. Bytes of any other number are refused and leave the machine as it was.
And what a machine has saved can be loaded into it without a change. -/
theorem loaded_savestate_is_saved (m : ToneMachine) (data : Bytes) :
    (if data.size = toneStateLength then
        (Machine.loadState m data).answer = .ok () ∧
          (Machine.saveState (Machine.loadState m data).machine).answer = .ok data ∧
          ∃ frame phase, (Machine.loadState m data).machine = { m with frame, phase }
      else
        (Machine.loadState m data).answer =
            .error (.invalidState ("expected 16 bytes, got " ++ toString data.size)) ∧
          (Machine.loadState m data).machine = m) ∧
      (Machine.loadState m data).requests = [] ∧
      ∃ state, (Machine.saveState m).answer = .ok state ∧ (Machine.loadState m state).answer = .ok () ∧
        (Machine.loadState m state).machine = m := by
  have hown : Machine.loadState m m.encodeState = { machine := m, answer := .ok () } :=
    loadState_of_ok (decodeState_encodeState m m)
  rw [← and_assoc]
  refine ⟨?_, m.encodeState, rfl, by rw [hown], by rw [hown]⟩
  split
  · next hsize =>
    have hload : m.decodeState data = .ok (Machine.loadState m data).machine := by
      rw [loadState_of_size hsize]
      exact if_pos hsize
    rw [loadState_of_size hsize] at hload ⊢
    exact ⟨⟨rfl, congrArg Except.ok (encodeState_of_decodeState hload), _, _, rfl⟩, rfl⟩
  · next hsize =>
    rw [loadState_of_size_ne hsize]
    exact ⟨⟨rfl, rfl⟩, rfl⟩

end Handheld.ToneMachine
