import Handheld.Proofs.Machine.Checks

/-!
# The frame counter

A savestate may hold any counter, and a frame adds one to it. Nothing else that is checked in counting frames
and writing the save can fail (`perform?_stop`), so the program runs on as long as the counter has room for
the frames up to the first reset. Counters that overflow are those near the end of their word
(`counter_overflows_iff`).
-/

namespace Handheld.ToneMachine

/-- A request for the save of a cartridge, of full size, and for a part that lies inside of it. -/
def InSave : Request → Prop
  | .saveCart image offset length => image.size = toneSaveSize ∧ offset + length ≤ toneSaveSize
  | _ => False

theorem WellFormed.inSave {m : ToneMachine} (h : m.WellFormed) {call : Call} {request : Request}
    (hrequest : request ∈ (call.on m).requests) : InSave request := by
  cases call with
  | runFrame input =>
    obtain ⟨phase, output, -, hsound⟩ := m.sound_spec input
    rw [on_runFrame, Outcome.requests_silent, hsound, count] at hrequest
    dsimp only at hrequest
    split at hrequest
    · obtain rfl := List.mem_singleton.mp hrequest
      refine ⟨Array.size_modify.trans h.save, ?_⟩
      exact Nat.mod_lt _ (by decide)
    · cases hrequest
  | importSave data =>
    obtain rfl := List.mem_singleton.mp hrequest
    refine ⟨(h.on (.importSave data)).save, ?_⟩
    omega
  | loadState data =>
    rw [Call.on, Outcome.requests_silent] at hrequest
    by_cases hsize : data.size = toneStateLength
    · rw [loadState_of_size hsize] at hrequest
      cases hrequest
    · rw [loadState_of_size_ne hsize] at hrequest
      cases hrequest
  | start | stop | reset | hearMic | readOutput | saveState | insertCart | ejectCart | setCheats => cases hrequest

theorem toNat_frame_on {m : ToneMachine} {call : Call} (hload : ∀ data, call ≠ .loadState data)
    (hreset : call ≠ .reset) (hroom : m.frame.toNat + framesIn [call] < 2 ^ 64) :
    (call.on m).machine.frame.toNat = m.frame.toNat + framesIn [call] := by
  cases call with
  | runFrame input =>
    have hroom : m.frame.toNat + 1 < 2 ^ 64 := hroom
    obtain ⟨phase, output, save, -, -, hframe⟩ := m.runFrame_spec input
    rw [hframe]
    show (m.frame + 1).toNat = m.frame.toNat + 1
    rw [UInt64.toNat_add, UInt64.toNat_one]
    omega
  | loadState data => exact absurd rfl (hload data)
  | reset => exact absurd rfl hreset
  | start | stop | hearMic | readOutput | saveState | insertCart | ejectCart | importSave | setCheats => rfl

/-! ## Runs -/

/-- Another savestate is not loaded, the bytes of every ROM have room for their sum, and there are fewer than
`2 ^ 32` frames. -/
structure Counted (later : List Call) : Prop where
  loads : ∀ data, Call.loadState data ∉ later
  roms : ∀ rom, Call.insertCart rom ∈ later → byteTotal rom.data < 2 ^ 32
  frames : framesIn later < 2 ^ 32

theorem hasRoom_iff (m : ToneMachine) (call : Call)
    (hrom : ∀ rom, call = .insertCart rom → byteTotal rom.data < 2 ^ 32) :
    m.HasRoom call ↔ m.frame.toNat + framesIn [call] < 2 ^ 64 := by
  have hword : m.frame.toNat + 0 < 2 ^ 64 := m.frame.toNat_lt
  cases call with
  | runFrame input => exact Iff.rfl
  | insertCart rom => exact iff_of_true (hrom rom rfl) hword
  | start | stop | reset | hearMic | readOutput | saveState | loadState | ejectCart | importSave | setCheats =>
    exact iff_of_true trivial hword

/-- Where a sum that does not fit ends the program, it is the frames up to the first reset that count: with
the counter of the beginning they must fit in a word. -/
theorem after_running {m : ToneMachine} (h : m.WellFormed) {calls : List Call} (hcalls : Counted calls) :
    Machine.after (CheckedTone.running m) calls =
      if m.frame.toNat + framesIn (calls.takeWhile (· ≠ .reset)) < 2 ^ 64 then .running (Machine.after m calls)
      else .ended .overflow := by
  induction calls generalizing m with
  | nil => exact (if_pos m.frame.toNat_lt).symm
  | cons call calls ih =>
    have hframes := hcalls.frames
    rw [framesIn_cons] at hframes
    have hlater : Counted calls :=
      ⟨fun data hmem => hcalls.loads data (List.mem_cons_of_mem call hmem),
        fun rom hmem => hcalls.roms rom (List.mem_cons_of_mem call hmem), by omega⟩
    have hroom := hasRoom_iff m call fun rom heq => hcalls.roms rom (heq ▸ List.mem_cons_self)
    have hrest := ih (h.on call) hlater
    rw [Machine.after_cons, Machine.after_cons]
    by_cases hreset : call = .reset
    · -- the counter begins anew, and the frames that are left fit in a word
      subst hreset
      have huntil : 0 + framesIn (calls.takeWhile (· ≠ .reset)) < 2 ^ 64 := by
        have hsublist : framesIn (calls.takeWhile (· ≠ .reset)) ≤ framesIn calls :=
          (List.takeWhile_sublist _).countP_le
        omega
      exact (hrest.trans (if_pos huntil)).trans (if_pos m.frame.toNat_lt).symm
    rw [List.takeWhile_cons_of_pos (by simpa using hreset), framesIn_cons, Nat.add_comm (framesIn _),
      ← Nat.add_assoc]
    by_cases hfits : m.frame.toNat + framesIn [call] < 2 ^ 64
    · have hcounter := toNat_frame_on (fun data heq => hcalls.loads data (heq ▸ List.mem_cons_self)) hreset hfits
      rw [CheckedTone.on_of_room h (hroom.mpr hfits), ← hcounter]
      exact hrest
    · rw [CheckedTone.on_of_full h (mt hroom.mp hfits), if_neg (by omega)]
      exact CheckedTone.after_ended .overflow calls

theorem requests_inSave {m : ToneMachine} (h : m.WellFormed) (calls : List Call) :
    ∀ request ∈ Machine.requests m calls, InSave request := by
  induction calls generalizing m with
  | nil => exact fun request hrequest => absurd hrequest List.not_mem_nil
  | cons call calls ih =>
    intro request hrequest
    rcases List.mem_append.mp hrequest with hnow | hlater
    · exact h.inSave hnow
    · exact ih (h.on call) request hlater

theorem runs_all_iff {m : ToneMachine} (h : m.WellFormed) :
    (∀ later, Counted later → Machine.after (CheckedTone.running m) later = .running (Machine.after m later)) ↔
      m.frame.toNat + 2 ^ 32 ≤ 2 ^ 64 := by
  constructor
  · intro hall
    -- as many frames as there may be, under a name, so that the list of them is not written out
    obtain ⟨n, hn⟩ : ∃ n : ℕ, n + 1 = 2 ^ 32 := ⟨2 ^ 32 - 1, by norm_num⟩
    have hframes : framesIn (List.replicate n (.runFrame {})) = n := by
      simp [framesIn, List.countP_replicate, Call.isFrame]
    have huntil : (List.replicate n (Call.runFrame {})).takeWhile (· ≠ .reset) =
        List.replicate n (.runFrame {}) := by simp
    have hcounted : Counted (List.replicate n (.runFrame {})) :=
      ⟨fun data hmem => Call.noConfusion (List.eq_of_mem_replicate hmem),
        fun rom hmem => Call.noConfusion (List.eq_of_mem_replicate hmem), by omega⟩
    have hrun := hall _ hcounted
    rw [after_running h hcounted, huntil, hframes] at hrun
    by_contra hfull
    rw [if_neg (by omega)] at hrun
    cases hrun
  · intro hroom later hlater
    have huntil : framesIn (later.takeWhile (· ≠ .reset)) ≤ framesIn later :=
      (List.takeWhile_sublist _).countP_le
    have hfew := hlater.frames
    rw [after_running h hlater, if_pos (by omega)]

theorem loaded_spec {m loaded : ToneMachine} {data : Bytes} (h : m.WellFormed)
    (hload : Machine.loadState m data = { machine := loaded, answer := .ok () }) :
    loaded.WellFormed ∧ loaded.frame = decodeWord (data.extract 0 8) := by
  by_cases hsize : data.size = toneStateLength
  · rw [loadState_of_size hsize] at hload
    obtain rfl := congrArg Outcome.machine hload
    exact ⟨⟨h.fps, h.save⟩, rfl⟩
  · rw [loadState_of_size_ne hsize] at hload
    cases congrArg Outcome.answer hload

/-- A machine that has taken over a savestate, whatever was done with it before, never divides by zero and
never leaves its save image, and asks for nothing but the saving of a part of it. Its counter overflows, and
ends the program, exactly if the counter of the savestate has no room for the frames up to the first reset;
in a program that lets its sums wrap around nothing fails. So fewer than `2 ^ 32` frames are safe in any case
exactly if that counter is at most `2 ^ 64 - 2 ^ 32`. -/
theorem counter_overflows_iff {f : CheckedToneFactory} {fresh : CheckedTone} {loaded : ToneMachine}
    (hmakes : Factory.Makes f fresh) (earlier : List Call) {data : Bytes}
    (hload : Machine.loadState (Machine.after fresh earlier) data =
      { machine := .running loaded, answer := .ok () }) :
    (∀ later, Counted later →
      Machine.after (CheckedTone.running loaded) later =
        (if (decodeWord (data.extract 0 8)).toNat + framesIn (later.takeWhile (· ≠ .reset)) < 2 ^ 64 then
          .running (Machine.after loaded later)
        else .ended .overflow) ∧
      (∀ request ∈ Machine.requests (CheckedTone.running loaded) later, InSave request) ∧
      run? .wrap loaded later = .ok (Machine.after loaded later) ∧
      ∀ request ∈ Machine.requests loaded later, InSave request) ∧
    ((∀ later, Counted later →
        Machine.after (CheckedTone.running loaded) later = .running (Machine.after loaded later)) ↔
      (decodeWord (data.extract 0 8)).toNat + 2 ^ 32 ≤ 2 ^ 64) := by
  obtain ⟨m, hruns, hload⟩ := CheckedTone.loadState_running hload
  obtain ⟨hwell, hcounter⟩ := loaded_spec (CheckedTone.wellFormed_of_runs hmakes hruns) hload
  have hinside := requests_inSave hwell
  rw [← hcounter]
  exact ⟨fun later hlater => ⟨after_running hwell hlater,
    fun request hrequest => hinside later request (CheckedTone.mem_requests hwell later hrequest),
    run?_wrap hwell later, hinside later⟩, runs_all_iff hwell⟩

/-- The firmware menu at sixty frames in a second. -/
def menu : CheckedTone := .running (ToneFactory.bootFirmware ⟨48000, 60⟩)

theorem makes_menu : Factory.Makes (⟨⟨48000, 60⟩⟩ : CheckedToneFactory) menu := .inr rfl

theorem loadState_menu (data : Bytes) (hsize : data.size = toneStateLength) :
    ∃ loaded, Machine.loadState menu data = { machine := .running loaded, answer := .ok () } := by
  have hload := loadState_of_size hsize (ToneFactory.bootFirmware ⟨48000, 60⟩)
  exact ⟨_, congrArg (Outcome.mapMachine CheckedTone.running) hload⟩

theorem zero_counter_is_safe :
    Factory.Makes (⟨⟨48000, 60⟩⟩ : CheckedToneFactory) menu ∧
      ∃ loaded, Machine.loadState menu (Array.replicate 16 0) =
          { machine := .running loaded, answer := .ok () } ∧
        ∀ later, Counted later →
          Machine.after (CheckedTone.running loaded) later = .running (Machine.after loaded later) := by
  obtain ⟨loaded, hload⟩ := loadState_menu (Array.replicate 16 0) rfl
  refine ⟨makes_menu, loaded, hload, (counter_overflows_iff makes_menu [] hload).2.mpr ?_⟩
  decide

/-- The largest counter is loaded, and the first frame overflows it: that ends the program, and where sums
wrap around the counter begins anew. -/
theorem largest_counter_overflows :
    Factory.Makes (⟨⟨48000, 60⟩⟩ : CheckedToneFactory) menu ∧
      ∃ loaded, Machine.loadState menu (Array.replicate 8 255 ++ Array.replicate 8 0) =
          { machine := .running loaded, answer := .ok () } ∧
        Counted [.runFrame {}] ∧
        Machine.after (CheckedTone.running loaded) [.runFrame {}] = .ended .overflow ∧
        (Machine.after loaded [.runFrame {}]).frame = 0 := by
  have hcounted : Counted [.runFrame {}] := ⟨fun data => by simp, fun rom => by simp, by decide⟩
  obtain ⟨loaded, hload⟩ := loadState_menu (Array.replicate 8 255 ++ Array.replicate 8 0) rfl
  obtain ⟨m, hruns, hloaded⟩ := CheckedTone.loadState_running hload
  have hmade : Machine.after menu [] = .running m := hruns
  obtain ⟨hwell, hcounter⟩ := loaded_spec (CheckedTone.wellFormed_of_runs makes_menu hmade) hloaded
  obtain ⟨phase, output, save, -, -, hframe⟩ := loaded.runFrame_spec {}
  refine ⟨makes_menu, loaded, hload, hcounted, ?_, ?_⟩
  · rw [after_running hwell hcounted, hcounter, if_neg (by decide)]
  · refine (congrArg ToneMachine.frame hframe).trans ?_
    show loaded.frame + 1 = 0
    rw [hcounter]
    decide

end Handheld.ToneMachine
