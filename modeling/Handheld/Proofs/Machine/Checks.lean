import Handheld.Proofs.Machine.Frames
import Handheld.Proofs.Machine.Pitch
import Handheld.Proofs.Machine.Savestates

/-!
# The checks of the tone machine

In a machine that a factory has made, and after anything that was done with it, there are frames in a second
and the save has its full size (`WellFormed`). So a call fails only where the frame counter or the byte sum of
a ROM has no room (`perform?_stop`), and a program that checks its sums does what the machine does for as long
as it runs (`CheckedTone.follows`).
-/

namespace Handheld

namespace ToneMachine

/-- What the counting of frames relies on. -/
structure WellFormed (m : ToneMachine) : Prop where
  fps : m.fps ≠ 0
  save : m.save.size = toneSaveSize

theorem wholeFps_ne_zero (fps : Float) : ToneFactory.wholeFps fps ≠ 0 := by
  unfold ToneFactory.wholeFps
  dsimp only
  split
  · next h => exact fun hzero => absurd (Binary64.toUInt64_pos h) (by rw [hzero]; decide)
  · decide

theorem wellFormed_build (f : ToneFactory) (pitch : Float) : (f.build pitch).WellFormed :=
  ⟨wholeFps_ne_zero f.fps, Array.size_replicate⟩

def perform? (o : OnOverflow) (m : ToneMachine) : Call → Except Fault (Outcome ToneMachine (List StereoFrame))
  | .runFrame input => (m.advance? o input).map Outcome.silent
  | .insertCart rom => (m.insertCart? o rom).map Outcome.silent
  | .importSave data => (m.importSave? data).map Outcome.silent
  | call => .ok (call.on m)

/-! ## Counting a frame -/

theorem set_eq_modify {image : Bytes} {i : ℕ} (h : i < image.size) :
    image.set i (image[i] + 1) = image.modify i (· + 1) := by
  refine Array.ext (by simp) fun j _ _ => ?_
  simp only [Array.getElem_set, Array.getElem_modify]
  split
  · next hij => subst hij; rfl
  · rfl

theorem eq_of_addOne? {o : OnOverflow} {n next : UInt64} (h : addOne? o n = .ok next) : next = n + 1 := by
  unfold addOne? at h
  split at h
  · cases h
  · exact (Except.ok.inj h).symm

theorem count?_eq {m : ToneMachine} (h : m.WellFormed) (o : OnOverflow) :
    m.count? o = (addOne? o m.frame).map fun _ => m.count := by
  unfold count?
  cases hnext : addOne? o m.frame with
  | error fault => rfl
  | ok frame =>
    obtain rfl := eq_of_addOne? hnext
    have hdivided : divMod? (m.frame + 1) m.fps = .ok ((m.frame + 1) / m.fps, (m.frame + 1) % m.fps) :=
      if_neg h.fps
    simp only [bind, Except.bind, hdivided, Except.map, count]
    split
    · have hoffset : ((m.frame + 1) / m.fps).toNat % toneSaveSize < m.save.size := by
        rw [h.save]
        exact Nat.mod_lt _ (by decide)
      have hsave : increase? m.save (((m.frame + 1) / m.fps).toNat % toneSaveSize) =
          .ok (m.save.modify (((m.frame + 1) / m.fps).toNat % toneSaveSize) (· + 1)) := by
        rw [increase?, dif_pos hoffset, set_eq_modify]
      rw [hsave]
      rfl
    · rfl

theorem advance?_eq {m : ToneMachine} (h : m.WellFormed) (o : OnOverflow) (input : FrameInput) :
    m.advance? o input = (addOne? o m.frame).map fun _ => m.advance input := by
  obtain ⟨phase, output, -, hsound⟩ := m.sound_spec input
  have hwell : (m.sound input).WellFormed := by
    rw [hsound]
    exact ⟨h.fps, h.save⟩
  have hframe : (m.sound input).frame = m.frame := by rw [hsound]
  have hcount := count?_eq hwell o
  rw [hframe] at hcount
  exact hcount

theorem importSave?_eq {m : ToneMachine} (h : m.WellFormed) (data : Bytes) :
    m.importSave? data = .ok (Machine.importSave m data) := by
  have hfits : min data.size toneSaveSize ≤ m.save.size ∧ min data.size toneSaveSize ≤ data.size := by
    rw [h.save]
    omega
  have hsave : overwrite? m.save data (min data.size toneSaveSize) =
      .ok (data.extract 0 (min data.size toneSaveSize) ++
        m.save.extract (min data.size toneSaveSize) toneSaveSize) := by
    rw [overwrite?, if_pos hfits, h.save]
  unfold importSave?
  dsimp only
  rw [hsave]
  rfl

/-! ## One call -/

/-- The sums of a call fit their words. -/
def HasRoom (m : ToneMachine) : Call → Prop
  | .runFrame _ => m.frame.toNat + 1 < 2 ^ 64
  | .insertCart rom => byteTotal rom.data < 2 ^ 32
  | _ => True

theorem perform?_wrap {m : ToneMachine} (h : m.WellFormed) (call : Call) :
    m.perform? .wrap call = .ok (call.on m) := by
  cases call with
  | runFrame input =>
    show (m.advance? .wrap input).map _ = _
    rw [advance?_eq h]
    rfl
  | insertCart rom =>
    show (m.insertCart? .wrap rom).map _ = _
    rw [insertCart?_eq, pitchOf?_wrap]
    rfl
  | importSave data =>
    show (m.importSave? data).map _ = _
    rw [importSave?_eq h]
    rfl
  | start | stop | reset | hearMic | readOutput | saveState | loadState | ejectCart | setCheats => rfl

/-- Where a sum that does not fit ends the program, nothing else does. -/
theorem perform?_stop {m : ToneMachine} (h : m.WellFormed) (call : Call) :
    (m.HasRoom call → m.perform? .stop call = .ok (call.on m)) ∧
      (¬m.HasRoom call → m.perform? .stop call = .error .overflow) := by
  cases call with
  | runFrame input =>
    have hsize : UInt64.size = 2 ^ 64 := rfl
    have hword : m.frame.toNat < 2 ^ 64 := m.frame.toNat_lt
    have hperform : m.perform? .stop (.runFrame input) =
        ((addOne? .stop m.frame).map fun _ => m.advance input).map Outcome.silent := by
      rw [← advance?_eq h]
      rfl
    rw [hperform, addOne?]
    constructor
    · intro hroom
      have hroom : m.frame.toNat + 1 < 2 ^ 64 := hroom
      rw [if_neg (by omega)]
      rfl
    · intro hfull
      have hfull : ¬m.frame.toNat + 1 < 2 ^ 64 := hfull
      rw [if_pos ⟨rfl, by omega⟩]
      rfl
  | insertCart rom =>
    have hperform : m.perform? .stop (.insertCart rom) = (m.insertCart? .stop rom).map Outcome.silent := rfl
    rw [hperform, insertCart?_eq, pitchOf?_stop]
    constructor
    · intro hroom
      have hroom : byteTotal rom.data < 2 ^ 32 := hroom
      rw [if_pos hroom]
      rfl
    · intro hfull
      have hfull : ¬byteTotal rom.data < 2 ^ 32 := hfull
      rw [if_neg hfull]
      rfl
  | importSave data =>
    refine ⟨fun _ => ?_, fun hfull => absurd trivial hfull⟩
    show (m.importSave? data).map _ = _
    rw [importSave?_eq h]
    rfl
  | start | stop | reset | hearMic | readOutput | saveState | loadState | ejectCart | setCheats =>
    exact ⟨fun _ => rfl, fun hfull => absurd trivial hfull⟩

theorem WellFormed.on {m : ToneMachine} (h : m.WellFormed) (call : Call) : (call.on m).machine.WellFormed := by
  cases call with
  | runFrame input =>
    obtain ⟨phase, output, save, -, hsave, hframe⟩ := m.runFrame_spec input
    rw [hframe]
    exact ⟨h.fps, hsave.trans h.save⟩
  | importSave data =>
    refine ⟨h.fps, ?_⟩
    have hsave := h.save
    show (data.extract 0 (min data.size toneSaveSize) ++
      m.save.extract (min data.size toneSaveSize) toneSaveSize).size = _
    rw [Array.size_append, Array.size_extract, Array.size_extract]
    omega
  | loadState data =>
    rw [Call.on, Outcome.machine_silent]
    by_cases hsize : data.size = toneStateLength
    · rw [loadState_of_size hsize]
      exact ⟨h.fps, h.save⟩
    · rw [loadState_of_size_ne hsize]
      exact h
  | start | stop | reset | hearMic | readOutput | saveState | insertCart | ejectCart | setCheats =>
    exact ⟨h.fps, h.save⟩

theorem WellFormed.after {m : ToneMachine} (h : m.WellFormed) (calls : List Call) :
    (Machine.after m calls).WellFormed := by
  induction calls generalizing m with
  | nil => exact h
  | cons call calls ih => exact ih (h.on call)

/-! ## Runs where sums wrap around -/

def run? (o : OnOverflow) : ToneMachine → List Call → Except Fault ToneMachine
  | m, [] => .ok m
  | m, call :: calls => do
    let outcome ← m.perform? o call
    run? o outcome.machine calls

theorem run?_wrap {m : ToneMachine} (h : m.WellFormed) (calls : List Call) :
    run? .wrap m calls = .ok (Machine.after m calls) := by
  induction calls generalizing m with
  | nil => rfl
  | cons call calls ih =>
    rw [run?, perform?_wrap h]
    exact ih (h.on call)

end ToneMachine

/-! ## The program that checks its sums -/

namespace CheckedTone

variable {m : ToneMachine}

theorem silent_call {α : Type} (nobody : α) (f : ToneMachine → Except Fault (Outcome ToneMachine α))
    (p : CheckedTone) : (p.call nobody f).silent = p.call [] fun m => (f m).map Outcome.silent := by
  cases p with
  | ended fault => rfl
  | running m =>
    unfold call
    dsimp only
    cases f m <;> rfl

/-- A call on the program is the call on its machine, with the checks. -/
theorem on_eq (p : CheckedTone) (call : Call) : call.on p = p.call [] (·.perform? .stop call) := by
  cases call with
  | readOutput room n => rfl
  | start | stop | reset | hearMic | runFrame | saveState | loadState | insertCart | ejectCart | importSave
  | setCheats => exact silent_call _ _ p

theorem after_ended (fault : Fault) (calls : List Call) : Machine.after (ended fault) calls = .ended fault := by
  induction calls with
  | nil => rfl
  | cons call calls ih =>
    rw [Machine.after_cons, on_eq]
    exact ih

theorem requests_ended (fault : Fault) (calls : List Call) : Machine.requests (ended fault) calls = [] := by
  induction calls with
  | nil => rfl
  | cons call calls ih =>
    rw [Machine.requests, on_eq]
    exact ih

theorem on_of_room (h : m.WellFormed) {call : Call} (hroom : m.HasRoom call) :
    call.on (running m) = (call.on m).mapMachine .running := by
  rw [on_eq, CheckedTone.call, (ToneMachine.perform?_stop h call).1 hroom]

theorem on_of_full (h : m.WellFormed) {call : Call} (hfull : ¬m.HasRoom call) :
    call.on (running m) = { machine := .ended .overflow, answer := [] } := by
  rw [on_eq, CheckedTone.call, (ToneMachine.perform?_stop h call).2 hfull]

/-- For as long as it runs, the program does what the machine does. -/
theorem follows (h : m.WellFormed) (calls : List Call)
    (hruns : (Machine.after (running m) calls).hasEnded = false) :
    Machine.after (running m) calls = .running (Machine.after m calls) ∧
      Machine.sounds (running m) calls = Machine.sounds m calls ∧
      Machine.requests (running m) calls = Machine.requests m calls := by
  induction calls generalizing m with
  | nil => exact ⟨rfl, rfl, rfl⟩
  | cons call calls ih =>
    rw [Machine.after_cons] at hruns ⊢
    simp only [Machine.sounds, Machine.requests]
    by_cases hroom : m.HasRoom call
    · rw [on_of_room h hroom] at hruns ⊢
      obtain ⟨hafter, hsounds, hrequests⟩ := ih (h.on call) hruns
      exact ⟨hafter, congrArg _ hsounds, congrArg _ hrequests⟩
    · rw [on_of_full h hroom, after_ended] at hruns
      cases hruns

theorem mem_requests (h : m.WellFormed) (calls : List Call) {request : Request}
    (hrequest : request ∈ Machine.requests (running m) calls) : request ∈ Machine.requests m calls := by
  induction calls generalizing m with
  | nil => exact hrequest
  | cons call calls ih =>
    rw [Machine.requests] at hrequest ⊢
    by_cases hroom : m.HasRoom call
    · rw [on_of_room h hroom] at hrequest
      rcases List.mem_append.mp hrequest with hnow | hlater
      · exact List.mem_append_left _ hnow
      · exact List.mem_append_right _ (ih (h.on call) hlater)
    · rw [on_of_full h hroom, requests_ended] at hrequest
      cases hrequest

theorem wellFormed_of_makes {f : CheckedToneFactory} (h : Factory.Makes f (running m)) : m.WellFormed := by
  obtain ⟨rom, hrom⟩ | hfirmware := h
  · have hboot : f.bootRom rom = .ok (running m) := hrom
    unfold CheckedToneFactory.bootRom at hboot
    by_cases hempty : rom.data = #[]
    · rw [ToneFactory.bootRom?, if_pos (Array.isEmpty_iff.mpr hempty)] at hboot
      cases hboot
    · rw [bootRom?_eq .stop f.tone hempty] at hboot
      cases hpitch : pitchOf? .stop rom.data with
      | error fault =>
        rw [hpitch] at hboot
        cases Except.ok.inj hboot
      | ok pitch =>
        rw [hpitch] at hboot
        obtain rfl : f.tone.build pitch = m := running.inj (Except.ok.inj hboot)
        exact ToneMachine.wellFormed_build f.tone pitch
  · obtain rfl : f.tone.bootFirmware = m := running.inj (Except.ok.inj hfirmware)
    exact ToneMachine.wellFormed_build f.tone firmwarePitch

theorem wellFormed_of_runs {f : CheckedToneFactory} {fresh : CheckedTone} (hmakes : Factory.Makes f fresh)
    {calls : List Call} (hruns : Machine.after fresh calls = running m) : m.WellFormed := by
  cases fresh with
  | ended fault =>
    rw [after_ended] at hruns
    cases hruns
  | running start =>
    have hwell := wellFormed_of_makes hmakes
    have hstill : (Machine.after (running start) calls).hasEnded = false := by rw [hruns]; rfl
    obtain rfl : Machine.after start calls = m := running.inj ((follows hwell calls hstill).1.symm.trans hruns)
    exact hwell.after calls

theorem loadState_running {p : CheckedTone} {data : Bytes} {loaded : ToneMachine}
    (h : Machine.loadState p data = { machine := running loaded, answer := .ok () }) :
    ∃ m, p = running m ∧ Machine.loadState m data = { machine := loaded, answer := .ok () } := by
  cases p with
  | ended fault => cases congrArg Outcome.machine h
  | running m =>
    have hmachine : (Machine.loadState m data).machine = loaded := running.inj (congrArg Outcome.machine h)
    have hrequests : (Machine.loadState m data).requests = [] := congrArg Outcome.requests h
    have hanswer : (Machine.loadState m data).answer = .ok () := congrArg Outcome.answer h
    refine ⟨m, rfl, ?_⟩
    rw [← hmachine, ← hrequests, ← hanswer]

end CheckedTone

end Handheld
