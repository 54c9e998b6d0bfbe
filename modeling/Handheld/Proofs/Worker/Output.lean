import Handheld.Machine.Checked
import Handheld.Machine.Either
import Handheld.Proofs.Worker.Backpressure

/-!
# All output of a frame is queued

A frame moves its output in reads of at most `outputChunk` frames, and each read is queued as far as
there is room. `Drains` is that loop without a bound on its reads. For a machine that hands out in order
what it has pending (`HandsOut`) the loop comes to an end, also where the machine reports more than it
delivers (`drains_moveOutput`), and at its end everything has been queued as by one push (`Drains.spec`).
`runFrame_queues_all_output` says this of a frame.
-/

namespace Handheld

theorem Ring.push_push {α : Type} (r : Ring α) (early late : List α) :
    ((r.push early).2.push late).2 = (r.push (early ++ late)).2 := by
  have hroom : (r.push early).2.room = r.room - early.length := by
    have hfits := r.fits
    simp only [room, length, items_push, List.length_append, List.length_take]
    show r.capacity - _ = _
    omega
  have hitems : ((r.push early).2.push late).2.items = (r.push (early ++ late)).2.items := by
    simp only [items_push, hroom, List.take_append, List.append_assoc]
  simp only [push, mk.injEq] at hitems ⊢
  exact ⟨trivial, hitems⟩

theorem Ring.items_push_eq_take {α : Type} (r : Ring α) (new : List α) :
    (r.push new).2.items = (r.items ++ new).take r.capacity := by
  rw [items_push, List.take_append, List.take_of_length_le r.fits]
  rfl

theorem Pipeline.push_push (p : Pipeline) (early late : List StereoFrame) :
    ((p.push early).2.push late).2 = (p.push (early ++ late)).2 := by
  simp only [Pipeline.push, SampleQueue.push, Ring.push_push]

/-- Machines hand out in order what they have pending: each reports no less than that, a read takes
something from its front and leaves the rest, and where there is anything it does not come back
empty. -/
structure HandsOut {M : Type} [Machine M] (pending : M → List StereoFrame) : Prop where
  reported (m : M) : (pending m).length ≤ Machine.outputLength m
  fits (m : M) (room : Nat) : (Machine.readOutput m room).answer.length ≤ room
  ordered (m : M) (room : Nat) :
    (Machine.readOutput m room).answer ++ pending (Machine.readOutput m room).machine = pending m
  delivers (m : M) (room : Nat) : 0 < room → pending m ≠ [] → (Machine.readOutput m room).answer ≠ []

namespace ScriptMachine

/-- What a script machine has pending; one that is stuck never hands it out. -/
def ticks (m : ScriptMachine) : List StereoFrame :=
  if m.script.stuck then [] else (List.range m.pending).map fun i => tick (m.played + i)

theorem handsOut : HandsOut ticks where
  reported m := by
    unfold ticks
    split
    · exact Nat.zero_le _
    · simp [Machine.outputLength]
  fits m room := by
    simp only [Machine.readOutput, read, List.length_map, List.length_range]
    split <;> omega
  ordered m room := by
    by_cases hstuck : m.script.stuck
    · simp [Machine.readOutput, read, ticks, hstuck]
    · have hpending : m.pending = min m.pending room + (m.pending - min m.pending room) := by omega
      simp only [Machine.readOutput, read, ticks, hstuck, Bool.false_eq_true, if_false]
      conv_rhs => rw [hpending, List.range_add, List.map_append, List.map_map]
      simp only [Function.comp_def, Nat.add_assoc]
  delivers m room hroom hticks := by
    have hstuck : ¬m.script.stuck := fun h => hticks (if_pos h)
    have hpending : 0 < m.pending := by
      rcases Nat.eq_zero_or_pos m.pending with h | h
      · exact absurd (by simp [ticks, h]) hticks
      · exact h
    simp only [Machine.readOutput, read, hstuck, Bool.false_eq_true, if_false, ne_eq,
      List.map_eq_nil_iff, List.range_eq_nil]
    omega

end ScriptMachine

theorem ToneMachine.handsOut : HandsOut (fun m : ToneMachine => m.output.toList) where
  reported m := by simp [Machine.outputLength]
  fits m room := by
    simp only [Machine.readOutput, Array.length_toList, Array.size_extract]
    omega
  ordered m room := by
    have hfront : m.output.extract 0 room = m.output.extract 0 (min room m.output.size) := by
      rw [Array.extract_eq_extract_right]
      omega
    simp only [Machine.readOutput]
    rw [← Array.toList_append, hfront, Array.extract_append_extract, Nat.zero_min,
      Nat.max_eq_right (Nat.min_le_right _ _), Array.extract_size]
  delivers m room hroom houtput hanswer := by
    have hsize : (m.output.extract 0 room).size = 0 := by
      rw [← Array.length_toList]
      exact congrArg List.length hanswer
    have hpositive : 0 < m.output.size := List.length_pos_iff.mpr houtput
    rw [Array.size_extract] at hsize
    omega

namespace CheckedTone

def pending : CheckedTone → List StereoFrame
  | .running m => m.output.toList
  | .ended _ => []

theorem handsOut : HandsOut pending where
  reported
    | .running m => ToneMachine.handsOut.reported m
    | .ended _ => Nat.le_refl 0
  fits
    | .running m => ToneMachine.handsOut.fits m
    | .ended _ => Nat.zero_le
  ordered
    | .running m => ToneMachine.handsOut.ordered m
    | .ended _ => fun _ => rfl
  delivers
    | .running m => ToneMachine.handsOut.delivers m
    | .ended _ => fun _ _ hpending => absurd rfl hpending

end CheckedTone

theorem HandsOut.sum {A B : Type} [Machine A] [Machine B] {left : A → List StereoFrame}
    {right : B → List StereoFrame} (hleft : HandsOut left) (hright : HandsOut right) :
    HandsOut (Sum.elim left right) where
  reported
    | .inl a => hleft.reported a
    | .inr b => hright.reported b
  fits
    | .inl a => hleft.fits a
    | .inr b => hright.fits b
  ordered
    | .inl a => hleft.ordered a
    | .inr b => hright.ordered b
  delivers
    | .inl a => hleft.delivers a
    | .inr b => hright.delivers b

namespace Worker

variable {F M : Type} [Machine M]

/-! ## The loop -/

/-- A read of at most a chunk: what was read, and the worker after it. -/
def readChunk (w : Worker F M) (i : Installed M) : List StereoFrame × Worker F M :=
  w.use i (fun out => .readOutput outputChunk out.length) (Machine.readOutput · outputChunk)

def queueChunk (w : Worker F M) (i : Installed M) : Worker F M :=
  { (w.readChunk i).2 with audio := ((w.readChunk i).2.audio.push (w.readChunk i).1).2 }

/-- Reads go on until the machine reports nothing or one comes back empty, however many it takes. -/
inductive Drains : Worker F M → Worker F M → Prop where
  | silent {w : Worker F M} {i : Installed M} (hi : w.machine = some i)
      (hlength : Machine.outputLength i.machine = 0) : Drains w w
  | starved {w : Worker F M} {i : Installed M} (hi : w.machine = some i)
      (hlength : Machine.outputLength i.machine ≠ 0) (hread : (w.readChunk i).1 = []) :
      Drains w (w.readChunk i).2
  | queued {w v : Worker F M} {i : Installed M} (hi : w.machine = some i)
      (hlength : Machine.outputLength i.machine ≠ 0) (hread : (w.readChunk i).1 ≠ [])
      (hrest : Drains (w.queueChunk i) v) : Drains w v

theorem Drains.unique {w v v' : Worker F M} (h : Drains w v) (h' : Drains w v') : v = v' := by
  induction h with
  | silent hi hlength =>
    cases h' with
    | silent => rfl
    | starved hj hlength' | queued hj hlength' =>
      cases hi.symm.trans hj
      exact absurd hlength hlength'
  | starved hi hlength hread =>
    cases h' with
    | silent hj hlength' =>
      cases hi.symm.trans hj
      exact absurd hlength' hlength
    | starved hj =>
      cases hi.symm.trans hj
      rfl
    | queued hj _ hread' =>
      cases hi.symm.trans hj
      exact absurd hread hread'
  | queued hi hlength hread _ ih =>
    cases h' with
    | silent hj hlength' =>
      cases hi.symm.trans hj
      exact absurd hlength' hlength
    | starved hj _ hread' =>
      cases hi.symm.trans hj
      exact absurd hread' hread
    | queued hj _ _ hrest =>
      cases hi.symm.trans hj
      exact ih hrest

theorem machine_readChunk (w : Worker F M) (i : Installed M) :
    (w.readChunk i).2.machine =
      some { i with machine := (Machine.readOutput i.machine outputChunk).machine } :=
  w.machine_use i _ _

theorem machine_queueChunk (w : Worker F M) (i : Installed M) :
    (w.queueChunk i).machine =
      some { i with machine := (Machine.readOutput i.machine outputChunk).machine } :=
  w.machine_readChunk i

theorem audio_queueChunk (w : Worker F M) (i : Installed M) :
    (w.queueChunk i).audio = (w.audio.push (Machine.readOutput i.machine outputChunk).answer).2 := by
  show ((w.readChunk i).2.audio.push _).2 = _
  rw [readChunk, audio_use]
  rfl

section
variable {pending : M → List StereoFrame}

/-- Where the machine hands out its output in order, the loop has taken all of it when it ends, and all
of it was queued as by one push. -/
theorem Drains.spec (h : HandsOut pending) {w v : Worker F M} (hdrains : Drains w v)
    {i : Installed M} (hi : w.machine = some i) :
    v.audio = (w.audio.push (pending i.machine)).2 ∧
      ∃ m, v.machine = some { i with machine := m } ∧ pending m = [] := by
  induction hdrains generalizing i with
  | @silent w j hj hlength =>
    obtain rfl : i = j := Option.some.inj (hi.symm.trans hj)
    have hnone : pending i.machine = [] := by
      have := h.reported i.machine
      exact List.length_eq_zero_iff.mp (by omega)
    rw [hnone, Pipeline.push_nil]
    exact ⟨rfl, i.machine, hj, hnone⟩
  | @starved w j hj hlength hread =>
    obtain rfl : i = j := Option.some.inj (hi.symm.trans hj)
    have hnone : pending i.machine = [] := by
      by_contra hsome
      exact h.delivers i.machine outputChunk (by decide) hsome hread
    have hordered := h.ordered i.machine outputChunk
    rw [hnone] at hordered
    rw [hnone, Pipeline.push_nil]
    exact ⟨w.audio_use i _ _, _, w.machine_readChunk i, (List.append_eq_nil_iff.mp hordered).2⟩
  | @queued w v j hj hlength hread hrest ih =>
    obtain rfl : i = j := Option.some.inj (hi.symm.trans hj)
    obtain ⟨haudio, m, hm, hnone⟩ := ih (w.machine_queueChunk i)
    refine ⟨?_, m, hm, hnone⟩
    rw [haudio, audio_queueChunk, Pipeline.push_push, h.ordered]

/-- A read for each pending frame and one more are enough for the loop to end. -/
theorem drains_moveOutput (h : HandsOut pending) (reads : Nat) {w : Worker F M} {i : Installed M}
    (hi : w.machine = some i) (hreads : (pending i.machine).length < reads) :
    Drains w (w.moveOutput reads) := by
  induction reads generalizing w i with
  | zero => omega
  | succ reads ih =>
    unfold moveOutput
    simp only [hi]
    split
    · next hlength => exact .silent hi hlength
    · next hlength =>
      split
      · next hempty => exact .starved hi hlength (List.isEmpty_iff.mp hempty)
      · next hsome =>
        have hread : (w.readChunk i).1 ≠ [] := fun hempty => hsome (List.isEmpty_iff.mpr hempty)
        refine .queued hi hlength hread (ih (w.machine_queueChunk i) ?_)
        have hshorter := congrArg List.length (h.ordered i.machine outputChunk)
        have htaken : 0 < (Machine.readOutput i.machine outputChunk).answer.length :=
          List.length_pos_iff.mpr hread
        rw [List.length_append] at hshorter
        dsimp only
        omega

end

/-! ## Frames -/

/-- The installed machine once it has heard the microphone and computed the frame. -/
def machineComputed (w : Worker F M) (i : Installed M) : Installed M :=
  let heard := Machine.hearMic i.machine (w.mic.nextFrame (w.edges.down .mic)).1
  { i with machine := (Machine.runFrame heard.machine w.input.frameInput).machine }

/-- The worker of a frame once the machine has computed it, before any output is moved. -/
def computed (w : Worker F M) (i : Installed M) : Worker F M :=
  let begun := (w.beginFrame i).2
  begun.useIfAny (.runFrame w.input.frameInput) (Machine.runFrame · w.input.frameInput)

theorem machine_beginFrame (w : Worker F M) (i : Installed M) :
    (w.beginFrame i).2.machine =
      some { i with
        machine := (Machine.hearMic i.machine (w.mic.nextFrame (w.edges.down .mic)).1).machine } :=
  let heard := w.mic.nextFrame (w.edges.down .mic)
  machine_use { w with mic := heard.2 } i (fun _ => .hearMic heard.1) (Machine.hearMic · heard.1)

theorem machine_computed (w : Worker F M) (i : Installed M) :
    (w.computed i).machine = some (w.machineComputed i) := by
  simp only [computed, useIfAny, machine_beginFrame, machine_use]
  rfl

theorem audio_computed (w : Worker F M) (i : Installed M) : (w.computed i).audio = w.audio := by
  let heard := w.mic.nextFrame (w.edges.down .mic)
  rw [computed, audio_useIfAny]
  exact audio_use { w with mic := heard.2 } i (fun _ => .hearMic heard.1) (Machine.hearMic · heard.1)

theorem runFrame_eq {w : Worker F M} {i : Installed M} (hi : w.machine = some i) :
    w.runFrame =
      { (w.computed i).moveAllOutput with frames := (w.computed i).moveAllOutput.frames + 1 } := by
  simp only [runFrame, hi, endFrame, machine_beginFrame, computed, useIfAny]
  rfl

/-- A frame leaves nothing pending in its machine, and the queue holds what fits of its old content
followed by all of the output. This is where the loop ends that reads without a bound, also where the
machine reports output that it does not deliver. -/
theorem runFrame_queues_all_output {pending : M → List StereoFrame} (h : HandsOut pending)
    {w : Worker F M} {i : Installed M} (hi : w.machine = some i) :
    let all := pending (w.machineComputed i).machine
    let ring := w.audio.queue.ring
    ∃ v m, (∀ v', (w.computed i).Drains v' ↔ v' = v) ∧
      w.runFrame = { v with frames := v.frames + 1 } ∧
      v.machine = some ⟨i.boot, m⟩ ∧ pending m = [] ∧ v.audio = (w.audio.push all).2 ∧
      v.audio.queue.ring.items = (ring.items ++ all).take ring.capacity := by
  intro all ring
  have hcomputed := w.machine_computed i
  have hmoved : (w.computed i).moveAllOutput =
      (w.computed i).moveOutput (Machine.outputLength (w.machineComputed i).machine + 1) := by
    simp only [moveAllOutput, hcomputed]
  have hdrains : (w.computed i).Drains (w.computed i).moveAllOutput := by
    rw [hmoved]
    exact drains_moveOutput h _ hcomputed (Nat.lt_succ_of_le (h.reported _))
  obtain ⟨haudio, m, hm, hnone⟩ := hdrains.spec h hcomputed
  refine ⟨_, m, fun v' => ⟨fun h' => h'.unique hdrains, fun h' => h' ▸ hdrains⟩, runFrame_eq hi, hm,
    hnone, ?_, ?_⟩
  · rw [haudio, audio_computed]
  · rw [haudio, audio_computed]
    exact ring.items_push_eq_take all

/-- A queue with room for three frames holds one, and the machine computes four; the rest of these is
gone. A machine that is stuck reports four frames and delivers none. -/
theorem queued_output_is_cut_to_capacity :
    let queue : SampleQueue := ⟨0, ⟨3, [⟨7, 8⟩], by decide⟩⟩
    let worker (stuck : Bool) : Worker ScriptFactory ScriptMachine :=
      let script : Script := { samplesPerFrame := 4, stuck }
      let blank := rehearsal script (.empty [])
      { blank with
        machine := some ⟨1, { script, state := #[] }⟩
        audio := { blank.audio with queue } }
    (worker false).runFrame.audio.queue.ring.items =
        [⟨7, 8⟩, ScriptMachine.tick 0, ScriptMachine.tick 1] ∧
      (worker true).runFrame.audio.queue.ring.items = [⟨7, 8⟩] := by
  intro queue worker
  constructor
  · obtain ⟨v, m, -, hframe, -, -, -, hitems⟩ :=
      runFrame_queues_all_output ScriptMachine.handsOut (w := worker false) rfl
    rw [hframe]
    exact hitems
  · obtain ⟨v, m, -, hframe, -, -, -, hitems⟩ :=
      runFrame_queues_all_output ScriptMachine.handsOut (w := worker true) rfl
    rw [hframe]
    exact hitems

end Worker

end Handheld
