import Handheld.Proofs.Audio.Consumption
import Handheld.Proofs.Worker.Batching
import Handheld.Proofs.Worker.Lockstep

/-!
# Backpressure

A frame in small steps, so that devices can take sound between any two reads of a machine's output. The
worker's own frames are among these runs (`frame_eq_run`). A worker that waits until the queue is down
to the threshold starts every frame with the whole headroom free, and a frame that yields no more than
that loses nothing, whenever callbacks come (`frames_lose_nothing`).
-/

namespace Handheld

namespace Worker

variable {F M : Type}

/-! ## Who touches the queue

Only what a frame moves is queued; no other operation of a worker touches the queue. -/

theorem queue_pause (w : Worker F M) : w.pause.audio.queue = w.audio.queue := by
  unfold pause
  dsimp only
  split
  · rfl
  · split <;> rfl

theorem queue_unpause (w : Worker F M) : w.unpause.audio.queue = w.audio.queue := by
  unfold unpause
  split
  · rfl
  · dsimp only
    split <;> rfl

theorem queue_frameStep (w : Worker F M) : w.frameStep.audio.queue = w.audio.queue := by
  show (if w.pauses.depth = 0 then w.pause else w).audio.queue = w.audio.queue
  split
  · exact w.queue_pause
  · rfl

theorem audio_settle (w : Worker F M) : w.settle.audio = w.audio := by
  obtain ⟨_, _, _, h⟩ := w.settle_eq
  rw [h]

theorem audio_respond (w : Worker F M) (c : Option Caller) (r : Reply) :
    (w.respond c r).audio = w.audio := by
  cases c <;> rfl

theorem audio_settleFrame (w : Worker F M) : w.settleFrame.audio = w.audio := by
  by_cases h : w.status = .frameStep
  · rw [settleFrame_of_step h, audio_respond]
    rfl
  · rw [settleFrame, if_neg h]
    rfl

theorem audio_outside_flush (w : Worker F M) (kind : SaveKind) :
    (w.outside (.flush kind)).audio = w.audio := by
  have hnote : ∀ (kind : SaveKind) (write : Option SaveWrite),
      (w.noteWrite kind write).audio = w.audio := by
    intro kind write
    cases write <;> rfl
  cases kind with
  | cart => exact hnote .cart _
  | firmware => exact hnote .firmware _

theorem audio_retarget (w : Worker F M) (path : Option Path) : (w.retarget path).audio = w.audio :=
  w.audio_outside_flush .cart

theorem audio_writeFile (w : Worker F M) (path : Path) (data : Bytes) :
    (w.writeFile path data).1.audio = w.audio := by
  unfold writeFile
  split
  · rfl
  · split <;> rfl

theorem audio_receiveAll (w : Worker F M) (boot : Nat) (requests : List Request) :
    (w.receiveAll boot requests).audio = w.audio := by
  obtain ⟨_, _, _, _, h⟩ := w.receiveAll_eq boot requests
  rw [h]

theorem audio_use {α : Type} (w : Worker F M) (i : Installed M) (call : α → Call)
    (act : M → Outcome M α) : (w.use i call act).2.audio = w.audio := by
  obtain ⟨_, _, _, _, _, h⟩ := w.use_eq i call act
  rw [h]

theorem audio_useIfAny (w : Worker F M) (call : Call) (act : M → Outcome M Unit) :
    (w.useIfAny call act).audio = w.audio := by
  obtain ⟨_, _, _, _, _, h⟩ := w.useIfAny_eq call act
  rw [h]

variable [Machine M]

theorem queue_stop (w : Worker F M) (external : Bool) :
    (w.stop external).audio.queue = w.audio.queue := by
  cases external with
  | false => rfl
  | true =>
    show (w.useIfAny .stop Machine.stop).audio.queue = w.audio.queue
    rw [audio_useIfAny]

theorem queue_reset (w : Worker F M) : w.reset.1.audio.queue = w.audio.queue := by
  unfold reset
  split
  · rfl
  · next i _ =>
    show (w.use i (fun _ => .reset) Machine.reset).2.audio.queue = w.audio.queue
    rw [audio_use]

theorem audio_saveState (w : Worker F M) (path : Path) : (w.saveState path).1.audio = w.audio := by
  unfold saveState
  split
  · rfl
  · next i _ =>
    unfold takeState
    rw [use_answer]
    cases (Machine.saveState i.machine).answer with
    | error e => exact w.audio_use i _ _
    | ok data => exact (audio_writeFile _ path data).trans (w.audio_use i _ _)

theorem audio_giveState (w : Worker F M) (data : Bytes) : (w.giveState data).1.audio = w.audio := by
  unfold giveState
  split
  · rfl
  · next i _ =>
    have hused := w.audio_use i (fun _ => .loadState data) (Machine.loadState · data)
    rw [use_answer]
    cases (Machine.loadState i.machine data).answer <;> exact hused

theorem audio_loadState (w : Worker F M) (path : Path) : (w.loadState path).1.audio = w.audio := by
  unfold loadState
  split
  · rfl
  · next i _ =>
    have hbackup : (if w.active then w.takeBackup i else w).audio = w.audio := by
      split
      · unfold takeBackup takeState
        rw [use_answer]
        cases (Machine.saveState i.machine).answer <;> exact w.audio_use i _ _
      · rfl
    dsimp only
    split
    · exact hbackup
    · exact (audio_giveState _ _).trans hbackup

theorem audio_undoLoad (w : Worker F M) : w.undoLoad.1.audio = w.audio := by
  unfold undoLoad
  split
  · rfl
  · rfl
  · next b _ _ =>
    have hgiven := audio_giveState { w with backup := none } b.data
    split
    · next v e hv => rwa [show _ = v from congrArg Prod.fst hv] at hgiven
    · next v hv =>
      rw [show _ = v from congrArg Prod.fst hv] at hgiven
      split <;> exact hgiven

theorem audio_importSave (w : Worker F M) (path : Path) : (w.importSave path).1.audio = w.audio := by
  unfold importSave
  split
  · rfl
  · next i _ =>
    split
    · rfl
    · next data _ =>
      have hused := w.audio_use i (fun _ => .importSave data) (Machine.importSave · data)
      rw [use_answer]
      cases (Machine.importSave i.machine data).answer <;> exact hused

theorem audio_insertCart (w : Worker F M) (paths : List Path) :
    (w.insertCart paths).1.audio = w.audio := by
  unfold insertCart
  split
  · rfl
  · next i _ =>
    split
    · rfl
    · next rom _ =>
      have hused := (audio_use _ i (fun _ => .insertCart rom) (Machine.insertCart · rom)).trans
        (w.audio_retarget (some (cartSavePath rom.path w.id)))
      dsimp only
      rw [use_answer]
      cases (Machine.insertCart i.machine rom).answer <;> exact hused

theorem audio_install (w : Worker F M) (i : Installed M) : (w.install i).audio = w.audio :=
  (audio_use _ i _ Machine.start).trans (w.audio_useIfAny .stop Machine.stop)

theorem beginFrame_eq_use (w : Worker F M) (i : Installed M) :
    let heard := w.mic.nextFrame (w.edges.down .mic)
    (w.beginFrame i).2 =
      ({ w with mic := heard.2 }.use i (fun _ => .hearMic heard.1) (Machine.hearMic · heard.1)).2 := rfl

theorem audio_beginFrame (w : Worker F M) (i : Installed M) : (w.beginFrame i).2.audio = w.audio := by
  rw [beginFrame_eq_use]
  exact audio_use _ i _ _

theorem queue_poll (w : Worker F M) : w.poll.audio.queue = w.audio.queue := by
  have hpress : ∀ (u : Worker F M) (k : Hotkey) {act : Worker F M → Worker F M},
      (∀ v, (act v).audio.queue = v.audio.queue) → (u.onPress k act).audio.queue = u.audio.queue := by
    intro u k act hact
    unfold onPress
    split
    · exact hact u
    · rfl
  have htoggle : ∀ u : Worker F M, u.togglePause.audio.queue = u.audio.queue := by
    intro u
    unfold togglePause
    split
    · exact u.queue_unpause
    · exact u.queue_pause
  have hpower : ∀ u : Worker F M, u.pressPower.audio.queue = u.audio.queue := by
    intro u
    unfold pressPower
    split
    · exact u.queue_stop true
    · rfl
  have hvolume : ∀ (up : Bool) (u : Worker F M), (u.changeVolume up).audio.queue = u.audio.queue :=
    fun _ _ => rfl
  have hacted : ∀ u : Worker F M, u.actOnHotkeys.audio.queue = u.audio.queue := by
    intro u
    unfold actOnHotkeys
    dsimp only
    rw [audio_settle, hpress _ _ (hvolume false), hpress _ _ (hvolume true)]
    show (Worker.onPress _ .frameStep frameStep).audio.queue = u.audio.queue
    rw [hpress _ _ queue_frameStep, hpress _ _ hpower, hpress _ _ queue_reset, hpress _ _ htoggle]
  have hpolled : w.pollHotkeys.audio.queue = w.audio.queue := by
    unfold pollHotkeys
    dsimp only
    split
    · rfl
    · exact hacted _
  unfold poll takeStop
  split
  · rw [audio_settle, queue_stop]
    exact hpolled
  · exact hpolled

variable [Factory F M]

theorem audio_boot (w : Worker F M) (rom : Option Rom) (savePath : Option Path) :
    (w.boot rom savePath).1.audio = w.audio := by
  have hasked : ∀ b : Boot F M, (w.asked rom savePath b).audio = w.audio := fun b =>
    (audio_receiveAll _ _ _).trans (w.audio_retarget savePath)
  rw [boot_eq]
  split
  · exact (audio_install _ _).trans (hasked _)
  · exact hasked _

theorem queue_apply (w : Worker F M) (c : Command) : (w.apply c).1.audio.queue = w.audio.queue := by
  have hsame : ∀ v : Worker F M, v.audio = w.audio → v.audio.queue = w.audio.queue :=
    fun v h => congrArg Pipeline.queue h
  cases c with
  | run => rfl
  | pause => exact w.queue_pause
  | unpause => exact w.queue_unpause
  | stop external => exact w.queue_stop external
  | frameStep => exact w.queue_frameStep
  | reset => exact w.queue_reset
  | exit => rfl
  | bootRom paths =>
    show (w.bootRom paths).1.audio.queue = w.audio.queue
    unfold bootRom
    split
    · rfl
    · exact hsame _ (w.audio_boot _ _)
  | bootFirmware => exact hsame _ (w.audio_boot none none)
  | insertCart paths => exact hsame _ (w.audio_insertCart paths)
  | ejectCart => exact hsame _ ((audio_retarget _ none).trans (w.audio_useIfAny _ _))
  | saveState path => exact hsame _ (w.audio_saveState path)
  | loadState path => exact hsame _ (w.audio_loadState path)
  | undoLoad => exact hsame _ w.audio_undoLoad
  | importSave path => exact hsame _ (w.audio_importSave path)
  | setCheats on => exact hsame _ (w.audio_useIfAny _ _)

theorem queue_handle (w : Worker F M) (e : Envelope) : (w.handle e).audio.queue = w.audio.queue := by
  unfold handle serve
  dsimp only
  split
  · rw [audio_respond]
    rfl
  · split
    · rw [audio_settle]
      exact queue_apply (w.note (.taken e)) e.command
    · rw [audio_respond, audio_settle]
      exact queue_apply (w.note (.taken e)) e.command

end Worker

theorem Pipeline.push_nil (p : Pipeline) : p.push [] = (0, p) := by
  simp only [Pipeline.push, SampleQueue.push, Ring.push, List.take_nil, List.length_nil, List.append_nil]

/-! ## Frames in small steps -/

/-- Where a worker is with its frame. -/
inductive Stage where
  | between
  /-- The machine has its input. -/
  | computing (input : FrameInput)
  /-- The machine has computed, and so many frames of its output have been read. -/
  | moving (moved : Nat)
  /-- Everything is queued, and the worker waits for the devices. -/
  | syncing

/-- A worker in the course of its frames, and the renderers that drain its queue. -/
structure Playback (F M : Type) where
  worker : Worker F M
  renderers : List Renderer := []
  stage : Stage := .between
  /-- How many frames of output did not fit into the queue. -/
  dropped : Nat := 0

inductive PlaybackAct (F : Type) where
  /-- Between frames the worker polls. -/
  | poll
  /-- Between frames the worker takes a command. -/
  | take (e : Envelope)
  /-- A frame begins, if the status asks for one and there is a machine to run it. -/
  | begin
  | compute
  /-- A chunk of output is read and queued. -/
  | move
  /-- No output is left, or the machine does not deliver it. -/
  | finish
  /-- The wait for the devices is over, in time or not. In time it is over when the queue lets the
  worker go on, and not before. -/
  | sync (inTime : Bool)
  /-- A renderer has to fill a callback of `length` frames. -/
  | render (renderer length : Nat)
  | attach (deviceRate : Nat)
  | detach (renderer : Nat)
  /-- What else others do, which leaves the queue alone. -/
  | outside (o : Outside F)

namespace Playback

variable {F M : Type}

def queue (s : Playback F M) : SampleQueue := s.worker.audio.queue

/-- How many frames of output have been read in the frame under way. -/
def moved (s : Playback F M) : Nat :=
  match s.stage with
  | .moving moved => moved
  | _ => 0

/-- Let a renderer fill a callback; one that is not there fills none. -/
def callback (s : Playback F M) (renderer length : Nat) : Playback F M :=
  match s.renderers[renderer]? with
  | none => s
  | some r =>
    let (_, r, audio) := s.worker.audio.render r length
    { s with worker.audio := audio, renderers := s.renderers.set renderer r }

def attach (s : Playback F M) (deviceRate : Nat) : Playback F M :=
  let (r, audio) := s.worker.audio.attach deviceRate
  { s with worker.audio := audio, renderers := s.renderers ++ [r] }

def detach (s : Playback F M) (renderer : Nat) : Playback F M :=
  if renderer < s.renderers.length then
    { s with worker.audio := s.worker.audio.detach, renderers := s.renderers.eraseIdx renderer }
  else s

def outside (s : Playback F M) (o : Outside F) : Playback F M :=
  { s with worker := { s.worker.outside o with audio.queue := s.queue } }

def sync (s : Playback F M) (inTime : Bool) : Playback F M :=
  match s.stage with
  | .syncing =>
    if inTime && !s.worker.audio.sync then s
    else { s with worker := s.worker.settleFrame, stage := .between }
  | _ => s

def finish (s : Playback F M) : Playback F M :=
  match s.stage with
  | .moving _ => { s with worker.frames := s.worker.frames + 1, stage := .syncing }
  | _ => s

variable [Machine M]

/-- Without a machine, the frame is over at once. -/
def begin (s : Playback F M) : Playback F M :=
  match s.stage with
  | .between =>
    if s.worker.status.runsFrame then
      match s.worker.machine with
      | none => { s with worker := s.worker.settleFrame }
      | some i =>
        let (input, worker) := s.worker.beginFrame i
        { s with worker, stage := .computing input }
    else s
  | _ => s

def compute (s : Playback F M) : Playback F M :=
  match s.stage, s.worker.machine with
  | .computing input, some i =>
    { s with
      worker := (s.worker.use i (fun _ => .runFrame input) (Machine.runFrame · input)).2
      stage := .moving 0 }
  | _, _ => s

def move (s : Playback F M) : Playback F M :=
  match s.stage, s.worker.machine with
  | .moving moved, some i =>
    let (out, w) := s.worker.use i (fun out => .readOutput outputChunk out.length)
      (Machine.readOutput · outputChunk)
    let (accepted, audio) := w.audio.push out
    { s with
      worker := { w with audio }
      stage := .moving (moved + out.length)
      dropped := s.dropped + (out.length - accepted) }
  | _, _ => s

variable [Factory F M]

def rest (s : Playback F M) (f : Worker F M → Worker F M) : Playback F M :=
  match s.stage with
  | .between => { s with worker := f s.worker }
  | _ => s

def step (s : Playback F M) : PlaybackAct F → Playback F M
  | .poll => s.rest Worker.poll
  | .take e => s.rest (·.handle e)
  | .begin => s.begin
  | .compute => s.compute
  | .move => s.move
  | .finish => s.finish
  | .sync inTime => s.sync inTime
  | .render renderer length => s.callback renderer length
  | .attach deviceRate => s.attach deviceRate
  | .detach renderer => s.detach renderer
  | .outside o => s.outside o

def run (s : Playback F M) (acts : List (PlaybackAct F)) : Playback F M := acts.foldl step s

/-! ## The frames of a worker are among these runs -/

theorem run_append (s : Playback F M) (early late : List (PlaybackAct F)) :
    s.run (early ++ late) = (s.run early).run late := List.foldl_append

theorem run_concat (s : Playback F M) (acts : List (PlaybackAct F)) (a : PlaybackAct F) :
    s.run (acts ++ [a]) = (s.run acts).step a := s.run_append acts [a]

theorem moveOutput_eq_run (s : Playback F M) {moved : Nat} (hstage : s.stage = .moving moved)
    (reads : Nat) : ∃ moves read dropped,
      s.run (List.replicate moves .move) =
        { s with worker := s.worker.moveOutput reads, stage := .moving read, dropped } := by
  induction reads generalizing s moved with
  | zero => exact ⟨0, moved, s.dropped, by rw [← hstage]; rfl⟩
  | succ reads ih =>
    unfold Worker.moveOutput
    split
    · exact ⟨0, moved, s.dropped, by rw [← hstage]; rfl⟩
    · next i hi =>
      split
      · exact ⟨0, moved, s.dropped, by rw [← hstage]; rfl⟩
      · dsimp only
        rcases hread : s.worker.use i (fun out => .readOutput outputChunk out.length)
          (Machine.readOutput · outputChunk) with ⟨out, w⟩
        have hmove : s.move =
            { s with
              worker := { w with audio := (w.audio.push out).2 }
              stage := .moving (moved + out.length)
              dropped := s.dropped + (out.length - (w.audio.push out).1) } := by
          simp only [move, hstage, hi, hread]
        simp only [hread]
        cases out with
        | nil =>
          refine ⟨1, moved, s.dropped, ?_⟩
          show s.move = _
          rw [hmove, Pipeline.push_nil]
          rfl
        | cons frame out =>
          obtain ⟨moves, read, dropped, hrest⟩ := ih s.move (by rw [hmove])
          refine ⟨moves + 1, read, dropped, ?_⟩
          rw [List.replicate_succ]
          show s.move.run _ = _
          rw [hrest, hmove]
          rfl

theorem endFrame_eq_run (s : Playback F M) {input : FrameInput} {i : Installed M}
    (hstage : s.stage = .computing input) (hmachine : s.worker.machine = some i) :
    ∃ acts dropped, s.run acts =
      { s with worker := s.worker.endFrame input, stage := .syncing, dropped } := by
  rcases hcomputed : s.worker.use i (fun _ => .runFrame input) (Machine.runFrame · input) with ⟨_, w⟩
  have hcompute : s.compute = { s with worker := w, stage := .moving 0 } := by
    simp only [compute, hstage, hmachine, hcomputed]
  obtain ⟨j, hj⟩ : ∃ j, w.machine = some j := by
    have hinstalled := s.worker.machine_use i (fun _ => .runFrame input) (Machine.runFrame · input)
    rw [hcomputed] at hinstalled
    exact ⟨_, hinstalled⟩
  have hend : s.worker.endFrame input =
      { w.moveOutput (Machine.outputLength j.machine + 1) with
        frames := (w.moveOutput (Machine.outputLength j.machine + 1)).frames + 1 } := by
    simp only [Worker.endFrame, Worker.moveAllOutput, hmachine, hcomputed, hj]
  obtain ⟨moves, read, dropped, hmoves⟩ :=
    moveOutput_eq_run s.compute (by rw [hcompute]) (Machine.outputLength j.machine + 1)
  refine ⟨.compute :: (List.replicate moves .move ++ [.finish]), dropped, ?_⟩
  show s.compute.run (List.replicate moves .move ++ [.finish]) = _
  rw [run_append, hmoves, hcompute, hend]
  rfl

theorem frame_eq_run (s : Playback F M) (hstage : s.stage = .between) :
    ∃ acts dropped, s.run acts = { s with worker := s.worker.frame, dropped } := by
  unfold Worker.frame Worker.runFrame
  split
  · next hruns =>
    rcases hmachine : s.worker.machine with - | i
    · have hbegin : s.begin = { s with worker := s.worker.settleFrame } := by
        simp only [begin, hstage, hruns, hmachine, if_true]
      exact ⟨[.begin], s.dropped, hbegin⟩
    · rcases hbegun : s.worker.beginFrame i with ⟨input, w⟩
      have hbegin : s.begin = { s with worker := w, stage := .computing input } := by
        simp only [begin, hstage, hruns, hmachine, hbegun, if_true]
      obtain ⟨j, hj⟩ : ∃ j, w.machine = some j := by
        have hw : (s.worker.beginFrame i).2 = w := congrArg Prod.snd hbegun
        rw [← hw, Worker.beginFrame_eq_use]
        exact ⟨_, Worker.machine_use _ i _ _⟩
      obtain ⟨acts, dropped, hend⟩ :=
        endFrame_eq_run s.begin (by rw [hbegin] : s.begin.stage = .computing input)
          (by rw [hbegin, hj] : s.begin.worker.machine = some j)
      refine ⟨.begin :: (acts ++ [.sync false]), dropped, ?_⟩
      show s.begin.run (acts ++ [.sync false]) = _
      rw [run_append, hend, hbegin]
      simp only [run, List.foldl_cons, List.foldl_nil, step, sync, hbegun, hstage, Bool.false_and,
        Bool.false_eq_true, if_false]
  · exact ⟨[], s.dropped, rfl⟩

/-! ## What a step does to the queue -/

/-- How much may stand in the queue beyond the threshold, as far as the frame has got. -/
def allowance (s : Playback F M) : Nat :=
  match s.stage with
  | .between => 0
  | .computing _ => 0
  | .moving moved => min moved queueHeadroom
  | .syncing => queueHeadroom

omit [Machine M] [Factory F M] in
theorem allowance_of_moving {s : Playback F M} {moved : Nat} (h : s.stage = .moving moved) :
    s.allowance = min moved queueHeadroom := by
  simp only [allowance, h]

/-- A step leaves the queue alone, starts the worker on its next frame, lets a renderer take the oldest
frames, or moves output. -/
inductive Effect (a : PlaybackAct F) (s t : Playback F M) : Prop where
  | rests (hqueue : t.queue = s.queue) (hdropped : t.dropped = s.dropped)
      (hallowance : s.allowance ≤ t.allowance)
  | resumes (inTime : Bool) (ha : a = .sync inTime) (hqueue : t.queue = s.queue)
      (hdropped : t.dropped = s.dropped) (hsync : inTime = true → s.worker.audio.sync = true)
  | drains (n : Nat) (hqueue : t.queue = (s.queue.read n).2) (hdropped : t.dropped = s.dropped)
      (hstage : t.stage = s.stage)
  | moves (moved : Nat) (out : List StereoFrame) (hstage : s.stage = .moving moved)
      (hmoved : t.stage = .moving (moved + out.length)) (hqueue : t.queue = (s.queue.push out).2)
      (hdropped : t.dropped = s.dropped + (out.length - (s.queue.push out).1))

omit [Machine M] [Factory F M] in
theorem Effect.refl (a : PlaybackAct F) (s : Playback F M) : Effect a s s := .rests rfl rfl (Nat.le_refl _)

omit [Machine M] [Factory F M] in
theorem effect_callback (s : Playback F M) (renderer length : Nat) :
    Effect (.render renderer length) s (s.callback renderer length) := by
  unfold callback
  rcases hr : s.renderers[renderer]? with - | r
  · exact .refl _ s
  · obtain ⟨-, hdrained⟩ := SoundSession.render_draws s.worker.audio r length
    cases henabled : s.worker.audio.enabled with
    | false =>
      rw [henabled, if_neg Bool.false_ne_true] at hdrained
      exact .rests (congrArg Pipeline.queue hdrained) rfl (Nat.le_refl _)
    | true =>
      rw [henabled, if_pos rfl] at hdrained
      exact .drains _ (congrArg Pipeline.queue hdrained) rfl rfl

omit [Factory F M] in
theorem effect_begin (s : Playback F M) : Effect (.begin : PlaybackAct F) s s.begin := by
  unfold begin
  split
  · next hstage =>
    split
    · split
      · exact .rests (congrArg Pipeline.queue s.worker.audio_settleFrame) rfl (by simp [allowance])
      · next i _ =>
        refine .rests (congrArg Pipeline.queue (s.worker.audio_beginFrame i)) rfl ?_
        simp [allowance, hstage]
    · exact .refl _ s
  · exact .refl _ s

omit [Factory F M] in
theorem effect_compute (s : Playback F M) : Effect (.compute : PlaybackAct F) s s.compute := by
  unfold compute
  split
  · next input i hstage _ =>
    have haudio := s.worker.audio_use i (fun _ => .runFrame input) (Machine.runFrame · input)
    exact .rests (congrArg Pipeline.queue haudio) rfl (by simp [allowance, hstage])
  · exact .refl _ s

omit [Factory F M] in
theorem effect_move (s : Playback F M) : Effect (.move : PlaybackAct F) s s.move := by
  unfold move
  split
  · next moved i hstage _ =>
    have haudio := s.worker.audio_use i (fun out => .readOutput outputChunk out.length)
      (Machine.readOutput · outputChunk)
    rw [Worker.use_answer]
    refine .moves moved _ hstage rfl ?_ ?_
    · show (Pipeline.push _ _).2.queue = _
      rw [haudio]
      rfl
    · show s.dropped + (_ - (Pipeline.push _ _).1) = _
      rw [haudio]
      rfl
  · exact .refl _ s

omit [Machine M] [Factory F M] in
theorem effect_sync (s : Playback F M) (inTime : Bool) : Effect (.sync inTime) s (s.sync inTime) := by
  unfold sync
  split
  · split
    · exact .refl _ s
    · next hgo =>
      refine .resumes inTime rfl (congrArg Pipeline.queue s.worker.audio_settleFrame) rfl fun htime => ?_
      simpa [htime] using hgo
  · exact .refl _ s

omit [Machine M] [Factory F M] in
theorem effect_rest (a : PlaybackAct F) (s : Playback F M) {f : Worker F M → Worker F M}
    (h : (f s.worker).audio.queue = s.queue) : Effect a s (s.rest f) := by
  unfold rest
  split
  · exact .rests h rfl (Nat.le_refl _)
  · exact .refl _ s

theorem effect_step (s : Playback F M) (a : PlaybackAct F) : Effect a s (s.step a) := by
  cases a with
  | poll => exact effect_rest _ s s.worker.queue_poll
  | take e => exact effect_rest (f := (·.handle e)) _ s (s.worker.queue_handle e)
  | begin => exact s.effect_begin
  | compute => exact s.effect_compute
  | move => exact s.effect_move
  | finish =>
    show Effect _ s s.finish
    unfold finish
    split
    · next hstage =>
      refine .rests rfl rfl ?_
      rw [allowance, hstage]
      exact Nat.min_le_right _ _
    · exact .refl _ s
  | sync inTime => exact s.effect_sync inTime
  | render renderer length => exact s.effect_callback renderer length
  | attach deviceRate => exact .rests rfl rfl (Nat.le_refl _)
  | detach renderer =>
    show Effect _ s (s.detach renderer)
    unfold detach
    split
    · exact .rests rfl rfl (Nat.le_refl _)
    · exact .refl _ s
  | outside o => exact .rests rfl rfl (Nat.le_refl _)

/-! ## Nothing is lost -/

/-- The queue has room for a threshold's worth of frames and the headroom. -/
structure Sized (n : Nat) (s : Playback F M) : Prop where
  threshold : s.queue.threshold = n
  capacity : s.queue.ring.capacity = n + queueHeadroom

theorem sized_step {n : Nat} {s : Playback F M} (h : s.Sized n) (a : PlaybackAct F) :
    (s.step a).Sized n := by
  have hqueue : (s.step a).queue.threshold = s.queue.threshold ∧
      (s.step a).queue.ring.capacity = s.queue.ring.capacity := by
    cases s.effect_step a with
    | rests hqueue | resumes _ _ hqueue | drains _ hqueue | moves _ _ _ _ hqueue =>
      rw [hqueue]
      exact ⟨rfl, rfl⟩
  exact ⟨hqueue.1.trans h.threshold, hqueue.2.trans h.capacity⟩

theorem sized_run {n : Nat} {s : Playback F M} (h : s.Sized n)
    (acts : List (PlaybackAct F)) : (s.run acts).Sized n := by
  induction acts generalizing s with
  | nil => exact h
  | cons a acts ih => exact ih (sized_step h a)

/-- Sound is let out and somebody listens, and a frame yields no more than the headroom. -/
structure Steady (s : Playback F M) : Prop where
  enabled : s.worker.audio.enabled = true
  hasRenderer : s.worker.audio.hasRenderer = true
  yield : s.moved ≤ 4096

instance (s : Playback F M) : Decidable s.Steady :=
  decidable_of_iff (s.worker.audio.enabled = true ∧ s.worker.audio.hasRenderer = true ∧ s.moved ≤ 4096)
    ⟨fun h => ⟨h.1, h.2.1, h.2.2⟩, fun h => ⟨h.enabled, h.hasRenderer, h.yield⟩⟩

theorem steady_render {s : Playback F M} (h : s.Steady) (renderer length : Nat) :
    (s.step (.render renderer length)).Steady := by
  show (s.callback renderer length).Steady
  unfold callback
  split
  · exact h
  · next r _ =>
    obtain ⟨-, hdrained⟩ := SoundSession.render_draws s.worker.audio r length
    rw [if_pos h.enabled] at hdrained
    refine ⟨?_, ?_, ?_⟩
    · show (Pipeline.render _ r length).2.2.enabled = true
      rw [hdrained]
      exact h.enabled
    · show (Pipeline.render _ r length).2.2.hasRenderer = true
      rw [hdrained]
      exact h.hasRenderer
    · have hyield := h.yield
      unfold Playback.moved at hyield ⊢
      exact hyield

theorem steady_sync {s : Playback F M} (h : s.Steady) (inTime : Bool) :
    (s.step (.sync inTime)).Steady := by
  show (s.sync inTime).Steady
  unfold sync
  split
  · split
    · exact h
    · refine ⟨?_, ?_, Nat.zero_le _⟩
      · exact (congrArg Pipeline.enabled s.worker.audio_settleFrame).trans h.enabled
      · exact (congrArg Pipeline.hasRenderer s.worker.audio_settleFrame).trans h.hasRenderer
  · exact h

/-- Beyond the threshold there is only what the frame has moved. -/
structure Ahead (n lost : Nat) (s : Playback F M) : Prop extends Sized n s where
  filled : s.queue.ring.length ≤ n + s.allowance
  dropped : s.dropped = lost

theorem ahead_step {n lost : Nat} {s : Playback F M} (h : s.Ahead n lost) (hs : s.Steady)
    {a : PlaybackAct F} (ht : (s.step a).Steady) (hsync : a ≠ .sync false) :
    (s.step a).Ahead n lost := by
  have hsized := sized_step h.toSized a
  have hfilled := h.filled
  cases s.effect_step a with
  | rests hqueue hdropped hallowance =>
    refine ⟨hsized, ?_, hdropped.trans h.dropped⟩
    rw [hqueue]
    omega
  | resumes inTime ha hqueue hdropped hspace =>
    cases inTime with
    | false => exact absurd ha hsync
    | true =>
      refine ⟨hsized, ?_, hdropped.trans h.dropped⟩
      have hgo := hspace rfl
      rw [Pipeline.sync, hs.enabled, hs.hasRenderer] at hgo
      have hspace : s.queue.ring.length ≤ s.queue.threshold := by
        simpa [SampleQueue.hasSpace, queue] using hgo
      rw [hqueue, ← h.threshold]
      exact Nat.le_add_right_of_le hspace
  | drains k hqueue hdropped hstage =>
    refine ⟨hsized, ?_, hdropped.trans h.dropped⟩
    have hfewer : (s.queue.read k).2.ring.length ≤ s.queue.ring.length := by
      show (s.queue.ring.items.drop k).length ≤ _
      rw [List.length_drop]
      exact Nat.sub_le ..
    rw [hqueue, allowance, hstage]
    exact Nat.le_trans hfewer hfilled
  | moves moved out hstage hmoved hqueue hdropped =>
    have hyield : moved + out.length ≤ queueHeadroom := by
      have := ht.yield
      rwa [Playback.moved, hmoved] at this
    have hall : moved + out.length = (s.step a).allowance := by
      rw [allowance_of_moving hmoved, Nat.min_eq_left hyield]
    have hbefore : s.allowance = moved := by
      rw [allowance_of_moving hstage, Nat.min_eq_left (Nat.le_trans (Nat.le_add_right ..) hyield)]
    -- The headroom that the frame has not used yet takes the chunk.
    have hroom : out.length ≤ s.queue.ring.room := by
      rw [Ring.room, h.capacity]
      omega
    have htaken : out.take s.queue.ring.room = out := List.take_of_length_le hroom
    have haccepted : (s.queue.push out).1 = out.length := congrArg List.length htaken
    refine ⟨hsized, ?_, ?_⟩
    · rw [hqueue, ← hall]
      show (s.queue.ring.items ++ out.take s.queue.ring.room).length ≤ _
      rw [htaken, List.length_append]
      have : s.queue.ring.items.length ≤ n + moved := hbefore ▸ hfilled
      omega
    · rw [hdropped, haccepted, Nat.sub_self]
      exact h.dropped

theorem ahead_run {n lost : Nat} {s : Playback F M} (h : s.Ahead n lost) {acts : List (PlaybackAct F)}
    (hsteady : ∀ done, done <+: acts → (s.run done).Steady) (hsync : .sync false ∉ acts) :
    (s.run acts).Ahead n lost := by
  induction acts generalizing s with
  | nil => exact h
  | cons a acts ih =>
    obtain ⟨ha, hacts⟩ : .sync false ≠ a ∧ .sync false ∉ acts := by simpa using hsync
    have hnext : ∀ done, done <+: acts → ((s.step a).run done).Steady := fun done hdone =>
      hsteady (a :: done) (List.cons_prefix_cons.mpr ⟨rfl, hdone⟩)
    exact ih (ahead_step h (hsteady [] List.nil_prefix) (hnext [] List.nil_prefix) (Ne.symm ha)) hnext hacts

/-- **No sound is lost while devices keep up.** Whatever came before: from a frame that starts with at
most a device buffer of frames queued, as long as sound is let out and a renderer is there, each frame
yields at most 4096 frames, and every wait is over in time, no frame of output is dropped and never are
there more than 4096 queued beyond the device buffer. Callbacks may come at any moment. -/
theorem frames_lose_nothing (id : Nat) (factory : F) (world : World)
    (cartSave firmwareSave : Option Path) (audio : AudioConfig) (emu : EmuConfig) (mic : MicInput)
    (early late : List (PlaybackAct F)) :
    let threshold := audio.bufferSize.toNat
    let fresh : Playback F M :=
      { worker := .new id factory world cartSave firmwareSave (.new id audio emu world.mute) mic }
    let s := fresh.run early
    s.stage = .between → s.queue.ring.length ≤ threshold →
      (∀ done, done <+: late → (s.run done).Steady) → .sync false ∉ late →
      ∀ done, done <+: late →
        (s.run done).dropped = s.dropped ∧ (s.run done).queue.ring.length ≤ threshold + 4096 := by
  intro threshold fresh s hstage hqueued hsteady hsync done hdone
  have hsized : s.Sized threshold := sized_run (s := fresh) ⟨rfl, rfl⟩ early
  have hstart : s.Ahead threshold s.dropped :=
    { hsized with filled := Nat.le_add_right_of_le hqueued, dropped := rfl }
  have hahead : (s.run done).Ahead threshold s.dropped :=
    ahead_run hstart (fun early hearly => hsteady early (hearly.trans hdone)) fun h => hsync (hdone.subset h)
  refine ⟨hahead.dropped, Nat.le_trans hahead.filled (Nat.add_le_add_left ?_ _)⟩
  unfold allowance
  split
  · exact Nat.zero_le _
  · exact Nat.zero_le _
  · exact Nat.min_le_right _ _
  · exact Nat.le_refl _

/-- With a device buffer of 512 frames, 1500 frames of output are queued in two reads, and callbacks come
until the worker may go on. -/
theorem frames_lose_nothing_of_large_frame :
    let fresh : Playback ScriptFactory ScriptMachine :=
      { worker := .new 0 { script := { samplesPerFrame := 1500 } } { files := .empty [] } none none
          (.new 0 { bufferSize := 512 } {} {}) (.new (.empty []) .silence none) }
    let s := fresh.run [.attach 48000, .take ⟨.bootFirmware, none⟩, .take ⟨.run, none⟩]
    let late : List (PlaybackAct ScriptFactory) :=
      [.poll, .begin, .compute, .move, .move, .finish, .render 0 512, .render 0 512, .sync true]
    (s.stage = .between ∧ s.queue.ring.length ≤ 512 ∧
        (∀ done, done <+: late → (s.run done).Steady) ∧ .sync false ∉ late) ∧
      (s.run (late.take 6)).queue.ring.length = 1500 ∧
      ∀ done, done <+: late →
        (s.run done).dropped = s.dropped ∧ (s.run done).queue.ring.length ≤ 512 + 4096 := by
  intro fresh s late
  have hearly : ∀ k ≤ 6, (s.run (late.take k)).Steady := by decide +kernel
  have hfirst : (s.run (late.take 7)).Steady := by
    rw [show late.take 7 = late.take 6 ++ [.render 0 512] from rfl, run_concat]
    exact steady_render (hearly 6 (Nat.le_refl 6)) 0 512
  have hsecond : (s.run (late.take 8)).Steady := by
    rw [show late.take 8 = late.take 7 ++ [.render 0 512] from rfl, run_concat]
    exact steady_render hfirst 0 512
  have hlast : (s.run late).Steady := by
    rw [show late = late.take 8 ++ [.sync true] from rfl, run_concat]
    exact steady_sync hsecond true
  have hsteady : ∀ done, done <+: late → (s.run done).Steady := by
    intro done hdone
    rw [List.prefix_iff_eq_take.mp hdone]
    rcases Nat.lt_or_ge done.length 9 with hshort | hlong
    · rcases Nat.lt_or_ge 6 done.length with hlate | hlate
      · obtain h | h : done.length = 7 ∨ done.length = 8 := by omega
        · rw [h]
          exact hfirst
        · rw [h]
          exact hsecond
      · exact hearly _ hlate
    · rw [List.take_of_length_le hlong]
      exact hlast
  have hsync : .sync false ∉ late := by simp [late]
  exact ⟨⟨rfl, Nat.zero_le _, hsteady, hsync⟩, by decide +kernel,
    frames_lose_nothing 0 _ _ none none { bufferSize := 512 } {} _ _ late rfl (Nat.zero_le _) hsteady hsync⟩

end Playback

end Handheld
