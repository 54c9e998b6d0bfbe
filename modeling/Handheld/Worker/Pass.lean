import Handheld.Worker.Control
import Handheld.Worker.Frame

/-!
# Passes

A worker goes through the same pass again and again: look at the hotkeys, take a machine's wish to be
stopped, run a frame if one is due, and handle the commands that have come. Callers of frame steps
are kept waiting until their frame has run, or until it is clear that it will not.
-/

namespace Handheld

namespace Worker

variable {F M : Type}

/-- Give every caller of a frame step that has not run the same reply. -/
def answerSteps (w : Worker F M) (r : Reply) : Worker F M :=
  w.waiting.foldl (fun w c => w.answer c r) { w with waiting := [] }

/-- Let go of the callers of frame steps that will not run, and publish. -/
def settle (w : Worker F M) : Worker F M :=
  match w.status with
  | .frameStep => w.publish
  | .exiting => (w.answerSteps (.error .exiting)).publish
  | .running => (w.answerSteps (.ok ())).publish
  | .paused => (w.answerSteps (.ok ())).publish

/-! ## Hotkeys -/

def onPress (w : Worker F M) (k : Hotkey) (act : Worker F M → Worker F M) : Worker F M :=
  if w.edges.pressed k then act w else w

def togglePause (w : Worker F M) : Worker F M := if w.status = .paused then w.unpause else w.pause

/-- Go through frames without waiting while the hotkey is down, or while the latch is set. -/
def updateFastForward (w : Worker F M) : Worker F M :=
  let latched := w.fastForwardLatched != w.edges.pressed .fastForwardToggle
  { w with
    fastForwardLatched := latched
    fastForward := w.edges.down .fastForward || latched }

def changeVolume (up : Bool) (w : Worker F M) : Worker F M :=
  let (volume, audio) := w.audio.stepVolume up
  { w with audio }.notify ("Volume: " ++ toString volume.toNat)

def sampleHotkeys (w : Worker F M) : Worker F M :=
  { w with edges := w.edges.update w.input.hotkeysDown }

variable [Machine M]

/-- Turn the machine off as the power button does. -/
def pressPower (w : Worker F M) : Worker F M := if w.active then w.stop true else w

def actOnHotkeys (w : Worker F M) : Worker F M :=
  let w := w.onPress .pause togglePause
  let w := w.onPress .reset fun w => w.reset.1
  let w := w.onPress .powerButton pressPower
  let w := w.onPress .frameStep frameStep
  let w := w.updateFastForward
  let w := w.onPress .volumeUp (changeVolume true)
  let w := w.onPress .volumeDown (changeVolume false)
  w.settle

/-- Sample the hotkeys and act on them, unless exiting. -/
def pollHotkeys (w : Worker F M) : Worker F M :=
  let w := w.sampleHotkeys
  if w.status = .exiting then w else w.actOnHotkeys

def takeStop (w : Worker F M) : Worker F M :=
  if w.stopRequested then ({ w with stopRequested := false }.stop false).settle else w

/-- The first part of a pass: hotkeys and stop requests. -/
def poll (w : Worker F M) : Worker F M := w.pollHotkeys.takeStop

/-- The second part: a frame, if the status asks for one. -/
def frame (w : Worker F M) : Worker F M :=
  if w.status.runsFrame then w.runFrame.settleFrame else w

/-! ## The mailbox -/

variable [Factory F M]

/-- Carry out a command from the mailbox. Callers get their reply when the new state can be seen;
those of frame steps wait for the frame. -/
def serve (w : Worker F M) (e : Envelope) : Worker F M :=
  match w.apply e.command with
  | (w, r) =>
    if e.command = .frameStep then { w with waiting := w.waiting ++ e.caller.toList }.settle
    else w.settle.respond e.caller r

/-- Take a command from the mailbox. Once exiting, nothing is carried out any more. -/
def handle (w : Worker F M) (e : Envelope) : Worker F M :=
  let w := w.note (.taken e)
  if w.status = .exiting then w.respond e.caller (.error .exiting) else w.serve e

def handleAll (w : Worker F M) (mailbox : List Envelope) : Worker F M := mailbox.foldl handle w

/-- A whole pass, with the commands that have come when its frame is over. -/
def pass (w : Worker F M) (mailbox : List Envelope) : Worker F M :=
  w.poll.frame.handleAll mailbox

def passes (w : Worker F M) (mailboxes : List (List Envelope)) : Worker F M :=
  mailboxes.foldl pass w

omit [Factory F M] in
/-- Stop the machine and be done. Nobody is left waiting. -/
def shutdown (w : Worker F M) : Worker F M :=
  let w := w.useIfAny .stop Machine.stop
  let w := { w with machine := none, active := false, status := .exiting }.disableAudio
  (w.answerSteps (.error .exiting)).publish

end Worker

end Handheld
