import Handheld.Device.Capture
import Handheld.Device.Output
import Handheld.Worker.Thread

/-!
# Instances

A worker thread with its audio devices and its part in the window focus. When an instance ends, the
worker stops first, then the devices close, and then the save stores write what is left.
-/

namespace Handheld

structure Instance (F M : Type) where
  thread : WorkerThread F M
  output : Option OutputDevice := none
  capture : Option CaptureDevice := none
  pauseOnFocusLoss : Bool := false
  /-- A lost focus has paused the worker, and it was not regained since. -/
  focusPaused : Bool := false

namespace Instance

variable {F M : Type}

def new (id : Nat) (config : Config) (factory : F) (world : World) (firmwareSave : Option Path) :
    Instance F M where
  thread :=
    { worker :=
        .new id factory world none firmwareSave (.new id config.audio config.emu world.mute)
          (.new world.files config.mic.input config.mic.wavPath) }
  pauseOnFocusLoss := config.emu.pauseOnFocusLoss

def id (i : Instance F M) : Nat := i.thread.worker.id

/-- Change the worker, which goes on from there. -/
def mapWorker (i : Instance F M) (f : Worker F M → Worker F M) : Instance F M :=
  { i with thread := i.thread.mapWorker f }

/-- Queue sound as if the machine had made it, and say how much of it fit. -/
def pushAudio (i : Instance F M) (frames : List StereoFrame) : Nat × Instance F M :=
  let (n, audio) := i.thread.worker.audio.push frames
  (n, i.mapWorker fun w => { w with audio })

/-- Write the cartridge and the firmware save now, and say of each whether nothing is left to do. -/
def checkSaves (i : Instance F M) : (Bool × Bool) × Instance F M :=
  let (cart, w) := i.thread.worker.flushCart
  let (firmware, w) := w.flushFirmware
  ((cart, firmware), i.mapWorker fun _ => w)

def refreshMute (i : Instance F M) : Instance F M :=
  i.mapWorker fun w => { w with audio := w.audio.refreshMute w.world.mute }

/-! ## Devices -/

/-- Take over an output device that was opened, in place of the one there is. -/
def setOutput (i : Instance F M) (o : OutputDevice) : Instance F M :=
  let closed := match i.output with
    | none => i
    | some old => i.mapWorker fun w => { w with audio := old.close w.audio }
  { closed with output := some o }

/-- Open the output device, and the capture device if the microphone is to use one. Without an output
there is an error and nothing changes; a microphone that cannot be opened is only reported. -/
def openDevices (i : Instance F M) (host : AudioHost) (config : Config) :
    Instance F M × Except DeviceError (Option DeviceError) :=
  match OutputDevice.connect host i.thread.worker.audio config.audio with
  | (audio, .error e) => (i.mapWorker fun w => { w with audio }, .error e)
  | (audio, .ok o) =>
    let i := (i.mapWorker fun w => { w with audio }).setOutput o
    if config.mic.input ≠ .external then (i, .ok none)
    else match CaptureDevice.connect host (config.mic.device.map String.ofList) with
      | .error e => (i, .ok (some e))
      | .ok c => ({ i with capture := some c }, .ok none)

/-- The sample format of the output device, where there is one. -/
def outputFormat (i : Instance F M) : SampleFormat :=
  (i.output.map fun o => o.stream.shape.format).getD .i16

/-- The sample format of the capture device, where there is one. -/
def captureFormat (i : Instance F M) : SampleFormat :=
  (i.capture.map fun c => c.stream.shape.format).getD .i16

def playOut (i : Instance F M) (buffer : List DeviceSample) :
    Option (List DeviceSample) × Instance F M :=
  match i.output with
  | none => (none, i)
  | some o =>
    let (out, o, audio) := o.callback i.thread.worker.audio buffer
    (some out, { i.mapWorker (fun w => { w with audio }) with output := some o })

def capturedIn (i : Instance F M) (data : List DeviceSample) : Instance F M :=
  match i.capture with
  | none => i
  | some c =>
    let (c, mic) := c.callback i.thread.worker.mic data
    { i.mapWorker (fun w => { w with mic }) with capture := some c }

def closeDevices (i : Instance F M) : Instance F M :=
  match i.output with
  | none => { i with capture := none }
  | some o =>
    { i.mapWorker (fun w => { w with audio := o.close w.audio }) with
      output := none
      capture := none }

/-! ## Commands and focus -/

variable [Machine M] [Factory F M]

def ask (i : Instance F M) (c : Command) : Reply × Instance F M :=
  let (r, thread) := i.thread.ask c
  (r, { i with thread })

/-- Send a command that goes with the focus, and wait for its reply. -/
def askForFocus (i : Instance F M) (c : Command) : Reply × Instance F M :=
  let (r, thread) := i.thread.askFor WorkerThread.keeper c
  (r, { i with thread })

/-- The window loses the focus: pause, if that is wanted and not done already. -/
def loseFocus (i : Instance F M) : Instance F M :=
  if !i.pauseOnFocusLoss || i.focusPaused then i
  else match i.askForFocus .pause with
    | (.ok (), i) => { i with focusPaused := true }
    | (.error _, i) => i

/-- The window gains the focus: undo the pause of its loss. -/
def gainFocus (i : Instance F M) : Instance F M :=
  if !i.focusPaused then i else ({ i with focusPaused := false }.askForFocus .unpause).2

/-- Let the worker run on, for at most so many frames. -/
def runOn (i : Instance F M) (frames : Nat) : Instance F M :=
  { i with thread := i.thread.advance.finishFrames frames }

def destroy (i : Instance F M) : Instance F M :=
  ({ i with thread := i.thread.stop }.closeDevices).mapWorker Worker.closeSaves

end Instance

end Handheld
