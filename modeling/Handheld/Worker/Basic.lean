import Handheld.Audio.Pipeline
import Handheld.Input
import Handheld.Mic.Input
import Handheld.Worker.Journal

/-!
# Workers

A worker owns one machine at a time, the stores of its saves, and the sound, microphone and input of
its instance. Here are its state and the small steps everything else is made of: to publish, to
reply, to notify, and to make a call on the machine and see to what the machine asks for.
-/

namespace Handheld

/-- What workers share. -/
structure World where
  files : FileTree
  mute : MuteState := {}
  /-- The time of the clock that save requests are stamped with, in milliseconds. -/
  now : Nat := 0

/-- A machine and the boot it comes from. -/
structure Installed (M : Type) where
  boot : Nat
  machine : M

/-- A machine's state before a savestate load. -/
structure Backup where
  data : Bytes
  savePath : Option Path
deriving DecidableEq

/-- A worker whose machines of type `M` come from a factory of type `F`. -/
structure Worker (F M : Type) where
  id : Nat
  factory : F
  machine : Option (Installed M) := none
  /-- How often the factory was asked for a machine. -/
  boots : Nat := 0
  cart : SaveStore
  firmware : SaveStore
  /-- A machine has asked to be stopped. -/
  stopRequested : Bool := false
  audio : Pipeline
  mic : MicInput
  input : InputState := {}
  status : Status := .paused
  pauses : PauseStack := {}
  /-- Emulation was started and not stopped since. -/
  active : Bool := false
  edges : HotkeyEdges := {}
  fastForwardLatched : Bool := false
  /-- Frames follow each other without waiting. -/
  fastForward : Bool := false
  backup : Option Backup := none
  /-- Callers whose frame step has not run yet, in the order they came. -/
  waiting : List Caller := []
  shown : Shown := {}
  frames : Nat := 0
  /-- Messages for the screen, oldest first. -/
  notices : List String := []
  world : World
  /-- What happened, newest first. -/
  journal : List Event := []

/-- Messages kept for the screen. -/
def noticeLimit : Nat := 16

namespace Worker

variable {F M : Type}

/-- A worker that was never asked for anything, with the files its saves go to. -/
def new (id : Nat) (factory : F) (world : World) (cartSave firmwareSave : Option Path)
    (audio : Pipeline) (mic : MicInput) : Worker F M where
  id := id
  factory := factory
  world := world
  cart := .empty cartSave
  firmware := .empty firmwareSave
  audio := audio
  mic := mic

def note (w : Worker F M) (e : Event) : Worker F M := { w with journal := e :: w.journal }

def publish (w : Worker F M) : Worker F M :=
  { w with shown := ⟨w.status, w.pauses.depth, w.active⟩ }

def answer (w : Worker F M) (c : Caller) (r : Reply) : Worker F M :=
  w.note (.answered c r w.shown)

/-- Reply to whoever waits, if anybody does. -/
def respond (w : Worker F M) (c : Option Caller) (r : Reply) : Worker F M :=
  match c with
  | none => w
  | some c => w.answer c r

/-- Queue a message for the screen; the oldest gives way when there are too many. -/
def notify (w : Worker F M) (message : String) : Worker F M :=
  let kept := if w.notices.length = noticeLimit then w.notices.drop 1 else w.notices
  { w.note (.notified message) with notices := kept ++ [message] }

def takeNotices (w : Worker F M) : List String × Worker F M := (w.notices, { w with notices := [] })

/-- What was entered into the journal after it had so many events, newest first. -/
def eventsSince (w : Worker F M) (count : Nat) : List Event :=
  w.journal.take (w.journal.length - count)

/-- The latest reply to a caller since the journal had so many events. -/
def replySince (w : Worker F M) (count : Nat) (c : Caller) : Option Reply :=
  replyTo? c (w.eventsSince count)

def takeJournal (w : Worker F M) : List Event × Worker F M := (w.journal, { w with journal := [] })

/-! ## Calls on the machine -/

/-- See to a request of the machine from a boot. -/
def receive (boot : Nat) (w : Worker F M) (q : Request) : Worker F M :=
  let w := w.note (.requested boot q)
  match q with
  | .saveCart image offset length =>
    { w with cart := w.cart.request w.world.now image offset length }
  | .saveFirmware image offset length =>
    { w with firmware := w.firmware.request w.world.now image offset length }
  | .stop => { w with stopRequested := true }

/-- See to the requests of the machine from a boot, in order. -/
def receiveAll (w : Worker F M) (boot : Nat) (requests : List Request) : Worker F M :=
  requests.foldl (receive boot) w

/-- Make a call on a machine, which is the installed one from then on. -/
def use {α : Type} (w : Worker F M) (i : Installed M) (call : α → Call) (act : M → Outcome M α) :
    α × Worker F M :=
  let r := act i.machine
  let w := { w with machine := some { i with machine := r.machine } }
  (r.answer, (w.note (.called i.boot (call r.answer))).receiveAll i.boot r.requests)

def useIfAny (w : Worker F M) (call : Call) (act : M → Outcome M Unit) : Worker F M :=
  match w.machine with
  | none => w
  | some i => (w.use i (fun _ => call) act).2

/-! ## Sound -/

/-- Evaluate the mute policy and let sound out. -/
def enableAudio (w : Worker F M) : Worker F M :=
  { w with audio := (w.audio.refreshMute w.world.mute).enable }

def disableAudio (w : Worker F M) : Worker F M := { w with audio := w.audio.disable }

end Worker

end Handheld
