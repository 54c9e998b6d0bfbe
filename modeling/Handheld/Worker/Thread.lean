import Handheld.Worker.Pass

/-!
# Worker threads

A worker seen from outside: commands are sent to its mailbox, and it goes through its passes until it
is inside a frame or has nothing to do. A frame takes time; what is sent meanwhile is handled after
it, in order.
-/

namespace Handheld

inductive Place where
  | idle
  /-- The machine computes a frame from its input. -/
  | inFrame (input : FrameInput)
  /-- The frame is computed, and what is left of its time goes by. -/
  | resting
  | gone
deriving DecidableEq

/-- A worker, its mailbox, and where its thread is. -/
structure WorkerThread (F M : Type) where
  worker : Worker F M
  mailbox : List Envelope := []
  place : Place := .idle
  /-- Nobody has asked the thread to end. -/
  wanted : Bool := true

namespace WorkerThread

variable {F M : Type}

def send (t : WorkerThread F M) (e : Envelope) : Except WorkerError (WorkerThread F M) :=
  if t.wanted then .ok { t with mailbox := t.mailbox ++ [e] } else .error .disconnected

def isInFrame (t : WorkerThread F M) : Bool :=
  match t.place with
  | .inFrame _ => true
  | _ => false

def isAlive (t : WorkerThread F M) : Bool := t.place ≠ .gone

/-- A caller has its reply, as far back as the journal goes. -/
def hasReply (t : WorkerThread F M) (c : Caller) : Bool := (replyTo? c t.worker.journal).isSome

/-- Change the worker while its thread stays where it is. -/
def mapWorker (t : WorkerThread F M) (f : Worker F M → Worker F M) : WorkerThread F M :=
  { t with worker := f t.worker }

/-- The command that toggles the pause, by what can be seen now. -/
def toggleCommand (t : WorkerThread F M) : Command :=
  if t.worker.shown.status = .paused then .unpause else .pause

variable [Machine M] [Factory F M]

/-- The end of a pass: handle what is in the mailbox. -/
def takeMail (t : WorkerThread F M) (w : Worker F M) : WorkerThread F M :=
  { t with worker := w.handleAll t.mailbox, mailbox := [], place := .idle }

/-- Start a pass, and go through it unless it has a frame. -/
def startPass (t : WorkerThread F M) : WorkerThread F M :=
  let w := t.worker.poll
  if !w.status.runsFrame then t.takeMail w
  else match w.machine with
    | none => t.takeMail w.settleFrame
    | some i =>
      let (input, w) := w.beginFrame i
      { t with worker := w, place := .inFrame input }

/-- Take up the work, unless that is up to the machine. -/
def goOn (t : WorkerThread F M) : WorkerThread F M :=
  match t.place with
  | .idle =>
    if t.wanted then t.startPass else { t with worker := t.worker.shutdown, place := .gone }
  | .resting => t.takeMail t.worker
  | .inFrame _ => t
  | .gone => t

def goOnFor : Nat → WorkerThread F M → WorkerThread F M
  | 0, t => t
  | n + 1, t => goOnFor n t.goOn

/-- Enough turns to come to rest: one ends a frame, one takes the mail, one runs each step of a
worker without a machine, and the others see to hotkeys and stop requests. -/
def turnsToRest (t : WorkerThread F M) : Nat := t.worker.waiting.length + t.mailbox.length + 5

/-- Go on until inside a frame, idle or gone. -/
def advance (t : WorkerThread F M) : WorkerThread F M := goOnFor t.turnsToRest t

omit [Factory F M] in
def computeFrame (t : WorkerThread F M) : WorkerThread F M :=
  match t.place with
  | .inFrame input => { t with worker := (t.worker.endFrame input).settleFrame, place := .resting }
  | _ => t

/-- The machine is through with the frame, and its time is over: end the pass and go on. -/
def finishFrame (t : WorkerThread F M) : WorkerThread F M := t.computeFrame.advance

/-- At most so many frames, each only if the thread is inside one. -/
def finishFrames : Nat → WorkerThread F M → WorkerThread F M
  | 0, t => t
  | n + 1, t => if t.isInFrame then finishFrames n t.finishFrame else t

/-- Finish frames, at most so many, until something holds. -/
def finishUntil (enough : WorkerThread F M → Bool) : Nat → WorkerThread F M → WorkerThread F M
  | 0, t => t
  | n + 1, t => if enough t || !t.isInFrame then t else finishUntil enough n t.finishFrame

/-- Ask the thread to end, and wait until it has: a frame under way is finished, and what is in the
mailbox is handled. -/
def stop (t : WorkerThread F M) : WorkerThread F M := { t with wanted := false }.finishFrame

/-! ## Callers -/

/-- Finish frames until none of the given callers waits any more, then end. No caller waits for more
frames than there are callers before it, and the frame under way. -/
def shutdown (t : WorkerThread F M) (callers : List Caller) : WorkerThread F M :=
  (t.finishUntil (fun t => callers.all t.hasReply) t.turnsToRest).stop

/-- Send a command for a caller, and go on until inside a frame or idle. -/
def post (t : WorkerThread F M) (e : Envelope) : Except WorkerError (WorkerThread F M) :=
  (t.send e).map advance

/-- The caller of commands that wait for their reply at once. -/
def director : Caller := 0

/-- The caller of the pauses that go with the focus of the window, and of their releases. -/
def keeper : Caller := 1

/-- Send a command for a caller and go on until it is answered. A step takes one frame for each caller
before it and one for itself, after the frame under way. -/
def askFor (t : WorkerThread F M) (caller : Caller) (c : Command) : Reply × WorkerThread F M :=
  match t.send ⟨c, some caller⟩ with
  | .error e => (.error e, t)
  | .ok sent =>
    let since := t.worker.journal.length
    let t := finishUntil (fun t => (t.worker.replySince since caller).isSome) sent.turnsToRest
      sent.advance
    ((t.worker.replySince since caller).getD (.error .disconnected), t)

/-- Send a command and go on until it is answered. -/
def ask (t : WorkerThread F M) (c : Command) : Reply × WorkerThread F M := t.askFor director c

end WorkerThread

end Handheld
