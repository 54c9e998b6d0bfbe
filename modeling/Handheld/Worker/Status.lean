/-!
# Worker status and nested pauses

Pause requests nest: only the first one pauses, and only the last release resumes, to whatever was
current before the first.
-/

namespace Handheld

inductive Status where
  | running
  | paused
  /-- Run one frame, then pause. -/
  | frameStep
  /-- Done for good. -/
  | exiting
deriving DecidableEq

def Status.name : Status → String
  | .running => "Running"
  | .paused => "Paused"
  | .frameStep => "FrameStep"
  | .exiting => "Exiting"

def Status.all : List Status := [.running, .paused, .frameStep, .exiting]

def Status.runsFrame : Status → Bool
  | .running => true
  | .frameStep => true
  | .paused => false
  | .exiting => false

/-- Outstanding pause requests, and the status to go back to. -/
structure PauseStack where
  depth : Nat := 0
  saved : Status := .paused
deriving DecidableEq

namespace PauseStack

/-- Add a request. Says whether it is the first, in which case `current` is kept for later. -/
def push (s : PauseStack) (current : Status) : Bool × PauseStack :=
  if s.depth = 0 then (true, ⟨1, current⟩) else (false, { s with depth := s.depth + 1 })

/-- Drop a request. Answers the status to restore when it was the last one; one too many is
ignored. -/
def pop (s : PauseStack) : Option Status × PauseStack :=
  if s.depth = 1 then (some s.saved, { s with depth := 0 })
  else (none, { s with depth := s.depth - 1 })

def clear (s : PauseStack) : PauseStack := { s with depth := 0 }

@[simp] theorem depth_push (s : PauseStack) (c : Status) : (s.push c).2.depth = s.depth + 1 := by
  unfold push; split <;> simp_all

@[simp] theorem depth_pop (s : PauseStack) : s.pop.2.depth = s.depth - 1 := by
  unfold pop; split <;> simp_all

end PauseStack

end Handheld
