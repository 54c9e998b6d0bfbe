/-!
# Which instances are heard

A single instance is never muted. Once two or more run at the same time, the mode decides which of
them reach the speakers.
-/

namespace Handheld

inductive MuteMode where
  | all
  /-- The one with id zero. -/
  | firstOnly
  /-- The one that has the focus. -/
  | activeOnly
deriving DecidableEq

/-- What the mute decision of every instance depends on. -/
structure MuteState where
  mode : MuteMode := .all
  instances : Nat := 0
  focused : Option Nat := none
deriving DecidableEq

namespace MuteState

/-- The one id that cannot be focused: the largest word. -/
def unfocusable : Nat := UInt64.size - 1

def setFocused (s : MuteState) (id : Option Nat) : MuteState :=
  { s with focused := id.filter (· ≠ unfocusable) }

/-- Instance `id` is silenced. -/
def isMuted (s : MuteState) (id : Nat) : Bool :=
  if s.instances < 2 then false
  else match s.mode with
    | .all => false
    | .firstOnly => 0 < id
    | .activeOnly => s.focused ≠ some id

theorem isMuted_of_instances_lt_two {s : MuteState} (h : s.instances < 2) (id : Nat) :
    s.isMuted id = false := by
  simp [isMuted, h]

end MuteState

end Handheld
