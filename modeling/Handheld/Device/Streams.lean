import Handheld.Device.Host

/-!
# Open streams

The streams a computer has open, told apart by the instances that opened them. Callbacks go to the
stream that was opened last in their direction.
-/

namespace Handheld

/-- The owners of the open streams of each direction, the last opened first. -/
structure Streams where
  outputs : List Nat := []
  captures : List Nat := []
deriving DecidableEq

namespace Streams

/-- Put an owner in front, in place of the stream it had. -/
def renew (id : Nat) (owners : List Nat) : List Nat := id :: owners.filter (· ≠ id)

/-- An instance has opened an output stream, and perhaps a capture stream. -/
def opened (s : Streams) (id : Nat) (capture : Bool) : Streams :=
  { outputs := renew id s.outputs
    captures := if capture then renew id s.captures else s.captures }

/-- Some instances are gone, and their streams with them. -/
def without (s : Streams) (gone : Nat → Bool) : Streams :=
  { outputs := s.outputs.filter fun id => !gone id
    captures := s.captures.filter fun id => !gone id }

def count (s : Streams) : Nat := s.outputs.length + s.captures.length

end Streams

end Handheld
