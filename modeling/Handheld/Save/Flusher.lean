import Handheld.Save.Store

/-!
# Debounced writing

A flusher watches a store and writes its image once requests have been quiet for a while. Times are
in milliseconds and come from a clock that the caller moves.
-/

namespace Handheld

/-- A store and the thread that watches it. -/
structure Flusher where
  store : SaveStore
  /-- Quiet time before a write. -/
  debounce : Nat
  /-- The thread has not been stopped. -/
  alive : Bool := true

namespace Flusher

/-- Let the thread act at time `now`: one attempt, if a write is due. A failed one is left for the
next time. -/
def act (f : Flusher) (now : Nat) (t : FileTree) : Flusher × FileTree :=
  if f.alive && f.store.isDue now f.debounce then
    let r := f.store.checkFlush t
    ({ f with store := r.store }, r.files)
  else (f, t)

/-- Stop the thread. An image that never made it to disk is written once more, due or not. -/
def stop (f : Flusher) (t : FileTree) : Flusher × FileTree :=
  let stopped := { f with alive := false }
  if f.alive && f.store.isStale then
    let r := f.store.checkFlush t
    ({ stopped with store := r.store }, r.files)
  else (stopped, t)

end Flusher

end Handheld
