import Handheld.Files.Atomic

/-!
# Save images on their way to disk

A machine reports every save write as a whole image; the store keeps the latest one with a version
number and writes it when it is told to. A write commits the version it carries: nothing is pending
exactly when the latest version is the committed one.
-/

namespace Handheld

/-- An image that was put on disk. -/
structure SaveWrite where
  path : Path
  image : Bytes
  version : Nat
deriving DecidableEq

/-- The latest save image and how much of its history is on disk. -/
structure SaveStore where
  /-- Where the image goes; none disables writing. -/
  path : Option Path
  /-- Room for images. It only grows: behind a short image lies what is left of longer ones. -/
  buffer : Bytes := #[]
  /-- How much of the buffer is the image of the latest request. -/
  length : Nat := 0
  /-- The bytes of each position that a request last marked as changed. -/
  secondary : Bytes := #[]
  pending : Bool := false
  /-- The time of the latest request. -/
  lastRequest : Option Nat := none
  /-- The version of the latest request. -/
  version : Nat := 0
  /-- The version of the latest write. -/
  flushed : Nat := 0
  /-- Successful writes. -/
  flushCount : Nat := 0
deriving DecidableEq

namespace SaveStore

def empty (path : Option Path) : SaveStore := { path }

/-- Bytes extended by zeros to a length, if they are shorter. -/
def grow (bytes : Bytes) (size : Nat) : Bytes :=
  Array.ofFn (n := max bytes.size size) fun i => bytes.getD i.1 0

/-- The old bytes with the given range taken from the new ones. -/
def overlay (old new : Bytes) (start stop : Nat) : Bytes :=
  Array.ofFn (n := old.size) fun i =>
    if start ≤ i.1 && i.1 < stop then new.getD i.1 0 else old.getD i.1 0

/-- Copy a range of new bytes over the same range of old ones; `none` where it is no range of both. -/
def copyRange? (old new : Bytes) (start stop : Nat) : Option Bytes :=
  if start ≤ stop ∧ stop ≤ new.size ∧ stop ≤ old.size then some (overlay old new start stop) else none

@[simp] theorem size_grow (bytes : Bytes) (size : Nat) :
    (grow bytes size).size = max bytes.size size := by
  simp [grow]

@[simp] theorem size_overlay (old new : Bytes) (start stop : Nat) :
    (overlay old new start stop).size = old.size := by
  simp [overlay]

theorem copyRange?_grow (old new : Bytes) {start stop : Nat} (hstart : start ≤ stop)
    (hstop : stop ≤ new.size) :
    copyRange? (grow old new.size) new start stop =
      some (overlay (grow old new.size) new start stop) := by
  rw [copyRange?, if_pos]
  simp only [size_grow]
  omega

def image (s : SaveStore) : Bytes := s.buffer.extract 0 s.length

/-- The largest length a range can reach: offsets and lengths are words of 64 bits. -/
def maxOffset : Nat := UInt64.size - 1

/-- The two buffers after a request, with the range that the machine changed cut to its image; `none`
where an access leaves a buffer. -/
def copies? (s : SaveStore) (image : Bytes) (offset length : Nat) : Option (Bytes × Bytes) := do
  let buffer ← copyRange? (grow s.buffer image.size) image 0 image.size
  let start := min (min offset maxOffset) image.size
  let stop := min (min (offset + length) maxOffset) image.size
  let secondary ← copyRange? (grow s.secondary image.size) image start stop
  return (buffer, secondary)

theorem copies?_eq (s : SaveStore) (image : Bytes) (offset length : Nat) :
    s.copies? image offset length =
      some (overlay (grow s.buffer image.size) image 0 image.size,
        overlay (grow s.secondary image.size) image (min (min offset maxOffset) image.size)
          (min (min (offset + length) maxOffset) image.size)) := by
  have hstart : min (min offset maxOffset) image.size ≤
      min (min (offset + length) maxOffset) image.size := by omega
  simp only [copies?, copyRange?_grow _ _ (Nat.zero_le _) (Nat.le_refl _),
    copyRange?_grow _ _ hstart (Nat.min_le_right _ _)]
  rfl

theorem isSome_copies? (s : SaveStore) (image : Bytes) (offset length : Nat) :
    (s.copies? image offset length).isSome := by
  rw [copies?_eq]
  rfl

/-- Record a save write at time `now`. -/
def request (s : SaveStore) (now : Nat) (image : Bytes) (offset length : Nat) : SaveStore :=
  let copies := (s.copies? image offset length).get (s.isSome_copies? image offset length)
  { s with
    buffer := copies.1
    length := image.size
    secondary := copies.2
    pending := true
    lastRequest := some now
    version := s.version + 1 }

/-- What a write would put where, if there is anything to write and a path for it. -/
def nextWrite (s : SaveStore) : Option SaveWrite :=
  if s.pending then s.path.map fun p => ⟨p, s.image, s.version⟩ else none

def commit (s : SaveStore) (w : SaveWrite) : SaveStore :=
  { s with
    flushed := max s.flushed w.version
    pending := s.version ≠ w.version
    flushCount := s.flushCount + 1 }

/-- The result of an attempt to write: the new store and file tree, whether nothing is left to do,
and what was put on disk. -/
structure Flush where
  store : SaveStore
  files : FileTree
  done : Bool
  written : Option SaveWrite := none

/-- Put on disk what was taken from the store before, and commit its version if the disk takes it.
Requests may have come since. -/
def attempt (s : SaveStore) (w : SaveWrite) (t : FileTree) (disk : Disk := {}) : Flush :=
  match t.replaceFile w.path w.image disk with
  | (t, .ok ()) => ⟨s.commit w, t, true, some w⟩
  | (t, .error _) => ⟨s, t, false, none⟩

/-- Write the image now, if one is pending. Fails without a path, and where the disk does. -/
def checkFlush (s : SaveStore) (t : FileTree) (disk : Disk := {}) : Flush :=
  match s.nextWrite with
  | none => ⟨s, t, !s.pending, none⟩
  | some w => s.attempt w t disk

/-- A write is due: one is pending, has a path, and the last request is at least `debounce` ago. -/
def isDue (s : SaveStore) (now debounce : Nat) : Bool :=
  s.pending && s.path.isSome &&
    match s.lastRequest with
    | none => false
    | some last => debounce ≤ now - last

/-- The latest image never made it to disk. -/
def isStale (s : SaveStore) : Bool := s.pending && s.version ≠ s.flushed

/-- Copy the changed bytes to the front of a buffer that is large enough, and say whether it was. -/
def copySecondary (s : SaveStore) (buffer : Bytes) : Bool × Bytes :=
  if buffer.size < s.secondary.size then (false, buffer)
  else (true, s.secondary ++ buffer.extract s.secondary.size buffer.size)

def setPath (s : SaveStore) (path : Option Path) : SaveStore := { s with path }

end SaveStore

end Handheld
