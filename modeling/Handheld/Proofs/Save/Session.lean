import Handheld.Save.Flusher

/-!
# A store in use

What each operation does to a store is stated once, here: `image_request` for requests, `attempt_ok`
and `attempt_error` for writes, `checkFlush_cases` for attempts to write what is pending. A
`SaveSession` is a flusher with its disk and its clock, and with what was requested and what was
written so far; a run of it is a fold of total steps over a list of events. A write takes its
snapshot in one step and reaches the disk in a later one, so that requests may fall in between
(`snapshot`, `finish`); `act_eq` and `stop_eq` say that the steps of the thread are those of
`Flusher`.
-/

namespace Handheld

namespace SaveStore

/-! ## Single operations -/

theorem extract_overlay {old new : Bytes} (h : new.size ≤ old.size) :
    (overlay old new 0 new.size).extract 0 new.size = new := by
  apply Array.ext
  · rw [Array.size_extract, size_overlay]
    omega
  · intro i hi hnew
    simp [overlay, hnew]

@[simp] theorem image_request (s : SaveStore) (now : Nat) (image : Bytes) (offset length : Nat) :
    (s.request now image offset length).image = image := by
  simp only [SaveStore.image, request, copies?_eq, Option.get_some]
  exact extract_overlay (by rw [size_grow]; omega)

theorem nextWrite_eq_some {s : SaveStore} {w : SaveWrite} (h : s.nextWrite = some w) :
    s.pending = true ∧ s.path = some w.path ∧ w.image = s.image ∧ w.version = s.version := by
  unfold nextWrite at h
  split at h
  · next hp =>
    obtain ⟨p, hpath, rfl⟩ := Option.map_eq_some_iff.mp h
    exact ⟨hp, hpath, rfl, rfl⟩
  · cases h

theorem nextWrite_of_pending {s : SaveStore} {p : Path} (hp : s.pending = true)
    (hpath : s.path = some p) : s.nextWrite = some ⟨p, s.image, s.version⟩ := by
  simp [nextWrite, hp, hpath]

theorem attempt_ok {s : SaveStore} {w : SaveWrite} {t t' : FileTree} {disk : Disk}
    (h : t.replaceFile w.path w.image disk = (t', .ok ())) :
    s.attempt w t disk = ⟨s.commit w, t', true, some w⟩ := by
  rw [attempt, h]

theorem attempt_error {s : SaveStore} {w : SaveWrite} {t t' : FileTree} {disk : Disk} {e : FileError}
    (h : t.replaceFile w.path w.image disk = (t', .error e)) :
    s.attempt w t disk = ⟨s, t', false, none⟩ := by
  rw [attempt, h]

theorem attempt_cases (s : SaveStore) (w : SaveWrite) (t : FileTree) (disk : Disk := {}) :
    ((s.attempt w t disk).store = s.commit w ∧ (s.attempt w t disk).done = true ∧
      (s.attempt w t disk).written = some w) ∨
    ((s.attempt w t disk).store = s ∧ (s.attempt w t disk).done = false ∧
      (s.attempt w t disk).written = none) := by
  rcases h : t.replaceFile w.path w.image disk with ⟨t', e | _⟩
  · right; rw [attempt_error h]; exact ⟨rfl, rfl, rfl⟩
  · left; rw [attempt_ok h]; exact ⟨rfl, rfl, rfl⟩

theorem checkFlush_cases (s : SaveStore) (t : FileTree) (disk : Disk := {}) :
    (s.nextWrite = none ∧ s.checkFlush t disk = ⟨s, t, !s.pending, none⟩) ∨
    ∃ w, s.nextWrite = some w ∧ s.checkFlush t disk = s.attempt w t disk := by
  cases h : s.nextWrite with
  | none => left; simp [checkFlush, h]
  | some w => right; exact ⟨w, rfl, by simp [checkFlush, h]⟩

theorem done_checkFlush (s : SaveStore) (t : FileTree) :
    (s.checkFlush t).done = true ↔ (s.checkFlush t).store.pending = false := by
  rcases checkFlush_cases s t with ⟨-, h⟩ | ⟨w, hw, h⟩
  · simp [h]
  · obtain ⟨hp, -, -, hv⟩ := nextWrite_eq_some hw
    rw [h]
    rcases attempt_cases s w t with ⟨hs, hd, -⟩ | ⟨hs, hd, -⟩
    · simp [hs, hd, commit, hv]
    · simp [hs, hd, hp]

end SaveStore

/-! ## Sessions -/

structure SaveRequest where
  time : Nat
  image : Bytes
deriving DecidableEq

structure DiskWrite where
  time : Nat
  write : SaveWrite
deriving DecidableEq

/-- A flusher in use. -/
structure SaveSession where
  flusher : Flusher
  files : FileTree
  now : Nat := 0
  /-- A snapshot that is on its way to the disk. -/
  underway : Option SaveWrite := none
  /-- All requests, oldest first: version `n` is the `n`th of them. -/
  requests : List SaveRequest := []
  writes : List DiskWrite := []

/-- What can happen to a flusher in use. -/
inductive SaveEvent where
  | request (image : Bytes) (offset length : Nat)
  /-- Somebody wants the image written now. -/
  | check
  | setPath (path : Option Path)
  | advance (time : Nat)
  /-- The thread looks at the clock, and writes if a write is due. -/
  | act
  /-- A writer takes its snapshot. -/
  | snapshot
  /-- The snapshot reaches the disk, or fails to. -/
  | finish
  | stop
  /-- Somebody else changes the disk. -/
  | disk (files : FileTree)

namespace SaveSession

def start (path : Option Path) (debounce : Nat) (files : FileTree) : SaveSession :=
  { flusher := { store := .empty path, debounce }, files }

def store (s : SaveSession) : SaveStore := s.flusher.store

/-- Go on with the store and the disk that an attempt to write has left. -/
def settle (s : SaveSession) (r : SaveStore.Flush) : SaveSession :=
  { s with
    flusher := { s.flusher with store := r.store }
    files := r.files
    writes := s.writes ++ (r.written.map (DiskWrite.mk s.now)).toList }

def finish (s : SaveSession) : SaveSession :=
  match s.underway with
  | none => s
  | some w => { s.settle (s.store.attempt w s.files) with underway := none }

/-- Write what is pending; two writes never overlap. -/
def flush (s : SaveSession) : Bool × SaveSession :=
  let r := s.finish.store.checkFlush s.finish.files
  (r.done, s.finish.settle r)

def act (s : SaveSession) : SaveSession :=
  let s := s.finish
  if s.flusher.alive && s.store.isDue s.now s.flusher.debounce then s.flush.2 else s

/-- Stop the thread. An image that never made it to disk is written once more. -/
def stop (s : SaveSession) : SaveSession :=
  let s := s.finish
  let last := if s.flusher.alive && s.store.isStale then s.flush.2 else s
  { last with flusher := { last.flusher with alive := false } }

def step (s : SaveSession) : SaveEvent → SaveSession
  | .request image offset length =>
    { s with
      flusher := { s.flusher with store := s.store.request s.now image offset length }
      requests := s.requests ++ [⟨s.now, image⟩] }
  | .check => s.flush.2
  | .setPath path => { s with flusher := { s.flusher with store := s.store.setPath path } }
  | .advance time => { s with now := s.now + time }
  | .act => s.act
  | .snapshot => if s.underway.isSome then s else { s with underway := s.store.nextWrite }
  | .finish => s.finish
  | .stop => s.stop
  | .disk files => { s with files }

def run (s : SaveSession) (events : List SaveEvent) : SaveSession := events.foldl step s

theorem settle_unwritten (s : SaveSession) (files : FileTree) (done : Bool) :
    s.settle ⟨s.store, files, done, none⟩ = { s with files } := by
  simp [settle, store]

theorem underway_finish (s : SaveSession) : s.finish.underway = none := by
  unfold finish
  split
  · next h => exact h
  · rfl

theorem finish_of_underway_none {s : SaveSession} (h : s.underway = none) : s.finish = s := by
  simp [finish, h]

theorem finish_finish (s : SaveSession) : s.finish.finish = s.finish :=
  finish_of_underway_none s.underway_finish

theorem flush_finish (s : SaveSession) : s.finish.flush = s.flush := by
  simp only [flush, finish_finish]

theorem now_finish (s : SaveSession) : s.finish.now = s.now := by
  unfold finish
  split <;> rfl

/-- The steps of the thread, and its end, are those of the flusher. -/
theorem act_eq (s : SaveSession) :
    (s.act.flusher, s.act.files) = s.finish.flusher.act s.now s.finish.files := by
  simp only [act, Flusher.act, now_finish, flush_finish, store]
  split <;> rfl

theorem stop_eq (s : SaveSession) :
    (s.stop.flusher, s.stop.files) = s.finish.flusher.stop s.finish.files := by
  simp only [stop, Flusher.stop, flush_finish, store]
  split <;> rfl

end SaveSession

end Handheld
