import Handheld.Proofs.Save.Session

/-!
# Versions account for writes

Whatever is done with a store, in any order and on any disk, the two versions say exactly what is on
disk (`versions_account_for_writes`). The proof is one invariant, `Coherent`, that every event keeps;
the snapshot that is under way enters it with a version that is not committed yet, so that a request
during a write is not lost.
-/

namespace Handheld

namespace SaveSession

/-- Version `n` is the `n`th request, and this is its image. -/
def Given (requests : List SaveRequest) (version : Nat) (image : Bytes) : Prop :=
  ∃ i r, requests[i]? = some r ∧ r.image = image ∧ version = i + 1

/-- A write of the image that was given with its version, still to be committed. -/
def Uncommitted (s : SaveSession) (w : SaveWrite) : Prop :=
  s.store.flushed < w.version ∧ w.version ≤ s.store.version ∧ Given s.requests w.version w.image

/-- The versions, the flag and the history agree. -/
structure Coherent (s : SaveSession) : Prop where
  version : s.store.version = s.requests.length
  pending : s.store.pending = true ↔ s.store.flushed < s.store.version
  flushed : s.store.flushed ≤ s.store.version
  count : s.store.flushCount = s.writes.length
  count_le : s.store.flushCount ≤ s.store.flushed
  image : 0 < s.store.version → Given s.requests s.store.version s.store.image
  underway : ∀ w, s.underway = some w → s.Uncommitted w
  writes : ∀ x ∈ s.writes,
    x.write.version ≤ s.store.flushed ∧ Given s.requests x.write.version x.write.image
  increasing : s.writes.Pairwise fun a b => a.write.version < b.write.version

theorem Given.append {requests : List SaveRequest} {version : Nat} {image : Bytes}
    (h : Given requests version image) (more : List SaveRequest) :
    Given (requests ++ more) version image := by
  obtain ⟨i, r, hr, himage, hv⟩ := h
  have hi : i < requests.length := (List.getElem?_eq_some_iff.mp hr).1
  exact ⟨i, r, by rw [List.getElem?_append_left hi, hr], himage, hv⟩

theorem coherent_start (path : Option Path) (debounce : Nat) (files : FileTree) :
    Coherent (start path debounce files) where
  version := rfl
  pending := by simp [start, store, SaveStore.empty]
  flushed := Nat.le_refl 0
  count := rfl
  count_le := Nat.le_refl 0
  image := fun h => absurd h (Nat.lt_irrefl 0)
  underway := by simp [start]
  writes := by simp [start]
  increasing := List.Pairwise.nil

theorem Coherent.uncommitted_nextWrite {s : SaveSession} (h : Coherent s) {w : SaveWrite}
    (hw : s.store.nextWrite = some w) : s.Uncommitted w := by
  obtain ⟨hp, -, himage, hv⟩ := SaveStore.nextWrite_eq_some hw
  have hlt := h.pending.mp hp
  refine ⟨hv ▸ hlt, Nat.le_of_eq hv, ?_⟩
  rw [himage, hv]
  exact h.image (by omega)

/-! ## What each step keeps -/

theorem Coherent.settle_commit {s : SaveSession} (h : Coherent s) (hu : s.underway = none)
    {w : SaveWrite} (hw : s.Uncommitted w) (files : FileTree) :
    Coherent (s.settle ⟨s.store.commit w, files, true, some w⟩) := by
  obtain ⟨hlt, hle, hgiven⟩ := hw
  -- the version is not committed yet, so that the commit moves on to it
  have hflushed : max s.store.flushed w.version = w.version := Nat.max_eq_right (Nat.le_of_lt hlt)
  have hcount := h.count_le
  exact
    { version := h.version
      pending := by
        show decide (s.store.version ≠ w.version) = true ↔
          max s.store.flushed w.version < s.store.version
        rw [hflushed, decide_eq_true_eq]
        omega
      flushed := by
        show max s.store.flushed w.version ≤ s.store.version
        rwa [hflushed]
      count := by
        show s.store.flushCount + 1 = (s.writes ++ [_]).length
        simp [h.count]
      count_le := by
        show s.store.flushCount + 1 ≤ max s.store.flushed w.version
        omega
      image := h.image
      underway := fun v hv => by
        have : s.underway = some v := hv
        rw [hu] at this
        cases this
      writes := fun x hx => by
        show x.write.version ≤ max s.store.flushed w.version ∧ _
        rcases List.mem_append.mp hx with hx | hx
        · exact ⟨Nat.le_trans (h.writes x hx).1 (Nat.le_max_left _ _), (h.writes x hx).2⟩
        · obtain rfl := List.mem_singleton.mp hx
          exact ⟨Nat.le_max_right _ _, hgiven⟩
      increasing := by
        refine List.pairwise_append.mpr ⟨h.increasing, List.pairwise_singleton _ _, ?_⟩
        intro x hx y hy
        obtain rfl := List.mem_singleton.mp hy
        exact Nat.lt_of_le_of_lt (h.writes x hx).1 hlt }

theorem Coherent.settle_unchanged {s : SaveSession} (h : Coherent s) (files : FileTree) (done : Bool) :
    Coherent (s.settle ⟨s.store, files, done, none⟩) := by
  rw [settle_unwritten]
  exact { h with }

theorem Coherent.settle_attempt {s : SaveSession} (h : Coherent s) (hu : s.underway = none)
    {w : SaveWrite} (hw : s.Uncommitted w) : Coherent (s.settle (s.store.attempt w s.files)) := by
  rcases hr : s.files.replaceFile w.path w.image with ⟨t, e | _⟩
  · rw [SaveStore.attempt_error hr]
    exact h.settle_unchanged t false
  · rw [SaveStore.attempt_ok hr]
    exact h.settle_commit hu hw t

theorem Coherent.finish {s : SaveSession} (h : Coherent s) : Coherent s.finish := by
  unfold SaveSession.finish
  split
  · exact h
  · next w hw =>
    -- what `Coherent` knew of the snapshot is all that its end needs
    have idle : Coherent { s with underway := none } := { h with underway := by simp }
    exact idle.settle_attempt rfl (h.underway w hw)

theorem Coherent.flush {s : SaveSession} (h : Coherent s) : Coherent s.flush.2 := by
  unfold SaveSession.flush
  rcases SaveStore.checkFlush_cases s.finish.store s.finish.files with ⟨-, hr⟩ | ⟨w, hw, hr⟩
  · rw [hr]
    exact h.finish.settle_unchanged _ _
  · rw [hr]
    exact h.finish.settle_attempt s.underway_finish (h.finish.uncommitted_nextWrite hw)

theorem Coherent.request {s : SaveSession} (h : Coherent s) (image : Bytes) (offset length : Nat) :
    Coherent (s.step (.request image offset length)) := by
  have hflushed := h.flushed
  exact
    { version := by
        show s.store.version + 1 = (s.requests ++ [_]).length
        simp [h.version]
      pending := by
        show true = true ↔ s.store.flushed < s.store.version + 1
        simp only [true_iff]
        omega
      flushed := Nat.le_succ_of_le hflushed
      count := h.count
      count_le := h.count_le
      image := fun _ => by
        refine ⟨s.requests.length, ⟨s.now, image⟩, ?_, ?_, ?_⟩
        · simp [step]
        · exact (SaveStore.image_request s.store s.now image offset length).symm
        · show s.store.version + 1 = s.requests.length + 1
          rw [h.version]
      underway := fun w hw => by
        obtain ⟨hlt, hle, hgiven⟩ := h.underway w hw
        exact ⟨hlt, Nat.le_succ_of_le hle, hgiven.append _⟩
      writes := fun x hx => ⟨(h.writes x hx).1, (h.writes x hx).2.append _⟩
      increasing := h.increasing }

theorem Coherent.step {s : SaveSession} (h : Coherent s) (e : SaveEvent) : Coherent (s.step e) := by
  cases e with
  | request image offset length => exact h.request image offset length
  | check => exact h.flush
  | setPath path => exact { h with }
  | advance time => exact { h with }
  | act =>
    show Coherent s.act
    unfold act
    dsimp only
    split
    · rw [flush_finish]; exact h.flush
    · exact h.finish
  | snapshot =>
    show Coherent (if s.underway.isSome then s else { s with underway := s.store.nextWrite })
    split
    · exact h
    · exact { h with underway := fun w hw => h.uncommitted_nextWrite hw }
  | finish => exact h.finish
  | stop =>
    show Coherent s.stop
    unfold stop
    dsimp only
    split
    · rw [flush_finish]; exact { h.flush with }
    · exact { h.finish with }
  | disk files => exact { h with }

theorem Coherent.run {s : SaveSession} (h : Coherent s) (events : List SaveEvent) :
    Coherent (s.run events) := by
  induction events generalizing s with
  | nil => exact h
  | cons e events ih => exact ih (h.step e)

/-- A check that others overlap answers for the snapshot it has taken, whatever came since: either that is
on disk now, and something is pending exactly if a request came after it, or nothing was written, and
something still is. -/
theorem overlapped_check_answers (path : Option Path) (debounce : Nat) (files : FileTree)
    (events : List SaveEvent) (w : SaveWrite) :
    let s := (start path debounce files).run events
    s.underway = some w →
    (s.store.attempt w s.files).done = true ∧ s.finish.writes = s.writes ++ [⟨s.now, w⟩] ∧
        (s.finish.store.pending = true ↔ w.version < s.store.version) ∨
      (s.store.attempt w s.files).done = false ∧ s.finish.writes = s.writes ∧
        s.finish.store.pending = true := by
  intro s hunderway
  have h : Coherent s := (coherent_start path debounce files).run events
  obtain ⟨huncommitted, hversion, -⟩ := h.underway w hunderway
  have hfinish : s.finish = { s.settle (s.store.attempt w s.files) with underway := none } := by
    rw [finish, hunderway]
  rw [hfinish]
  rcases SaveStore.attempt_cases s.store w s.files with ⟨hstore, hdone, hwritten⟩ | ⟨hstore, hdone, hwritten⟩
  · refine .inl ⟨hdone, by rw [settle, hwritten]; rfl, ?_⟩
    show (s.store.attempt w s.files).store.pending = true ↔ _
    rw [hstore]
    show decide (s.store.version ≠ w.version) = true ↔ _
    rw [decide_eq_true_eq]
    omega
  · refine .inr ⟨hdone, by rw [settle, hwritten]; exact List.append_nil _, ?_⟩
    show (s.store.attempt w s.files).store.pending = true
    rw [hstore]
    exact h.pending.mpr (Nat.lt_of_lt_of_le huncommitted hversion)

/-- **The versions say what is on disk.** After any events, something is pending exactly when the
latest version is not the committed one; the count is that of the writes, at most the committed
version, which is at most the latest; every write holds exactly the image of the request whose
version it commits; each commits a later version than the one before; and writing what is pending
says truly whether anything still is. -/
theorem versions_account_for_writes (path : Option Path) (debounce : Nat) (files : FileTree)
    (events : List SaveEvent) :
    let s := (start path debounce files).run events
    (s.store.pending = true ↔ s.store.version ≠ s.store.flushed) ∧
    (s.store.flushCount = s.writes.length ∧ s.store.flushCount ≤ s.store.flushed ∧
      s.store.flushed ≤ s.store.version) ∧
    (∀ x ∈ s.writes, Given s.requests x.write.version x.write.image) ∧
    (s.writes.Pairwise fun a b => a.write.version < b.write.version) ∧
    (s.flush.1 = true ↔ s.flush.2.store.pending = false) := by
  intro s
  have h : Coherent s := (coherent_start path debounce files).run events
  have hflushed := h.flushed
  refine ⟨?_, ⟨h.count, h.count_le, hflushed⟩, fun x hx => (h.writes x hx).2, h.increasing, ?_⟩
  · rw [h.pending]
    omega
  · exact SaveStore.done_checkFlush s.finish.store s.finish.files

/-- A shorter image follows a longer one, and a request comes while it is written. -/
theorem versions_account_for_shorter_image :
    let s := (start (some ⟨['a']⟩) 0 (.empty [])).run
      [.request #[1, 1, 1] 0 3, .check, .request #[2] 0 1, .snapshot, .request #[3] 0 1, .finish]
    (DiskWrite.mk 0 ⟨⟨['a']⟩, #[2], 2⟩ ∈ s.writes ∧ s.store.buffer = #[3, 1, 1]) ∧
      Given s.requests 2 #[2] := by
  intro s
  have hmem : DiskWrite.mk 0 ⟨⟨['a']⟩, #[2], 2⟩ ∈ s.writes := by decide
  obtain ⟨-, -, hgiven, -, -⟩ := versions_account_for_writes (some ⟨['a']⟩) 0 (.empty [])
    [.request #[1, 1, 1] 0 3, .check, .request #[2] 0 1, .snapshot, .request #[3] 0 1, .finish]
  exact ⟨⟨hmem, by decide⟩, hgiven _ hmem⟩

end SaveSession

end Handheld
