import Handheld.Proofs.Files.Places
import Handheld.Proofs.Instance.Courses
import Handheld.Proofs.Save.Session

/-!
# The last saves of an instance

When an instance ends, its worker stops first and the threads of its two stores end after it, each with
a last write of what never made it to disk. Each store is followed through this on its own: `Recorded`
says that store and journal agree on the latest image, along any course before; `Ends` says that what was
pending or was requested since is pending or on disk, until the thread of the store ends with nothing
pending (`pending_close`). The other store writes meanwhile; what it does to the disk is `Confined` to
its own file, so that it is told from the two paths whether the image survives (`Apart`).
-/

namespace Handheld

def SaveKind.other : SaveKind → SaveKind
  | .cart => .firmware
  | .firmware => .cart

/-- The image that an event requests for a store, if it does. -/
def Event.image? (k : SaveKind) : Event → Option Bytes
  | .requested _ (.saveCart image _ _) => if k = .cart then some image else none
  | .requested _ (.saveFirmware image _ _) => if k = .firmware then some image else none
  | _ => none

theorem Event.Plain.image? {k : SaveKind} {e : Event} (h : e.Plain) : e.image? k = none := by
  cases e with
  | requested boot q => cases h
  | _ => rfl

/-! ## Stores -/

namespace SaveStore

variable {s : SaveStore} {images : List Bytes} {t : FileTree} {p : Path}

/-- A store agrees with the images that were requested, newest first. -/
structure Recorded (s : SaveStore) (images : List Bytes) : Prop where
  flushed : s.flushed ≤ s.version
  pending : s.pending = true → s.flushed < s.version ∧ images ≠ []
  image : ∀ image ∈ images.head?, s.image = image

theorem Recorded.request (h : s.Recorded images) (now : Nat) (image : Bytes) (offset length : Nat) :
    (s.request now image offset length).Recorded (image :: images) where
  flushed := Nat.le_succ_of_le h.flushed
  pending := fun _ => ⟨Nat.lt_succ_of_le h.flushed, List.cons_ne_nil _ _⟩
  image := by
    rintro _ ⟨⟩
    exact s.image_request now image offset length

theorem Recorded.checkFlush (h : s.Recorded images) (t : FileTree) :
    (s.checkFlush t).store.Recorded images := by
  rcases s.checkFlush_cases t with ⟨-, hr⟩ | ⟨w, hw, hr⟩
  · rwa [hr]
  · obtain ⟨-, -, -, hversion⟩ := nextWrite_eq_some hw
    rw [hr]
    rcases s.attempt_cases w t with ⟨hs, -⟩ | ⟨hs, -⟩
    · rw [hs]
      exact
        { flushed := by
            have hflushed := h.flushed
            show max s.flushed w.version ≤ s.version
            omega
          pending := fun hpending => by
            have hne : s.version ≠ w.version := of_decide_eq_true hpending
            exact absurd hversion.symm hne
          image := h.image }
    · rwa [hs]

theorem Recorded.isStale_iff (h : s.Recorded images) : s.isStale = true ↔ s.pending = true := by
  unfold isStale
  cases hpending : s.pending with
  | false => simp
  | true =>
    have hlt := (h.pending hpending).1
    simp only [Bool.true_and, decide_eq_true_eq, iff_true]
    omega

theorem path_checkFlush (s : SaveStore) (t : FileTree) : (s.checkFlush t).store.path = s.path := by
  rcases s.checkFlush_cases t with ⟨-, hr⟩ | ⟨w, -, hr⟩
  · rw [hr]
  · rw [hr]
    rcases s.attempt_cases w t with ⟨hs, -⟩ | ⟨hs, -⟩
    · rw [hs, commit]
    · rw [hs]

theorem confined_checkFlush (s : SaveStore) (t : FileTree) :
    t.Confined (s.path.elim [] (·.places t.home)) (s.checkFlush t).files := by
  rcases s.checkFlush_cases t with ⟨-, hr⟩ | ⟨w, hw, hr⟩
  · rw [hr]
    exact .refl _ t
  · obtain ⟨-, hpath, -, -⟩ := nextWrite_eq_some hw
    rw [hr, hpath]
    rcases hreplace : t.replaceFile w.path w.image with ⟨t', e | _⟩
    · rw [attempt_error hreplace]
      exact FileTree.confined_replaceFile hreplace
    · rw [attempt_ok hreplace]
      exact FileTree.confined_replaceFile hreplace

theorem checkFlush_of_pending (hpath : s.path = some p) (hpending : s.pending = true) (t : FileTree) :
    ∃ w : SaveWrite, w.path = p ∧ w.image = s.image ∧ w.version = s.version ∧
      s.checkFlush t = s.attempt w t :=
  ⟨⟨p, s.image, s.version⟩, rfl, rfl, rfl, by rw [checkFlush, nextWrite_of_pending hpending hpath]⟩

theorem checkFlush_of_idle (hpending : s.pending = false) : s.checkFlush t = ⟨s, t, true, none⟩ := by
  simp [checkFlush, nextWrite, hpending]

/-- What is pending stays so, or its image is on disk. -/
theorem pending_or_read_checkFlush (hpath : s.path = some p) (hpending : s.pending = true) :
    (s.checkFlush t).store.pending = true ∨ (s.checkFlush t).files.read p = .ok s.image := by
  obtain ⟨w, rfl, himage, -, hcheck⟩ := checkFlush_of_pending hpath hpending t
  rw [hcheck]
  rcases hreplace : t.replaceFile w.path w.image with ⟨t', e | _⟩
  · rw [attempt_error hreplace]
    exact .inl hpending
  · rw [attempt_ok hreplace, ← himage]
    exact .inr (FileTree.read_replaceFile hreplace)

theorem pending_checkFlush (hpath : s.path = some p)
    (hdisk : s.pending = true → (t.replaceFile p s.image).2 = .ok ()) :
    (s.checkFlush t).store.pending = false := by
  cases hpending : s.pending with
  | false => rw [checkFlush_of_idle hpending, hpending]
  | true =>
    obtain ⟨w, rfl, himage, hversion, hcheck⟩ := checkFlush_of_pending hpath hpending t
    have hok := hdisk hpending
    rw [← himage] at hok
    rcases hreplace : t.replaceFile w.path w.image with ⟨t', e | _⟩
    · rw [hreplace] at hok
      cases hok
    · rw [hcheck, attempt_ok hreplace]
      show decide (s.version ≠ w.version) = false
      simp [hversion]

end SaveStore

namespace Worker

variable {F M : Type} {k : SaveKind} {p : Path} {u v w : Worker F M}

def store (w : Worker F M) : SaveKind → SaveStore
  | .cart => w.cart
  | .firmware => w.firmware

/-- The images that were requested for a store, newest first. -/
def images (w : Worker F M) (k : SaveKind) : List Bytes := w.journal.filterMap (Event.image? k)

/-- The thread of a store ends: whatever never made it to disk is written. -/
def close (w : Worker F M) (k : SaveKind) : Worker F M :=
  if (w.store k).isStale then w.outside (.flush k) else w

/-- The last image that was requested is in the file at a path. -/
def Saved (w : Worker F M) (k : SaveKind) (p : Path) : Prop :=
  ∃ image, (w.images k).head? = some image ∧ w.world.files.read p = .ok image

/-- The other store does not write to where a path leads. -/
def Apart (w : Worker F M) (k : SaveKind) (p : Path) : Prop :=
  ∀ q, (w.store k.other).path = some q → p.place w.world.files.home ∉ q.places w.world.files.home

/-! ## Writes -/

theorem images_note (w : Worker F M) {e : Event} (h : e.image? k = none) :
    (w.note e).images k = w.images k := by
  simp [images, note, h]

theorem images_flush (w : Worker F M) (k j : SaveKind) :
    (w.outside (.flush j)).images k = w.images k := by
  have hwrites : ∀ writes : List SaveWrite,
      (writes.map (Event.wrote j)).filterMap (Event.image? k) = [] := by
    simp [Event.image?]
  unfold images
  rw [journal_flush, List.filterMap_append]
  cases j with
  | cart => rw [writes, hwrites, List.nil_append]
  | firmware => rw [writes, hwrites, List.nil_append]

theorem store_flush (w : Worker F M) (k : SaveKind) :
    (w.outside (.flush k)).store k = ((w.store k).checkFlush w.world.files).store := by
  cases k <;> rfl

theorem files_flush (w : Worker F M) (k : SaveKind) :
    (w.outside (.flush k)).world.files = ((w.store k).checkFlush w.world.files).files := by
  cases k <;> rfl

theorem store_flush_other (w : Worker F M) {k j : SaveKind} (h : j ≠ k) :
    (w.outside (.flush j)).store k = w.store k := by
  have hnote : ∀ write : Option SaveWrite, (w.noteWrite j write).store k = w.store k := by
    intro write
    cases write <;> cases k <;> rfl
  cases k <;> cases j
  · exact absurd rfl h
  · exact hnote _
  · exact hnote _
  · exact absurd rfl h

/-! ## Agreement of store and journal -/

def Recorded (k : SaveKind) (w : Worker F M) : Prop := (w.store k).Recorded (w.images k)

theorem Recorded.congr (h : Recorded k w) (hstore : v.store k = w.store k)
    (himages : v.images k = w.images k) : Recorded k v := by
  rw [Recorded, hstore, himages]
  exact h

theorem Recorded.note (h : Recorded k w) {e : Event} (he : e.image? k = none) : Recorded k (w.note e) :=
  h.congr (by cases k <;> rfl) (w.images_note he)

theorem stable_recorded (k : SaveKind) : Stable.Aiming (Recorded (F := F) (M := M) k) where
  free := fun h hu =>
    h.congr (by cases k <;> simp [store, hu.cart, hu.firmware]) (by simp [images, hu.journal])
  note := fun h he => h.note he.image?
  receive := by
    intro w h boot q
    cases k <;> cases q <;> first | exact h | exact SaveStore.Recorded.request h _ _ _ _
  flush := by
    intro w h j
    unfold Recorded
    rw [images_flush]
    by_cases hj : j = k
    · subst hj
      rw [store_flush]
      exact h.checkFlush _
    · rw [store_flush_other w hj]
      exact h
  point := by
    intro w h path
    cases k with
    | cart => exact { h.note (e := .pointed path) rfl with }
    | firmware => exact h.note (e := .pointed path) rfl
  disk := fun h files => h.congr (by cases k <;> rfl) rfl

/-! ## While an instance ends -/

/-- What is known of a store while its instance ends: it keeps its file, and so does the other one; and
what was pending at the start, or on disk already, or was requested since is pending or on disk. -/
structure Ends (k : SaveKind) (p : Path) (start w : Worker F M) : Prop where
  recorded : Recorded k w
  path : (w.store k).path = some p
  other : (w.store k.other).path = (start.store k.other).path
  home : w.world.files.home = start.world.files.home
  kept : start.Apart k p →
    (start.store k).pending = true ∨ start.Saved k p ∨ (start.images k).length < (w.images k).length →
    (w.store k).pending = true ∨ w.Saved k p

theorem Ends.start (h : Recorded k w) (hpath : (w.store k).path = some p) : Ends k p w w where
  recorded := h
  path := hpath
  other := rfl
  home := rfl
  kept := by
    rintro - (hpending | hsaved | hlt)
    · exact .inl hpending
    · exact .inr hsaved
    · exact absurd hlt (Nat.lt_irrefl _)

theorem Ends.congr (h : Ends k p u w) (hstore : ∀ j, v.store j = w.store j)
    (himages : v.images k = w.images k) (hfiles : v.world.files = w.world.files) : Ends k p u v where
  recorded := h.recorded.congr (hstore k) himages
  path := by rw [hstore, h.path]
  other := by rw [hstore, h.other]
  home := by rw [hfiles, h.home]
  kept := by
    unfold Saved
    rw [hstore, himages, hfiles]
    exact h.kept

theorem Ends.note (h : Ends k p u w) {e : Event} (he : e.image? k = none) : Ends k p u (w.note e) :=
  h.congr (fun j => by cases j <;> rfl) (w.images_note he) rfl

theorem Ends.receive (h : Ends k p u w) (boot : Nat) (q : Request) :
    Ends k p u (Worker.receive boot w q) := by
  have hrecorded := (stable_recorded k).receive h.recorded boot q
  cases q with
  | stop => exact (h.note (e := .requested boot .stop) rfl).congr (fun j => by cases j <;> rfl) rfl rfl
  | saveCart image offset length =>
    cases k with
    | cart => exact ⟨hrecorded, h.path, h.other, h.home, fun _ _ => .inl rfl⟩
    | firmware => exact { h.note (e := .requested boot (.saveCart image offset length)) rfl with }
  | saveFirmware image offset length =>
    cases k with
    | cart => exact { h.note (e := .requested boot (.saveFirmware image offset length)) rfl with }
    | firmware => exact ⟨hrecorded, h.path, h.other, h.home, fun _ _ => .inl rfl⟩

theorem Ends.flush_self (h : Ends k p u w) : Ends k p u (w.outside (.flush k)) where
  recorded := (stable_recorded k).flush h.recorded k
  path := by rw [store_flush, SaveStore.path_checkFlush, h.path]
  other := by rw [store_flush_other w (by cases k <;> decide), h.other]
  home := by rw [files_flush, (SaveStore.confined_checkFlush _ _).home, h.home]
  kept := by
    intro hapart hdue
    rw [images_flush] at hdue
    cases hpending : (w.store k).pending with
    | true =>
      obtain ⟨-, hsome⟩ := h.recorded.pending hpending
      rw [store_flush]
      refine (SaveStore.pending_or_read_checkFlush h.path hpending).imp_right fun hread => ?_
      refine ⟨(w.images k).head hsome, ?_, ?_⟩
      · rw [images_flush, List.head?_eq_some_head hsome]
      · rw [files_flush, hread, h.recorded.image _ (List.head?_eq_some_head hsome)]
    | false =>
      obtain ⟨image, hhead, hread⟩ := (h.kept hapart hdue).resolve_left (by simp [hpending])
      right
      refine ⟨image, ?_, ?_⟩
      · rw [images_flush, hhead]
      · rw [files_flush, SaveStore.checkFlush_of_idle hpending, hread]

/-- A write of the other store is confined to places that are not the file's. -/
theorem Ends.flush_other (h : Ends k p u w) : Ends k p u (w.outside (.flush k.other)) := by
  have hne : k.other ≠ k := by cases k <;> decide
  have hconfined := SaveStore.confined_checkFlush (w.store k.other) w.world.files
  exact
    { recorded := (stable_recorded k).flush h.recorded k.other
      path := by rw [store_flush_other w hne, h.path]
      other := by rw [store_flush, SaveStore.path_checkFlush, h.other]
      home := by rw [files_flush, hconfined.home, h.home]
      kept := by
        intro hapart hdue
        rw [images_flush] at hdue
        rw [store_flush_other w hne]
        refine (h.kept hapart hdue).imp_right fun ⟨image, hhead, hread⟩ => ⟨image, ?_, ?_⟩
        · rw [images_flush, hhead]
        · rw [files_flush]
          refine hconfined.read ?_ hread
          rw [h.other, h.home]
          cases hother : (u.store k.other).path with
          | none => exact List.not_mem_nil
          | some q => exact hapart q hother }

theorem Ends.flush (h : Ends k p u w) (j : SaveKind) : Ends k p u (w.outside (.flush j)) := by
  by_cases hj : j = k
  · rw [hj]
    exact h.flush_self
  · have hother : j = k.other := by cases j <;> cases k <;> first | rfl | exact absurd rfl hj
    rw [hother]
    exact h.flush_other

theorem stable_ends (k : SaveKind) (p : Path) (u : Worker F M) : Stable (Ends k p u) where
  free := fun h hu =>
    h.congr (fun j => by cases j <;> simp [store, hu.cart, hu.firmware])
      (by simp [images, hu.journal]) hu.files
  note := fun h he => h.note he.image?
  receive := Ends.receive
  flush := Ends.flush

theorem framing_ends (k : SaveKind) (p : Path) (u : Worker F M) : Stable.Framing (Ends k p u) where
  toStable := stable_ends k p u
  call := fun h _ _ => h.note rfl

theorem replying_ends (k : SaveKind) (p : Path) (u : Worker F M) : Stable.Replying (Ends k p u) where
  toStable := stable_ends k p u
  answer := fun h _ _ => h.note rfl
  taken := fun h _ => h.note rfl

theorem framing_recorded (k : SaveKind) : Stable.Framing (Recorded (F := F) (M := M) k) where
  toStable := (stable_recorded k).toStable
  call := fun h _ _ => h.note rfl

theorem replying_recorded (k : SaveKind) : Stable.Replying (Recorded (F := F) (M := M) k) where
  toStable := (stable_recorded k).toStable
  answer := fun h _ _ => h.note rfl
  taken := fun h _ => h.note rfl

/-! ## The last write -/

theorem Ends.outside (h : Ends k p u w) {o : Outside F} (ho : ∀ files, o ≠ .disk files) :
    Ends k p u (w.outside o) := (InStep.outside (stable_ends k p u).inStep (.of_self h) ho).1

theorem Ends.outsideAll (h : Ends k p u w) {meanwhile : List (Outside F)}
    (hdisk : ∀ files, .disk files ∉ meanwhile) : Ends k p u (w.outsideAll meanwhile) := by
  induction meanwhile generalizing w with
  | nil => exact h
  | cons o meanwhile ih =>
    refine ih (h.outside fun files ho => hdisk files (ho ▸ List.mem_cons_self)) fun files hmem => ?_
    exact hdisk files (List.mem_cons_of_mem o hmem)

theorem Ends.close (h : Ends k p u w) (j : SaveKind) : Ends k p u (w.close j) := by
  unfold Worker.close
  split
  · exact h.flush j
  · exact h

/-- **Nothing is pending** when the thread of a store has ended, unless its last write was refused. -/
theorem Ends.pending_close (h : Ends k p u w)
    (hdisk : (w.store k).isStale = true → (w.world.files.replaceFile p (w.store k).image).2 = .ok ()) :
    ((w.close k).store k).pending = false := by
  have hstale := h.recorded.isStale_iff
  unfold Worker.close
  split
  · rw [store_flush]
    exact SaveStore.pending_checkFlush h.path fun hpending => hdisk (hstale.mpr hpending)
  · next hfresh =>
    rw [hstale] at hfresh
    exact Bool.not_eq_true _ ▸ hfresh

theorem pending_outside (h : (w.store k).pending = false) (o : Outside F) :
    ((w.outside o).store k).pending = false := by
  cases o with
  | flush j =>
    by_cases hj : j = k
    · rw [hj, store_flush, SaveStore.checkFlush_of_idle h, h]
    · rw [store_flush_other w hj, h]
  | _ => cases k <;> exact h

theorem pending_outsideAll (h : (w.store k).pending = false) (meanwhile : List (Outside F)) :
    ((w.outsideAll meanwhile).store k).pending = false := by
  induction meanwhile generalizing w with
  | nil => exact h
  | cons o meanwhile ih => exact ih (pending_outside h o)

end Worker

namespace Instance

open Worker

variable {F M : Type} [Machine M] [Factory F M]

/-- What happens while an instance ends. -/
structure Ending (F : Type) where
  /-- Before the worker thread is asked to end. -/
  late : List (Happening F) := []
  /-- Before the thread of the cartridge store ends. -/
  between : List (Outside F) := []
  /-- Before the thread of the firmware store ends. -/
  after : List (Outside F) := []

/-- No command comes, and nobody else changes the disk. -/
structure Ending.Quiet (m : Ending F) : Prop where
  send : ∀ e, .send e ∉ m.late
  late : ∀ files, .outside (.disk files) ∉ m.late
  between : ∀ files, .disk files ∉ m.between
  after : ∀ files, .disk files ∉ m.after

def stopped (i : Instance F M) (m : Ending F) : Instance F M :=
  { i with thread := (i.thread.undergo m.late).stop }.closeDevices

/-- The worker when the thread of a store is about to end. -/
def closing (i : Instance F M) (m : Ending F) : SaveKind → Worker F M
  | .cart => (i.stopped m).thread.worker.outsideAll m.between
  | .firmware => (((i.stopped m).thread.worker.outsideAll m.between).close .cart).outsideAll m.after

def destroyAmid (i : Instance F M) (m : Ending F) : Instance F M :=
  (i.stopped m).mapWorker fun _ => (i.closing m .firmware).close .firmware

theorem destroyAmid_nothing (i : Instance F M) : i.destroyAmid {} = i.destroy := rfl

omit [Machine M] [Factory F M] in
theorem place_closeDevices (i : Instance F M) : i.closeDevices.thread.place = i.thread.place := by
  unfold closeDevices
  split <;> rfl

omit [Machine M] [Factory F M] in
theorem unsaved_closeDevices (i : Instance F M) :
    Unsaved i.thread.worker i.closeDevices.thread.worker := by
  unfold closeDevices
  split <;> exact ⟨rfl, rfl, rfl, rfl⟩

theorem recorded_of_leads {k : SaveKind} {i j : Instance F M} (h : i.Leads j)
    (hi : Recorded k i.thread.worker) : Recorded k j.thread.worker := by
  have hstable := stable_recorded (F := F) (M := M) k
  obtain ⟨course, hcourse⟩ := h
  rw [hcourse]
  refine Stable.undergo (framing_recorded k) (replying_recorded k) (fun e _ w hw => ?_)
    (fun o _ w hw => ?_) hi
  · exact (InStep.handle hstable.inStep (replying_recorded k).inStep (.of_self hw) rfl).1
  · exact (InStep.outside_of_disk hstable.toStable.inStep hstable.inStep.disk (.of_self hw) o).1

omit [Machine M] [Factory F M] in
theorem recorded_new (id : Nat) (config : Config) (factory : F) (world : World)
    (firmwareSave : Option Path) (k : SaveKind) :
    Recorded k (new id config factory world firmwareSave : Instance F M).thread.worker := by
  cases k <;> exact ⟨Nat.le_refl 0, nofun, nofun⟩

theorem ends_closing {i : Instance F M} {k : SaveKind} {p : Path}
    (hrecorded : Recorded k i.thread.worker) (hpath : (i.thread.worker.store k).path = some p)
    (hmailbox : i.thread.mailbox = []) {m : Ending F} (hquiet : m.Quiet) (j : SaveKind) :
    Ends k p i.thread.worker (i.closing m j) := by
  have hunsent : ∀ e, ¬(e ∈ i.thread.mailbox ∨ .send e ∈ m.late) := by
    rintro e (he | he)
    · simp [hmailbox] at he
    · exact hquiet.send e he
  have hlate : Ends k p i.thread.worker (i.thread.undergo m.late).worker := by
    refine Stable.undergo (framing_ends k p _) (replying_ends k p _) (fun e he => absurd he (hunsent e))
      (fun o ho w hw => hw.outside ?_) (.start hrecorded hpath)
    rintro files rfl
    exact hquiet.late files ho
  have hstopped : Ends k p i.thread.worker (i.thread.undergo m.late).stop.worker :=
    Stable.stop (framing_ends k p _) (replying_ends k p _)
      (fun e he => absurd (WorkerThread.mem_mailbox_undergo he) (hunsent e)) hlate
  have hclosed : Ends k p i.thread.worker (i.stopped m).thread.worker :=
    (stable_ends k p _).free hstopped
      (unsaved_closeDevices { i with thread := (i.thread.undergo m.late).stop })
  have hcart := hclosed.outsideAll hquiet.between
  cases j with
  | cart => exact hcart
  | firmware => exact (hcart.close .cart).outsideAll hquiet.after

/-- **The last image is saved.** Destroy an instance with an empty mailbox at any point of any run, and
let things happen meanwhile, but no command and no change of the disk by others. If the last write of a
store that has a path succeeds, then nothing is pending; and if besides the other store does not write to
the same place, then what was pending at the start, or on disk already, or was requested since is in the
file: it holds the last image that the machine requested. -/
theorem last_image_saved (id : Nat) (config : Config) (factory : F) (world : World)
    (firmwareSave : Option Path) (i : Instance F M)
    (hrun : (new id config factory world firmwareSave).Leads i) (hmailbox : i.thread.mailbox = [])
    (m : Ending F) (hquiet : m.Quiet) (k : SaveKind) (p : Path)
    (hpath : (i.thread.worker.store k).path = some p)
    (hdisk : ((i.closing m k).store k).isStale = true →
      ((i.closing m k).world.files.replaceFile p ((i.closing m k).store k).image).2 = .ok ()) :
    let start := i.thread.worker
    let ended := (i.destroyAmid m).thread
    ended.place = .gone ∧ (ended.worker.store k).path = some p ∧
    (ended.worker.store k).pending = false ∧
    (start.Apart k p →
      (start.store k).pending = true ∨ start.Saved k p ∨
        (start.images k).length < (ended.worker.images k).length →
      ended.worker.Saved k p) := by
  intro start ended
  have hrecorded : Recorded k start :=
    recorded_of_leads hrun (recorded_new id config factory world firmwareSave k)
  have hclosing := ends_closing hrecorded hpath hmailbox hquiet
  have hended : Ends k p start ended.worker := (hclosing .firmware).close .firmware
  have hpending : (ended.worker.store k).pending = false := by
    have hclosed := (hclosing k).pending_close hdisk
    cases k with
    | firmware => exact hclosed
    | cart =>
      have hafter := pending_outsideAll hclosed m.after
      show ((Worker.close _ .firmware).store .cart).pending = false
      unfold Worker.close
      split
      · exact pending_outside hafter _
      · exact hafter
  have hplace : ended.place = .gone :=
    (place_closeDevices _).trans (i.thread.undergo m.late).place_stop
  refine ⟨hplace, hended.path, hpending, fun hapart hdue => ?_⟩
  exact (hended.kept hapart hdue).resolve_left (by simp [hpending])

/-- The frame that is under way at the end saves. -/
theorem last_image_saved_of_last_frame :
    let files := (FileTree.empty []).plant (.ofString "a.nds") (.file (bytesOf ['1']))
    let first : Instance ScriptFactory ScriptMachine :=
      .new 0 {} ⟨{ saveEvery := 1 }, false⟩ ⟨files, {}, 0⟩ none
    let i := { first with
      thread := first.thread.undergo
        [.send ⟨.bootRom [.ofString "a.nds"], none⟩, .send ⟨.run, none⟩, .goOn, .goOn] }
    let ended := i.destroy.thread.worker
    i.thread.isInFrame = true ∧ i.thread.worker.images .cart = [] ∧ ended.cart.pending = false ∧
      ended.world.files.read (.ofString "a.sav") = .ok (.replicate 16 1) := by
  intro files first i ended
  have hstart : i.thread.isInFrame = true ∧ i.thread.worker.images .cart = [] := by decide +kernel
  have himages : ended.images .cart = [.replicate 16 1] := by decide +kernel
  have hother : i.thread.worker.firmware.path = none := by decide +kernel
  have hdestroyed := last_image_saved 0 {} ⟨{ saveEvery := 1 }, false⟩ ⟨files, {}, 0⟩ none i
    ⟨_, rfl⟩ (by decide +kernel) {} ⟨nofun, nofun, nofun, nofun⟩ .cart (.ofString "a.sav")
    (by decide +kernel) (by decide +kernel)
  dsimp only at hdestroyed
  have hended : i.destroy.thread.worker = ended := rfl
  rw [destroyAmid_nothing, hended] at hdestroyed
  obtain ⟨-, -, hpending, hsaved⟩ := hdestroyed
  have hapart : i.thread.worker.Apart .cart (.ofString "a.sav") := fun q hq =>
    absurd (hother.symm.trans hq) nofun
  obtain ⟨image, hhead, hread⟩ := hsaved hapart (.inr (.inr (by decide +kernel)))
  rw [himages] at hhead
  cases hhead
  exact ⟨hstart.1, hstart.2, hpending, hread⟩

/-- With the firmware saved to the file of the cartridge, the last write of the firmware store replaces
the image that the last write of the cartridge store has put there. -/
theorem last_image_overwritten :
    let files := (FileTree.empty []).plant (.ofString "a.nds") (.file (bytesOf ['1']))
    let first : Instance ScriptFactory ScriptMachine :=
      .new 0 {} ⟨{ saveEvery := 1 }, false⟩ ⟨files, {}, 0⟩ (some (.ofString "a.sav"))
    let i := { first with
      thread := first.thread.undergo
        [.send ⟨.bootRom [.ofString "a.nds"], none⟩, .send ⟨.setCheats true, none⟩,
          .send ⟨.run, none⟩, .goOn, .goOn] }
    let ended := i.destroy.thread.worker
    i.thread.mailbox = [] ∧ i.thread.worker.cart.path = some (.ofString "a.sav") ∧
      ended.cart.pending = false ∧ ended.cart.flushCount = 1 ∧
      (i.thread.worker.images .cart).length < (ended.images .cart).length ∧
      ¬ended.Saved .cart (.ofString "a.sav") := by
  intro files first i ended
  have hread : ended.world.files.read (.ofString "a.sav") = .ok (bytesOf "boot:a.nds".toList) := by
    decide +kernel
  have himages : ended.images .cart = [.replicate 16 1] := by decide +kernel
  refine ⟨by decide +kernel, by decide +kernel, by decide +kernel, by decide +kernel,
    by decide +kernel, ?_⟩
  rintro ⟨image, hhead, hsaved⟩
  rw [himages] at hhead
  cases hhead
  rw [hread] at hsaved
  exact absurd hsaved (by decide)

end Instance

end Handheld
