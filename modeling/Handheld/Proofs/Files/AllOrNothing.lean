import Handheld.Proofs.Files.Ways
import Handheld.Proofs.Save.Session

/-!
# A file is replaced or left alone

Where replacing a file fails, what stood at its path stands there still, and where it works nothing is
left beside it; either way the rest of the tree is as it was, but for the place beside the file and for
directories made on the way to it (`replaceFile_all_or_nothing`). This holds whatever the disk refuses and
when. The tree is followed through the three steps that change it: the parents, which only add directories,
then the sibling, of which a part may be all there is, then the move (`replaceFile_eq_error`,
`replaceFile_eq_ok`). What is not at the place of one of the last two is as the first left it.
-/

namespace Handheld

namespace FileTree

variable {t t' : FileTree} {p : Path} {disk : Disk}

/-! ## Nodes after a change -/

theorem node?_put_of_ne {l m : Location} (h : m ≠ l) (n : Node) :
    (t.put l n).node? m = t.node? m := by
  rw [node?_put, if_neg h]
  by_cases ha : t.aboveHome m <;> simp [ha, node?]

theorem node?_erase_of_ne {l m : Location} (h : m ≠ l) : (t.erase l).node? m = t.node? m := by
  rw [node?_erase, if_neg h]
  by_cases ha : t.aboveHome m <;> simp [ha, node?]

theorem node?_erase_self {l : Location} (h : t.isDirectory l = false) :
    (t.erase l).node? l = none := by
  rw [node?_erase, aboveHome_eq_false h]
  simp

theorem find_of_keeps (hk : Keeps t t') (hp : t'.node? (p.place t.home) = t.node? (p.place t.home))
    {entry : Location × Node} (h : t.find p = .ok entry) : t'.find p = .ok entry := by
  unfold find at h ⊢
  cases hg : t.target p with
  | error e => simp [hg, bind, Except.bind] at h
  | ok g =>
    rw [← location_eq_place hg] at hp
    rw [target_mono hk hg]
    rw [hg] at h
    simpa only [bind, Except.bind, hp] using h

/-! ## Replacing a file -/

theorem replaceFile_eq_error {data : Bytes} {e : FileError}
    (h : t.replaceFile p data disk = (t', .error e)) : ∃ t₁ r, t.createParents p disk.directories = (t₁, r) ∧
      (t' = t₁ ∨ ∃ name s written, p.fileName = some name ∧ t₁.target (p.sibling name) = .ok s ∧
        t₁.Takes s ∧ t' = t₁.put s.location (.file written)) := by
  unfold replaceFile at h
  split at h
  · next hc =>
    cases h
    exact ⟨_, _, hc, .inl rfl⟩
  · next t₁ hc =>
    refine ⟨t₁, _, hc, ?_⟩
    split at h
    · cases h
      exact .inl rfl
    · next name hname =>
      split at h
      · next hw =>
        cases h
        rcases writeSynced_cases hw with rfl | ⟨written, hwritten⟩
        · exact .inl rfl
        · obtain ⟨s, hs, htakes, rfl⟩ := write_eq_ok.mp hwritten
          exact .inr ⟨name, s, written, hname, hs, htakes, rfl⟩
      · next t₂ hw =>
        obtain ⟨s, hs, htakes, rfl⟩ := write_eq_ok.mp (write_of_writeSynced hw)
        split at h <;> cases h
        exact .inr ⟨name, s, data, hname, hs, htakes, rfl⟩

/-- A directory that a path passes was made where nothing was. -/
def Made (p : Path) (t t' : FileTree) (l : Location) : Prop :=
  t.node? l = none ∧ t'.node? l = some .directory ∧ p.Passes t.home l

theorem node?_of_error {data : Bytes} {e : FileError} (h : t.replaceFile p data disk = (t', .error e)) :
    ∃ t₁ r, t.createParents p disk.directories = (t₁, r) ∧
      ∀ l, ¬p.Beside t.home l → t'.node? l = t₁.node? l := by
  obtain ⟨t₁, r, hc, rfl | ⟨name, s, written, hname, hs, -, rfl⟩⟩ := replaceFile_eq_error h
  · exact ⟨_, r, hc, fun _ _ => rfl⟩
  · refine ⟨t₁, r, hc, fun l hl => node?_put_of_ne (fun heq => hl ?_) _⟩
    rw [Path.beside_iff hname, heq, location_eq_place hs, (grows_of_parents hc).home]

theorem node?_place_of_error {data : Bytes} {e : FileError}
    (h : t.replaceFile p data disk = (t', .error e)) :
    t'.node? (p.place t.home) = t.node? (p.place t.home) ∨
      Made p t t' (p.place t.home) ∧ ['.', '.'] ∈ p.names ∧ ∀ g, t.target p ≠ .ok g := by
  obtain ⟨t₁, r, hc, hsame⟩ := node?_of_error h
  have hfile := hsame _ (p.not_beside_place t.home)
  rcases (grows_of_parents hc).node (p.place t.home) with heq | ⟨hnone, hdir, hpasses⟩
  · exact .inl (hfile.trans heq)
  · refine .inr ⟨⟨hnone, hfile.trans hdir, hpasses⟩, ?_, fun g hg => ?_⟩
    · by_contra hup
      exact hpasses.ne_place hup rfl
    · rw [eq_of_createParents hc hg, hnone] at hdir
      cases hdir

theorem find_of_error {data : Bytes} {e : FileError} (h : t.replaceFile p data disk = (t', .error e))
    {entry : Location × Node} (hfind : t.find p = .ok entry) : t'.find p = .ok entry := by
  refine find_of_keeps (confined_replaceFile h).toKeeps ?_ hfind
  rcases node?_place_of_error h with hsame | ⟨-, -, hlost⟩
  · exact hsame
  · unfold find at hfind
    cases hg : t.target p with
    | error e => simp [hg, bind, Except.bind] at hfind
    | ok g => exact absurd hg (hlost g)

theorem node?_of_ok {data : Bytes} (h : t.replaceFile p data disk = (t', .ok ())) :
    t'.node? (p.place t.home) = some (.file data) ∧ (∃ l, p.Beside t.home l) ∧
      (∀ l, p.Beside t.home l → t'.node? l = none) ∧
      ∃ t₁, t.createParents p = (t₁, .ok ()) ∧
        ∀ l, l ≠ p.place t.home → ¬p.Beside t.home l → t'.node? l = t₁.node? l := by
  obtain ⟨t₁, name, s, g, hc, hname, hs, htakes, hg, hgtakes, rfl⟩ :=
    replaceFile_eq_ok.mp (replaceFile_of_disk h)
  have hhome := (grows_of_parents hc).home
  have hbeside : ∀ l, p.Beside t.home l ↔ l = (p.sibling name).place t.home :=
    fun _ => Path.beside_iff hname
  have hsibling : s.location = (p.sibling name).place t.home := by rw [location_eq_place hs, hhome]
  have hfile : g.location = p.place t.home := by rw [location_eq_place hg, hhome]
  have hput := isDirectory_put_file htakes.2.2.2 data
  have herase : ((t₁.put s.location (.file data)).erase s.location).isDirectory g.location = false := by
    rw [isDirectory_erase (by rw [hput, htakes.2.2.2]), hput, hgtakes.2.2.2]
  rw [← hfile]
  refine ⟨node?_put_self herase data, ⟨_, (hbeside _).mpr rfl⟩, fun l hl => ?_, t₁, hc, fun l hl hb => ?_⟩
  · have hne : l ≠ g.location := by
      rintro rfl
      rw [hfile] at hl
      exact p.not_beside_place t.home hl
    rw [(hbeside l).mp hl, ← hsibling] at hne ⊢
    rw [node?_put_of_ne hne, node?_erase_self (by rw [hput, htakes.2.2.2])]
  · have hne : l ≠ s.location := fun heq => hb ((hbeside l).mpr (heq.trans hsibling))
    rw [node?_put_of_ne hl, node?_erase_of_ne hne, node?_put_of_ne hne]

end FileTree

namespace SaveStore

variable {s : SaveStore} {t : FileTree} {disk : Disk}

theorem done_checkFlush_eq_false :
    (s.checkFlush t disk).done = false ↔
      s.pending = true ∧ ∀ p, s.path = some p → ∃ e, (t.replaceFile p s.image disk).2 = .error e := by
  cases hp : s.pending with
  | false => simp [checkFlush, nextWrite, hp]
  | true =>
    cases hpath : s.path with
    | none => simp [checkFlush, nextWrite, hp, hpath]
    | some p =>
      have hflush : s.checkFlush t disk = s.attempt ⟨p, s.image, s.version⟩ t disk := by
        rw [checkFlush, nextWrite_of_pending hp hpath]
      rw [hflush]
      rcases h : t.replaceFile p s.image disk with ⟨t', e | _⟩
      · rw [attempt_error (w := ⟨p, s.image, s.version⟩) h]
        simp [h]
      · rw [attempt_ok (w := ⟨p, s.image, s.version⟩) h]
        simp [h]

theorem store_of_failed_attempt {w : SaveWrite} (h : (s.attempt w t disk).done = false) :
    (s.attempt w t disk).store = s := by
  rcases attempt_cases s w t disk with ⟨-, hdone, -⟩ | ⟨hs, -, -⟩
  · rw [hdone] at h
    cases h
  · exact hs

theorem store_of_failed_checkFlush (h : (s.checkFlush t disk).done = false) :
    (s.checkFlush t disk).store = s := by
  rcases checkFlush_cases s t disk with ⟨-, heq⟩ | ⟨w, -, heq⟩
  · rw [heq]
  · rw [heq] at h ⊢
    exact store_of_failed_attempt h

end SaveStore

namespace FileTree

/-- **A file is replaced or left alone**, whatever the disk refuses. Where that works, the data is at the
path and nothing is beside it; where it fails, what was at the path is there still, and nothing new is,
unless the path climbs back (`x/../x`) into a directory that had to be made. In both cases the rest of the
tree is as it was, but for the place beside the file and for directories made on the way. An attempt to
write a save that fails, whatever was requested since it began, leaves the store as it was. -/
theorem replaceFile_all_or_nothing (t : FileTree) (p : Path) (data : Bytes) (disk : Disk) (s : SaveStore) :
    let r := t.replaceFile p data disk
    let file := p.place t.home
    (r.2 = .ok () → r.1.read p = .ok data ∧ r.1.node? file = some (.file data) ∧
      (∃ l, p.Beside t.home l) ∧ ∀ l, p.Beside t.home l → r.1.node? l = none) ∧
    (∀ e, r.2 = .error e →
      (∀ entry, t.find p = .ok entry → r.1.find p = .ok entry) ∧
      (['.', '.'] ∉ p.names → r.1.node? file = t.node? file) ∧
      (r.1.node? file = t.node? file ∨
        Made p t r.1 file ∧ ['.', '.'] ∈ p.names ∧ ∀ g, t.target p ≠ .ok g)) ∧
    (r.1.home = t.home ∧ ∀ l, l ≠ file → ¬p.Beside t.home l →
      r.1.node? l = t.node? l ∨ Made p t r.1 l) ∧
    ((s.checkFlush t disk).done = false ↔
      s.pending = true ∧ ∀ q, s.path = some q → ∃ e, (t.replaceFile q s.image disk).2 = .error e) ∧
    ((s.checkFlush t disk).done = false → (s.checkFlush t disk).store = s) ∧
    ∀ w, (s.attempt w t disk).done = false → (s.attempt w t disk).store = s := by
  intro r file
  have hok : r.2 = .ok () → t.replaceFile p data disk = (r.1, .ok ()) := fun h => by rw [← h]
  have herror : ∀ e, r.2 = .error e → t.replaceFile p data disk = (r.1, .error e) := fun e h => by
    rw [← h]
  have hhome : r.1.home = t.home := (confined_replaceFile (r := r.2) rfl).home
  refine ⟨fun h => ?_, fun e h => ?_, ⟨hhome, fun l hl hbeside => ?_⟩,
    SaveStore.done_checkFlush_eq_false, SaveStore.store_of_failed_checkFlush,
    fun w => SaveStore.store_of_failed_attempt⟩
  · obtain ⟨hfile, hexists, hclear, -⟩ := node?_of_ok (hok h)
    exact ⟨read_replaceFile (hok h), hfile, hexists, hclear⟩
  · have hplace := node?_place_of_error (herror e h)
    exact ⟨fun entry => find_of_error (herror e h),
      fun hup => hplace.resolve_right fun hclimbs => hup hclimbs.2.1, hplace⟩
  · have hparents : ∃ refuses t₁ result, t.createParents p refuses = (t₁, result) ∧
        r.1.node? l = t₁.node? l := by
      cases h : r.2 with
      | ok _ =>
        obtain ⟨-, -, -, t₁, hc, hsame⟩ := node?_of_ok (hok h)
        exact ⟨_, t₁, _, hc, hsame l hl hbeside⟩
      | error e =>
        obtain ⟨t₁, result, hc, hsame⟩ := node?_of_error (herror e h)
        exact ⟨_, t₁, result, hc, hsame l hbeside⟩
    obtain ⟨refuses, t₁, result, hc, hsame⟩ := hparents
    rw [Made, hsame]
    exact (grows_of_parents hc).node l

/-- The disk is full when one byte of two has been written: the save that is there stays, and so does what
is pending. What has been written of the sibling is left. -/
theorem replaceFile_all_or_nothing_full :
    let t := (empty []).plant (.ofString "game.sav") (.file #[1, 1])
    let disk : Disk := { writing := some (1, .full) }
    let s : SaveStore := (SaveStore.empty (some (.ofString "game.sav"))).request 0 #[2, 2] 0 2
    (t.replaceFile (.ofString "game.sav") #[2, 2] disk).2 = .error (.disk .full) ∧
      (t.replaceFile (.ofString "game.sav") #[2, 2] disk).1.find (.ofString "game.sav") =
        .ok (["game.sav".toList], .file #[1, 1]) ∧
      (t.replaceFile (.ofString "game.sav") #[2, 2] disk).1.find (.ofString "game.sav.tmp") =
        .ok (["game.sav.tmp".toList], .file #[2]) ∧
      (s.checkFlush t disk).store = s := by
  intro t disk s
  have h := replaceFile_all_or_nothing t (.ofString "game.sav") #[2, 2] disk s
  have herror : (t.replaceFile (.ofString "game.sav") #[2, 2] disk).2 = .error (.disk .full) := by
    decide +kernel
  exact ⟨herror, (h.2.1 _ herror).1 _ (by decide +kernel), by decide +kernel,
    h.2.2.2.2.1 (by decide +kernel)⟩

end FileTree

end Handheld
