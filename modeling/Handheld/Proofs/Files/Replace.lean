import Handheld.Files.Atomic
import Mathlib.Tactic.Common

/-!
# Paths that can be written

Where the disk refuses nothing, a file is replaced without an error exactly when its parents can be
created and its sibling and itself name entries that are no directories (`replaceFile_eq_ok`). None of
this depends on the data, and a replacement removes no directory, so a path that could be written once
can be written again (`accepts_of_replaceFile`). A replacement that works on a disk that refuses something
has met none of it (`replaceFile_of_disk`).
-/

namespace Handheld

namespace FileTree

/-! ## Directories under change -/

/-- Directories of one tree are directories of another, seen from the same working directory. -/
structure Keeps (t t' : FileTree) : Prop where
  home : t'.home = t.home
  directory : ∀ l, t.isDirectory l = true → t'.isDirectory l = true

theorem Keeps.of_eq {t t' : FileTree} (home : t'.home = t.home)
    (h : ∀ l, t'.isDirectory l = t.isDirectory l) : Keeps t t' :=
  ⟨home, fun l hl => by rwa [h]⟩

theorem isDirectory_iff {t : FileTree} {l : Location} :
    t.isDirectory l = true ↔ t.node? l = some .directory := by
  simp [isDirectory]

theorem aboveHome_eq_false {t : FileTree} {l : Location} (h : t.isDirectory l = false) :
    t.aboveHome l = false := by
  cases ha : t.aboveHome l with
  | false => rfl
  | true => simp [isDirectory, node?, ha] at h

theorem isDirectory_put_file {t : FileTree} {l : Location} (h : t.isDirectory l = false)
    (data : Bytes) (m : Location) : (t.put l (.file data)).isDirectory m = t.isDirectory m := by
  unfold isDirectory
  rw [node?_put]
  by_cases ha : t.aboveHome m
  · simp [ha, node?]
  · by_cases hm : m = l
    · subst hm
      have hn : (t.node? m == some .directory) = false := h
      rw [hn]
      simp [ha]
    · simp [ha, hm]

theorem isDirectory_erase {t : FileTree} {l : Location} (h : t.isDirectory l = false)
    (m : Location) : (t.erase l).isDirectory m = t.isDirectory m := by
  unfold isDirectory
  rw [node?_erase]
  by_cases ha : t.aboveHome m
  · simp [ha, node?]
  · by_cases hm : m = l
    · subst hm
      have hn : (t.node? m == some .directory) = false := h
      rw [hn]
      simp [ha]
    · simp [ha, hm]

theorem node?_put_self {t : FileTree} {l : Location} (h : t.isDirectory l = false) (data : Bytes) :
    (t.put l (.file data)).node? l = some (.file data) := by
  rw [node?_put]
  simp [aboveHome_eq_false h]

theorem isDirectory_replaced {t : FileTree} {l k : Location} (hl : t.isDirectory l = false)
    (hk : t.isDirectory k = false) (data : Bytes) (m : Location) :
    (((t.put l (.file data)).erase l).put k (.file data)).isDirectory m = t.isDirectory m := by
  have hput : ∀ m, (t.put l (.file data)).isDirectory m = t.isDirectory m := isDirectory_put_file hl data
  have herase : ∀ m, ((t.put l (.file data)).erase l).isDirectory m = t.isDirectory m := fun m => by
    rw [isDirectory_erase (by rw [hput]; exact hl), hput]
  rw [isDirectory_put_file (by rw [herase]; exact hk), herase]

theorem keeps_put_directory (t : FileTree) (l : Location) : Keeps t (t.put l .directory) := by
  refine ⟨rfl, fun m hm => ?_⟩
  rw [isDirectory_iff] at hm ⊢
  rw [node?_put]
  split_ifs
  · rfl
  · rfl
  · exact hm

/-! ## Resolving paths -/

theorem isDirectory_of_walk {t : FileTree} {l m : Location} {names : List Name}
    (h : t.walk l names = .ok m) (hm : t.isDirectory m = true) : t.isDirectory l = true := by
  cases names with
  | nil =>
    cases h
    exact hm
  | cons s rest =>
    by_contra hl
    rw [Bool.not_eq_true] at hl
    simp [walk, enter, hl, bind, Except.bind] at h

theorem enter_mono {t t' : FileTree} (hk : Keeps t t') {l m : Location} {s : Name}
    (h : t.enter l s = .ok m) (hm : t.isDirectory m = true) : t'.enter l s = .ok m := by
  unfold enter at h ⊢
  by_cases hl : t.isDirectory l = true
  · have hl' := hk.directory l hl
    simp only [hl, hl', Bool.not_true, Bool.false_eq_true, if_false] at h ⊢
    split_ifs at h ⊢ with h1 h2 h3 h4 h5 h6
    · exact h
    · exact h
    · cases h
      have hdir := isDirectory_iff.mp (hk.directory _ hm)
      simp [hdir] at h4
    · exact h
  · simp [hl] at h

theorem walk_mono {t t' : FileTree} (hk : Keeps t t') {names : List Name} {l m : Location}
    (h : t.walk l names = .ok m) (hm : t.isDirectory m = true) : t'.walk l names = .ok m := by
  induction names generalizing l with
  | nil => exact h
  | cons s rest ih =>
    simp only [walk, bind, Except.bind] at h ⊢
    cases he : t.enter l s with
    | error e => simp [he] at h
    | ok k =>
      rw [he] at h
      rw [enter_mono hk he (isDirectory_of_walk h hm)]
      exact ih h

theorem target_mono {t t' : FileTree} (hk : Keeps t t') {p : Path} {g : Target}
    (h : t.target p = .ok g) : t'.target p = .ok g := by
  unfold target at h ⊢
  rw [hk.home]
  simp only [bind, Except.bind] at h ⊢
  generalize (if p.isAbsolute = true then [] else t.home) = start at h ⊢
  generalize (Path.segments p.text).filter (· ≠ []) = names at h ⊢
  split_ifs at h ⊢
  cases hw : t.walk start names.dropLast with
  | error e => simp [hw] at h
  | ok parent =>
    rw [hw] at h
    dsimp only at h
    by_cases hd : t.isDirectory parent = true
    · rw [walk_mono hk hw hd]
      simpa [hd, hk.directory _ hd] using h
    · simp [hd] at h

theorem pathIsDirectory_iff {t : FileTree} {p : Path} :
    t.pathIsDirectory p = true ↔
      ∃ g, t.target p = .ok g ∧ g.checkLength = .ok () ∧ t.isDirectory g.location = true := by
  simp only [pathIsDirectory, find, bind, Except.bind]
  cases hg : t.target p with
  | error e => simp
  | ok g =>
    cases hl : g.checkLength with
    | error e => simp [hl]
    | ok _ =>
      cases hn : t.node? g.location with
      | none => simp [hl, hn, isDirectory]
      | some n =>
        cases n with
        | directory => simp [hl, hn, isDirectory]
        | file data => cases hs : g.slash <;> simp [hl, hn, hs, isDirectory]

theorem pathIsDirectory_mono {t t' : FileTree} (hk : Keeps t t') {p : Path}
    (h : t.pathIsDirectory p = true) : t'.pathIsDirectory p = true := by
  obtain ⟨g, hg, hl, hd⟩ := pathIsDirectory_iff.mp h
  exact pathIsDirectory_iff.mpr ⟨g, target_mono hk hg, hl, hk.directory _ hd⟩

/-! ## Parents -/

def HasParents (t : FileTree) (p : Path) : Prop :=
  ∀ q, p.parent = some q → q.text ≠ [] → t.pathIsDirectory q = true

theorem createDirectory_cases {t t' : FileTree} {p : Path} (h : t.createDirectory p = .ok t') :
    ∃ g, t.target p = .ok g ∧ g.checkLength = .ok () ∧ t.node? g.location = none ∧
      t' = t.put g.location .directory := by
  simp only [createDirectory, bind, Except.bind] at h
  cases hg : t.target p with
  | error e => simp [hg] at h
  | ok g =>
    simp only [hg] at h
    cases hl : g.checkLength with
    | error e => simp [hl] at h; split_ifs at h
    | ok _ =>
      simp only [hl] at h
      split_ifs at h with _ hnew
      cases h
      exact ⟨g, rfl, hl, by simpa using hnew, rfl⟩

theorem pathIsDirectory_of_createDirectory {t t' : FileTree} {p : Path}
    (h : t.createDirectory p = .ok t') : t'.pathIsDirectory p = true := by
  obtain ⟨g, hg, hl, -, rfl⟩ := createDirectory_cases h
  refine pathIsDirectory_iff.mpr ⟨g, target_mono (keeps_put_directory t g.location) hg, hl, ?_⟩
  rw [isDirectory_iff, node?_put]
  simp

theorem createDirectory_of_pathIsDirectory {t : FileTree} {p : Path}
    (h : t.pathIsDirectory p = true) : t.createDirectory p = .error .alreadyExists := by
  obtain ⟨g, hg, hl, hd⟩ := pathIsDirectory_iff.mp h
  rw [isDirectory_iff] at hd
  simp [createDirectory, hg, hl, hd, bind, Except.bind]

section
variable {refuses : Refusals}

theorem makeDirectory_none (t : FileTree) (p : Path) :
    t.makeDirectory (fun _ => none) p = t.createDirectory p := by
  unfold makeDirectory
  cases t.createDirectory p <;> rfl

theorem createDirectory_of_makeDirectory {t : FileTree} {p : Path} {r : Except FileError FileTree}
    (h : t.makeDirectory refuses p = r) (hr : ∀ e, r ≠ .error (.disk e)) : t.createDirectory p = r := by
  unfold makeDirectory at h
  split at h
  · exact absurd h.symm (hr _)
  · exact h

theorem makeDirectory_of_pathIsDirectory {t : FileTree} {p : Path} (h : t.pathIsDirectory p = true) :
    t.makeDirectory refuses p = .error .alreadyExists := by
  rw [makeDirectory, createDirectory_of_pathIsDirectory h]

theorem ensureDirectory_of_disk {t t' : FileTree} {p : Path} (h : t.ensureDirectory refuses p = .ok t') :
    t.ensureDirectory (fun _ => none) p = .ok t' := by
  unfold ensureDirectory at h ⊢
  rw [makeDirectory_none]
  split at h
  · next hc =>
    rw [createDirectory_of_makeDirectory hc nofun]
    exact h
  · split_ifs at h with hd
    rw [createDirectory_of_pathIsDirectory hd]
    exact (if_pos hd).trans h

theorem pathIsDirectory_of_ensureDirectory {t t' : FileTree} {p : Path}
    (h : t.ensureDirectory refuses p = .ok t') : t'.pathIsDirectory p = true := by
  unfold ensureDirectory at h
  split at h
  · next hc =>
    cases h
    exact pathIsDirectory_of_createDirectory (createDirectory_of_makeDirectory hc nofun)
  · split_ifs at h with hd
    cases h
    exact hd

theorem ensureDirectories_of_disk {depth : Nat} {t t' : FileTree} {p : Path}
    (h : ensureDirectories refuses depth t p = (t', .ok ())) :
    ensureDirectories (fun _ => none) depth t p = (t', .ok ()) := by
  induction depth generalizing t t' p with
  | zero => cases h
  | succ depth ih =>
    unfold ensureDirectories at h ⊢
    rw [makeDirectory_none]
    by_cases hp : p.text = []
    · rw [if_pos hp] at h ⊢
      exact h
    rw [if_neg hp] at h ⊢
    split at h
    · next hc =>
      rw [createDirectory_of_makeDirectory hc nofun]
      exact h
    · next hc =>
      -- the parents come first
      rw [createDirectory_of_makeDirectory hc nofun]
      dsimp only
      split at h
      · cases h
      · split at h
        · cases h
        · next t₁ hparents =>
          rw [ih hparents]
          dsimp only
          split at h
          · next he =>
            rw [ensureDirectory_of_disk he]
            exact h
          · cases h
    · split_ifs at h with hd
      · rw [createDirectory_of_pathIsDirectory hd]
        exact (if_pos hd).trans h
      · cases h

theorem pathIsDirectory_of_ensureDirectories {depth : Nat} {t t' : FileTree} {p : Path}
    (hp : p.text ≠ []) (h : ensureDirectories refuses depth t p = (t', .ok ())) :
    t'.pathIsDirectory p = true := by
  cases depth with
  | zero => cases h
  | succ depth =>
    unfold ensureDirectories at h
    rw [if_neg hp] at h
    split at h
    · next hc =>
      cases h
      exact pathIsDirectory_of_createDirectory (createDirectory_of_makeDirectory hc nofun)
    · -- the parents were missing
      split at h
      · cases h
      · split at h
        · cases h
        · split at h
          · next he =>
            cases h
            exact pathIsDirectory_of_ensureDirectory he
          · cases h
    · split_ifs at h with hd
      · cases h
        exact hd
      · cases h

theorem createParents_of_disk {t t' : FileTree} {p : Path} (h : t.createParents p refuses = (t', .ok ())) :
    t.createParents p = (t', .ok ()) := by
  unfold createParents at h ⊢
  split at h
  · exact h
  · split_ifs at h ⊢
    · exact h
    · exact ensureDirectories_of_disk h

theorem hasParents_of_createParents {t t' : FileTree} {p : Path}
    (h : t.createParents p refuses = (t', .ok ())) : HasParents t' p := by
  intro q hq hne
  simp only [createParents, hq, if_neg hne, createDirectories] at h
  exact pathIsDirectory_of_ensureDirectories hne h

theorem HasParents.createParents_eq {t : FileTree} {p : Path} (h : HasParents t p) :
    t.createParents p refuses = (t, .ok ()) := by
  unfold createParents
  split
  · rfl
  · next q hq =>
    split_ifs with hne
    · rfl
    · have hd := h q hq hne
      simp [createDirectories, ensureDirectories, hne, makeDirectory_of_pathIsDirectory hd, hd]

end

theorem HasParents.mono {t t' : FileTree} (hk : Keeps t t') {p : Path} (h : HasParents t p) :
    HasParents t' p :=
  fun q hq hne => pathIsDirectory_mono hk (h q hq hne)

/-! ## Replacing a file -/

/-- A target names an entry that a file can take. -/
def Takes (t : FileTree) (g : Target) : Prop :=
  g.isSpecial = false ∧ g.slash = false ∧ g.checkLength = .ok () ∧ t.isDirectory g.location = false

theorem Takes.congr {t t' : FileTree} (h : ∀ l, t'.isDirectory l = t.isDirectory l) {g : Target}
    (hg : t.Takes g) : t'.Takes g :=
  ⟨hg.1, hg.2.1, hg.2.2.1, by rw [h]; exact hg.2.2.2⟩

theorem fileLocation_eq_ok {t : FileTree} {p : Path} {l : Location} :
    t.fileLocation p = .ok l ↔ ∃ g, t.target p = .ok g ∧ t.Takes g ∧ l = g.location := by
  constructor
  · intro h
    simp only [fileLocation, bind, Except.bind] at h
    cases hg : t.target p with
    | error e => simp [hg] at h
    | ok g =>
      simp only [hg] at h
      cases hl : g.checkLength with
      | error e => simp only [hl] at h; split_ifs at h
      | ok _ =>
        simp only [hl] at h
        split_ifs at h with hb hd
        obtain ⟨hs, hslash⟩ := Bool.or_eq_false_iff.mp (Bool.not_eq_true _ ▸ hb)
        cases h
        exact ⟨g, rfl, ⟨hs, hslash, hl, Bool.not_eq_true _ ▸ hd⟩, rfl⟩
  · rintro ⟨g, hg, ⟨hs, hslash, hl, hd⟩, rfl⟩
    simp [fileLocation, hg, hs, hslash, hl, hd, bind, Except.bind]

theorem write_eq_ok {t t' : FileTree} {p : Path} {data : Bytes} :
    t.write p data = .ok t' ↔
      ∃ g, t.target p = .ok g ∧ t.Takes g ∧ t' = t.put g.location (.file data) := by
  unfold write
  constructor
  · intro h
    cases hl : t.fileLocation p with
    | error e =>
      rw [hl] at h
      cases h
    | ok l =>
      obtain ⟨g, hg, htakes, rfl⟩ := fileLocation_eq_ok.mp hl
      rw [hl] at h
      cases h
      exact ⟨g, hg, htakes, rfl⟩
  · rintro ⟨g, hg, htakes, rfl⟩
    rw [fileLocation_eq_ok.mpr ⟨g, hg, htakes, rfl⟩]
    rfl

theorem write_of_writeSynced {t t' : FileTree} {p : Path} {data : Bytes} {disk : Disk}
    (h : t.writeSynced p data disk = (t', .ok ())) : t.write p data = .ok t' := by
  unfold writeSynced at h
  split at h
  · cases h
  · next l hl =>
    split at h <;> cases h
    rw [write, hl]
    rfl

theorem writeSynced_of_write {t t' : FileTree} {p : Path} {data : Bytes} (h : t.write p data = .ok t') :
    t.writeSynced p data {} = (t', .ok ()) := by
  unfold write at h
  unfold writeSynced
  cases hl : t.fileLocation p with
  | error e =>
    rw [hl] at h
    cases h
  | ok l =>
    rw [hl] at h
    cases h
    rfl

theorem rename_of_move {t t' : FileTree} {source goal : Path} {disk : Disk}
    (h : t.move source goal disk = .ok t') : t.rename source goal = .ok t' := by
  unfold move at h
  split at h
  · cases h
  · exact h

theorem move_of_rename {t t' : FileTree} {source goal : Path} (h : t.rename source goal = .ok t') :
    t.move source goal {} = .ok t' := by
  rw [move, h]

theorem rename_eq_ok {t t' : FileTree} {source goal : Path} {s : Target} {data : Bytes}
    (hs : t.target source = .ok s) (hspecial : s.isSpecial = false) (hslash : s.slash = false)
    (hlength : s.checkLength = .ok ()) (hn : t.node? s.location = some (.file data)) :
    t.rename source goal = .ok t' ↔
      ∃ g, t.target goal = .ok g ∧ t.Takes g ∧
        t' = (t.erase s.location).put g.location (.file data) := by
  constructor
  · intro h
    simp only [rename, hs, hspecial, hlength, hn, hslash, bind, Except.bind, Bool.false_or] at h
    cases hg : t.target goal with
    | error e => simp [hg] at h
    | ok g =>
      simp only [hg] at h
      cases hl : g.checkLength with
      | error e => simp only [hl] at h; split_ifs at h
      | ok _ =>
        simp only [hl] at h
        split_ifs at h with hgs hgd hd
        cases h
        simp only [Bool.not_eq_true] at hgs hgd hd
        exact ⟨g, rfl, ⟨hgs, hgd, hl, hd⟩, rfl⟩
  · rintro ⟨g, hg, ⟨hgs, hgd, hl, hd⟩, rfl⟩
    simp [rename, hs, hspecial, hslash, hlength, hn, hg, hgs, hgd, hl, hd, bind, Except.bind]

/-- **A file is replaced** exactly when its parents can be created, and its sibling and itself name
entries that a file can take. The sibling is gone afterwards. -/
theorem replaceFile_eq_ok {t t' : FileTree} {p : Path} {data : Bytes} :
    t.replaceFile p data = (t', .ok ()) ↔
      ∃ t₁ name s g, t.createParents p = (t₁, .ok ()) ∧ p.fileName = some name ∧
        t₁.target (p.sibling name) = .ok s ∧ t₁.Takes s ∧ t₁.target p = .ok g ∧ t₁.Takes g ∧
        t' = ((t₁.put s.location (.file data)).erase s.location).put g.location (.file data) := by
  -- the sibling on disk changes no directory, so the goal is found where it was
  have key : ∀ {t₁ t₃ : FileTree} {name : Name} {s : Target}, t₁.target (p.sibling name) = .ok s →
      t₁.Takes s → ((t₁.put s.location (.file data)).rename (p.sibling name) p = .ok t₃ ↔
        ∃ g, t₁.target p = .ok g ∧ t₁.Takes g ∧
          t₃ = ((t₁.put s.location (.file data)).erase s.location).put g.location (.file data)) := by
    intro t₁ t₃ name s hs htakes
    have hsame := isDirectory_put_file htakes.2.2.2 data
    have hk : Keeps t₁ (t₁.put s.location (.file data)) := .of_eq rfl hsame
    have hk' : Keeps (t₁.put s.location (.file data)) t₁ := .of_eq rfl fun l => (hsame l).symm
    rw [rename_eq_ok (target_mono hk hs) htakes.1 htakes.2.1 htakes.2.2.1
      (node?_put_self htakes.2.2.2 data)]
    constructor
    · rintro ⟨g, hg, ht, rfl⟩
      exact ⟨g, target_mono hk' hg, ht.congr fun l => (hsame l).symm, rfl⟩
    · rintro ⟨g, hg, ht, rfl⟩
      exact ⟨g, target_mono hk hg, ht.congr hsame, rfl⟩
  constructor
  · intro h
    unfold replaceFile at h
    split at h
    · cases h
    · next t₁ hc =>
      split at h
      · cases h
      · next name hname =>
        split at h
        · cases h
        · next t₂ hw =>
          obtain ⟨s, hs, htakes, rfl⟩ := write_eq_ok.mp (write_of_writeSynced hw)
          split at h
          · cases h
          · next t₃ hr =>
            cases h
            obtain ⟨g, hg, hg', rfl⟩ := (key hs htakes).mp (rename_of_move hr)
            exact ⟨t₁, name, s, g, hc, hname, hs, htakes, hg, hg', rfl⟩
  · rintro ⟨t₁, name, s, g, hc, hname, hs, htakes, hg, hg', rfl⟩
    have hw : t₁.writeSynced (p.sibling name) data {} = _ :=
      writeSynced_of_write (write_eq_ok.mpr ⟨s, hs, htakes, rfl⟩)
    have hr := move_of_rename ((key hs htakes).mpr ⟨g, hg, hg', rfl⟩)
    simp only [replaceFile, hc, hname, hw, hr]

/-- Where a file is replaced, it makes no difference what the disk would have refused. -/
theorem replaceFile_of_disk {t t' : FileTree} {p : Path} {data : Bytes} {disk : Disk}
    (h : t.replaceFile p data disk = (t', .ok ())) : t.replaceFile p data = (t', .ok ()) := by
  unfold replaceFile at h
  split at h
  · cases h
  · next t₁ hc =>
    split at h
    · cases h
    · next name hname =>
      split at h
      · cases h
      · next t₂ hw =>
        split at h
        · cases h
        · next t₃ hr =>
          cases h
          have hw : t₁.writeSynced (p.sibling name) data {} = (t₂, .ok ()) :=
            writeSynced_of_write (write_of_writeSynced hw)
          have hr : t₂.move (p.sibling name) p {} = .ok t' := move_of_rename (rename_of_move hr)
          simp only [replaceFile, createParents_of_disk hc, hname, hw, hr]

/-- Whatever is to be written at a path, the disk takes it. -/
def Accepts (t : FileTree) (p : Path) : Prop := ∀ data, ∃ t', t.replaceFile p data = (t', .ok ())

/-- A path that took one file takes any other, before and after. -/
theorem accepts_of_replaceFile {t t' : FileTree} {p : Path} {data : Bytes}
    (h : t.replaceFile p data = (t', .ok ())) : t.Accepts p ∧ t'.Accepts p := by
  obtain ⟨t₁, name, s, g, hc, hname, hs, htakes, hg, hg', ht'⟩ := replaceFile_eq_ok.mp h
  constructor
  · intro other
    exact ⟨_, replaceFile_eq_ok.mpr ⟨t₁, name, s, g, hc, hname, hs, htakes, hg, hg', rfl⟩⟩
  · intro other
    have hsame : ∀ l, t'.isDirectory l = t₁.isDirectory l := by
      rw [ht']
      exact isDirectory_replaced htakes.2.2.2 hg'.2.2.2 data
    have hk : Keeps t₁ t' := .of_eq (by rw [ht']; rfl) hsame
    have hparents : t'.createParents p = (t', .ok ()) :=
      ((hasParents_of_createParents hc).mono hk).createParents_eq
    exact ⟨_, replaceFile_eq_ok.mpr ⟨t', name, s, g, hparents, hname, target_mono hk hs,
      htakes.congr hsame, target_mono hk hg, hg'.congr hsame, rfl⟩⟩

end FileTree

end Handheld
