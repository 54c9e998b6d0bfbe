import Handheld.Proofs.Files.Replace
import Mathlib.Logic.Relation

/-!
# What replacing a file leaves alone

Without links a path leads to the same place in every tree in which it leads anywhere
(`location_eq_place`), so that it can be told beforehand which entries a replacement changes: whether it
works or not, it is `Confined` to the places of the file and its sibling (`confined_replaceFile`), and what
can be read elsewhere is read afterwards (`Confined.read`). Where it works, the new data is read
(`read_replaceFile`).
-/

namespace Handheld

/-- Where one more segment leads to, whatever is there. -/
def Location.go (l : Location) (segment : Name) : Location :=
  if segment = ['.'] then l else if segment = ['.', '.'] then l.dropLast else l ++ [segment]

/-- Where a path leads to, seen from a working directory. -/
def Path.place (p : Path) (home : Location) : Location :=
  ((Path.segments p.text).filter (· ≠ [])).foldl Location.go (if p.isAbsolute then [] else home)

/-- The places that a replacement of the file at a path changes, besides those of directories it
creates: the file's and its sibling's. -/
def Path.places (p : Path) (home : Location) : List Location :=
  p.place home :: (p.fileName.map fun name => (p.sibling name).place home).toList

namespace FileTree

variable {t t' : FileTree} {p q : Path}

theorem enter_eq_go {l m : Location} {s : Name} (h : t.enter l s = .ok m) : m = Location.go l s := by
  unfold enter at h
  unfold Location.go
  split_ifs at h ⊢ <;> cases h <;> rfl

theorem walk_eq_foldl {names : List Name} {l m : Location} (h : t.walk l names = .ok m) :
    m = names.foldl Location.go l := by
  induction names generalizing l with
  | nil =>
    cases h
    rfl
  | cons s rest ih =>
    simp only [walk, bind, Except.bind] at h
    cases he : t.enter l s with
    | error e => simp [he] at h
    | ok k =>
      rw [he] at h
      rw [List.foldl_cons, ← enter_eq_go he]
      exact ih h

theorem location_eq_place {g : Target} (h : t.target p = .ok g) : g.location = p.place t.home := by
  unfold target at h
  simp only [bind, Except.bind] at h
  unfold Path.place
  generalize (if p.isAbsolute = true then [] else t.home) = start at h ⊢
  generalize (Path.segments p.text).filter (· ≠ []) = names at h ⊢
  split_ifs at h
  cases hw : t.walk start names.dropLast with
  | error e => simp [hw] at h
  | ok parent =>
    rw [hw] at h
    dsimp only at h
    split_ifs at h
    cases h
    have hparent := walk_eq_foldl hw
    rcases List.eq_nil_or_concat names with rfl | ⟨init, last, rfl⟩
    · simpa [Target.location] using hparent
    · rw [List.concat_eq_append] at hparent ⊢
      rw [List.dropLast_concat] at hparent
      rw [List.foldl_append, ← hparent]
      simp only [Target.location, List.getLast?_concat]
      rfl

/-! ## Reading -/

theorem read_eq_ok {data : Bytes} : t.read p = .ok data ↔ ∃ g, t.target p = .ok g ∧
    g.checkLength = .ok () ∧ g.slash = false ∧ t.node? g.location = some (.file data) := by
  simp only [read, find, bind, Except.bind]
  cases hg : t.target p with
  | error e => simp
  | ok g =>
    cases hl : g.checkLength with
    | error e => simp [hl]
    | ok _ =>
      cases hn : t.node? g.location with
      | none => simp [hl, hn]
      | some n =>
        cases n with
        | directory => simp [hl, hn]
        | file data => cases hs : g.slash <;> simp [hl, hn, hs]

/-- Directories stay, and so do files but at certain places. -/
structure Confined (places : List Location) (t t' : FileTree) : Prop extends Keeps t t' where
  file : ∀ l, l ∉ places → ∀ data, t.node? l = some (.file data) → t'.node? l = some (.file data)

theorem Confined.refl (places : List Location) (t : FileTree) : Confined places t t :=
  ⟨⟨rfl, fun _ h => h⟩, fun _ _ _ h => h⟩

theorem Confined.trans {places : List Location} {t'' : FileTree} (h : Confined places t t')
    (h' : Confined places t' t'') : Confined places t t'' where
  home := h'.home.trans h.home
  directory := fun l hl => h'.directory l (h.directory l hl)
  file := fun l hl data hdata => h'.file l hl data (h.file l hl data hdata)

theorem Confined.mono {places more : List Location} (h : Confined places t t')
    (hmore : ∀ l ∈ places, l ∈ more) : Confined more t t' where
  toKeeps := h.toKeeps
  file := fun l hl => h.file l fun hmem => hl (hmore l hmem)

theorem Confined.read {places : List Location} (h : Confined places t t')
    (hp : p.place t.home ∉ places) {data : Bytes} (hread : t.read p = .ok data) :
    t'.read p = .ok data := by
  obtain ⟨g, hg, hl, hs, hn⟩ := read_eq_ok.mp hread
  refine read_eq_ok.mpr ⟨g, target_mono h.toKeeps hg, hl, hs, ?_⟩
  rw [location_eq_place hg] at hn ⊢
  exact h.file _ hp data hn

theorem aboveHome_of_file {l : Location} {data : Bytes} (h : t.node? l = some (.file data)) :
    t.aboveHome l = false := by
  cases ha : t.aboveHome l with
  | false => rfl
  | true => simp [node?, ha] at h

theorem confined_put_file {l : Location} (hl : t.isDirectory l = false) (data : Bytes) :
    Confined [l] t (t.put l (.file data)) where
  toKeeps := .of_eq rfl (isDirectory_put_file hl data)
  file := by
    intro m hm old hold
    rw [node?_put, aboveHome_of_file hold]
    simpa [List.ne_of_not_mem_cons hm] using hold

theorem confined_erase {l : Location} (hl : t.isDirectory l = false) :
    Confined [l] t (t.erase l) where
  toKeeps := .of_eq rfl (isDirectory_erase hl)
  file := by
    intro m hm old hold
    rw [node?_erase, aboveHome_of_file hold]
    simpa [List.ne_of_not_mem_cons hm] using hold

/-! ## Parents -/

/-- Some directories may have been made where nothing was, and all else is as it was. -/
structure Grows (made : Location → Prop) (t t' : FileTree) : Prop where
  home : t'.home = t.home
  node : ∀ l, t'.node? l = t.node? l ∨ t.node? l = none ∧ t'.node? l = some .directory ∧ made l

theorem Grows.refl (made : Location → Prop) (t : FileTree) : Grows made t t :=
  ⟨rfl, fun _ => .inl rfl⟩

theorem Grows.trans {made : Location → Prop} {t'' : FileTree} (h : Grows made t t')
    (h' : Grows made t' t'') : Grows made t t'' := by
  refine ⟨h'.home.trans h.home, fun l => ?_⟩
  rcases h.node l with hl | ⟨hnone, hdir, hmade⟩
  · rw [← hl]
    exact h'.node l
  · rcases h'.node l with hl' | ⟨hnone', -, -⟩
    · exact .inr ⟨hnone, hl'.trans hdir, hmade⟩
    · rw [hdir] at hnone'
      cases hnone'

theorem Grows.mono {made more : Location → Prop} (h : Grows made t t')
    (hmore : ∀ l, made l → more l) : Grows more t t' :=
  ⟨h.home, fun l => (h.node l).imp_right fun hl => ⟨hl.1, hl.2.1, hmore l hl.2.2⟩⟩

theorem Grows.of_some {made : Location → Prop} (h : Grows made t t') {l : Location} {n : Node}
    (hl : t.node? l = some n) : t'.node? l = some n := by
  rcases h.node l with hsame | ⟨hnone, -, -⟩
  · rw [hsame, hl]
  · rw [hl] at hnone
    cases hnone

theorem Grows.confined {made : Location → Prop} (h : Grows made t t') : Confined [] t t' where
  home := h.home
  directory := fun _ hl => isDirectory_iff.mpr (h.of_some (isDirectory_iff.mp hl))
  file := fun _ _ _ hdata => h.of_some hdata

theorem grows_put_directory {l : Location} (hl : t.node? l = none) :
    Grows (· = l) t (t.put l .directory) := by
  refine ⟨rfl, fun m => ?_⟩
  rw [node?_put]
  by_cases ha : t.aboveHome m
  · exact .inl (by simp [node?, ha])
  · by_cases hm : m = l
    · subst hm
      exact .inr ⟨hl, by simp, rfl⟩
    · exact .inl (by simp [ha, hm])

/-- The place of a path, or of one that is reached from it by going up. -/
def AtOrAbove (p : Path) (home l : Location) : Prop :=
  ∃ q, Relation.ReflTransGen (fun a b => a.parent = some b) p q ∧ l = q.place home

theorem AtOrAbove.of_parent {home l : Location} (hq : p.parent = some q)
    (h : AtOrAbove q home l) : AtOrAbove p home l :=
  let ⟨r, hr, hl⟩ := h
  ⟨r, .head hq hr, hl⟩

theorem grows_createDirectory (h : t.createDirectory p = .ok t') :
    Grows (AtOrAbove p t.home) t t' := by
  obtain ⟨g, hg, -, hnew, rfl⟩ := createDirectory_cases h
  refine (grows_put_directory hnew).mono fun l hl => ⟨p, .refl, ?_⟩
  rw [hl, location_eq_place hg]

section
variable {refuses : Refusals}

theorem grows_ensureDirectory (h : t.ensureDirectory refuses p = .ok t') :
    Grows (AtOrAbove p t.home) t t' := by
  unfold ensureDirectory at h
  split at h
  · next hc =>
    cases h
    exact grows_createDirectory (createDirectory_of_makeDirectory hc nofun)
  · split_ifs at h
    cases h
    exact .refl _ t

theorem grows_ensureDirectories {depth : Nat} {r : Except FileError Unit}
    (h : ensureDirectories refuses depth t p = (t', r)) : Grows (AtOrAbove p t.home) t t' := by
  induction depth generalizing t t' p r with
  | zero =>
    cases h
    exact .refl _ t
  | succ depth ih =>
    unfold ensureDirectories at h
    by_cases hp : p.text = []
    · rw [if_pos hp] at h
      cases h
      exact .refl _ t
    · rw [if_neg hp] at h
      split at h
      · next hc =>
        cases h
        exact grows_createDirectory (createDirectory_of_makeDirectory hc nofun)
      · -- the parents come first
        split at h
        · cases h
          exact .refl _ t
        · next q hq =>
          split at h
          · next hparents =>
            cases h
            exact (ih hparents).mono fun _ => .of_parent hq
          · next t₁ hparents =>
            have hgrows := (ih hparents).mono fun _ => AtOrAbove.of_parent hq
            split at h
            · next he =>
              cases h
              have hlast := grows_ensureDirectory he
              rw [hgrows.home] at hlast
              exact hgrows.trans hlast
            · cases h
              exact hgrows
      · split_ifs at h <;> cases h <;> exact .refl _ t

/-- A place above a path's own. -/
def Above (p : Path) (home l : Location) : Prop := ∃ q, p.parent = some q ∧ AtOrAbove q home l

theorem grows_createParents {r : Except FileError Unit} (h : t.createParents p refuses = (t', r)) :
    Grows (Above p t.home) t t' := by
  unfold createParents at h
  split at h
  · cases h
    exact .refl _ t
  · next q hq =>
    split_ifs at h
    · cases h
      exact .refl _ t
    · exact (grows_ensureDirectories h).mono fun _ hl => ⟨q, hq, hl⟩

theorem confined_createParents {r : Except FileError Unit} (h : t.createParents p refuses = (t', r)) :
    Confined [] t t' :=
  (grows_createParents h).confined

end

/-! ## Writing a file -/

theorem read_of_write {data : Bytes} (h : t.write p data = .ok t') : t'.read p = .ok data := by
  obtain ⟨g, hg, htakes, rfl⟩ := write_eq_ok.mp h
  have hk : Keeps t (t.put g.location (.file data)) := .of_eq rfl (isDirectory_put_file htakes.2.2.2 data)
  exact read_eq_ok.mpr ⟨g, target_mono hk hg, htakes.2.2.1, htakes.2.1, node?_put_self htakes.2.2.2 data⟩

/-! ## Replacing a file -/

theorem confined_write {data : Bytes} (h : t.write p data = .ok t') :
    Confined [p.place t.home] t t' := by
  obtain ⟨g, hg, htakes, rfl⟩ := write_eq_ok.mp h
  rw [← location_eq_place hg]
  exact confined_put_file htakes.2.2.2 data

/-- Where writing is refused, some of the data may have been written. -/
theorem writeSynced_cases {data : Bytes} {disk : Disk} {r : Except FileError Unit}
    (h : t.writeSynced p data disk = (t', r)) : t' = t ∨ ∃ written, t.write p written = .ok t' := by
  have hwrite {l : Location} (hl : t.fileLocation p = .ok l) (written : Bytes) :
      t.write p written = .ok (t.put l (.file written)) := by
    rw [write, hl]
    rfl
  unfold writeSynced at h
  split at h
  · cases h
    exact .inl rfl
  · next l hl =>
    split at h <;> cases h
    · exact .inl rfl
    · exact .inr ⟨_, hwrite hl _⟩
    · exact .inr ⟨_, hwrite hl _⟩
    · exact .inr ⟨_, hwrite hl _⟩

theorem rename_cases {source goal : Path} (h : t.rename source goal = .ok t') :
    ∃ s g data, t.target source = .ok s ∧ t.node? s.location = some (.file data) ∧
      t.target goal = .ok g ∧ t.isDirectory g.location = false ∧
      t' = (t.erase s.location).put g.location (.file data) := by
  simp only [rename, bind, Except.bind] at h
  cases hs : t.target source with
  | error e => simp [hs] at h
  | ok s =>
    cases hg : t.target goal with
    | error e => simp [hs, hg] at h
    | ok g =>
      simp only [hs, hg] at h
      cases hl : s.checkLength with
      | error e => simp only [hl] at h; split_ifs at h
      | ok _ =>
        simp only [hl] at h
        rcases hn : t.node? s.location with _ | _ | data
        · simp only [hn] at h; split_ifs at h
        · simp only [hn] at h; split_ifs at h
        · cases hlast : g.checkLength with
          | error e => simp only [hn, hlast] at h; split_ifs at h
          | ok _ =>
            simp only [hn, hlast] at h
            split_ifs at h with _ _ hd
            cases h
            exact ⟨s, g, data, rfl, hn, rfl, Bool.not_eq_true _ ▸ hd, rfl⟩

theorem confined_rename {source goal : Path} (h : t.rename source goal = .ok t') :
    Confined [source.place t.home, goal.place t.home] t t' := by
  obtain ⟨s, g, data, hs, hn, hg, hd, rfl⟩ := rename_cases h
  have hfile : t.isDirectory s.location = false := by simp [isDirectory, hn]
  have hgoal : (t.erase s.location).isDirectory g.location = false := by
    rw [isDirectory_erase hfile, hd]
  rw [← location_eq_place hs, ← location_eq_place hg]
  exact ((confined_erase hfile).mono (by simp)).trans ((confined_put_file hgoal data).mono (by simp))

/-- **Only its own places change** when a file is replaced, whether that works or not. -/
theorem confined_replaceFile {data : Bytes} {disk : Disk} {r : Except FileError Unit}
    (h : t.replaceFile p data disk = (t', r)) : Confined (p.places t.home) t t' := by
  unfold replaceFile at h
  split at h
  · next hc =>
    cases h
    exact (confined_createParents hc).mono (by simp)
  · next t₁ hc =>
    have hparents : Confined (p.places t.home) t t₁ := (confined_createParents hc).mono (by simp)
    split at h
    · cases h
      exact hparents
    · next name hname =>
      have hplaces : p.places t₁.home = [p.place t₁.home, (p.sibling name).place t₁.home] := by
        simp [Path.places, hname]
      rw [← hparents.home] at hparents ⊢
      rw [hplaces] at hparents ⊢
      split at h
      · next hw =>
        cases h
        rcases writeSynced_cases hw with rfl | ⟨written, hwritten⟩
        · exact hparents
        · exact hparents.trans ((confined_write hwritten).mono (by simp))
      · next t₂ hw =>
        have hwrite := write_of_writeSynced hw
        have hwritten := hparents.trans ((confined_write hwrite).mono (by simp))
        split at h
        · cases h
          exact hwritten
        · next hr =>
          cases h
          have hmoved := confined_rename (rename_of_move hr)
          rw [(confined_write hwrite).home] at hmoved
          exact hwritten.trans (hmoved.mono (by simp))

theorem read_replaceFile {data : Bytes} {disk : Disk} (h : t.replaceFile p data disk = (t', .ok ())) :
    t'.read p = .ok data := by
  obtain ⟨t₁, name, s, g, -, -, -, hs, hg, htakes, ht'⟩ := replaceFile_eq_ok.mp (replaceFile_of_disk h)
  have hsame : ∀ l, t'.isDirectory l = t₁.isDirectory l := by
    rw [ht']
    exact isDirectory_replaced hs.2.2.2 htakes.2.2.2 data
  have hk : Keeps t₁ t' := .of_eq (by rw [ht']; rfl) hsame
  refine read_eq_ok.mpr ⟨g, target_mono hk hg, htakes.2.2.1, htakes.2.1, ?_⟩
  have hput := isDirectory_put_file hs.2.2.2 data
  rw [ht']
  refine node?_put_self ?_ data
  rw [isDirectory_erase (by rw [hput, hs.2.2.2]), hput, htakes.2.2.2]

end FileTree

end Handheld
