import Handheld.Machine.Basic
import Handheld.Proofs.Files.Spelling

/-!
# Whose file a cartridge save is

The save file of a cartridge stands beside its ROM (`Path.Spells.save`). Its name ends in a dot and
a mark of the instance (`fileName_cartSavePath`), which tells the instances apart, and what is before it
tells the stems apart (`Path.replaced_inj`); so no two instances, and no two ROMs of a directory with
different stems, share a save file (`save_files_apart`). One of the save files is the ROM itself where that
has the extension of a save (`Path.SavedOver`), and then the first save takes its place.
-/

namespace Handheld

/-! ## Marks of instances -/

theorem notMem_toDigits {c : Char} (hc : c.isDigit = false) (n : ℕ) : c ∉ Nat.toDigits 10 n := by
  intro h
  rw [Nat.isDigit_of_mem_toDigits (by decide) (by decide) h] at hc
  cases hc

/-- What the name of a save file ends in, behind its last dot. -/
def instanceMark (i : ℕ) : Name := if i = 0 then saveExtension else Nat.toDigits 10 (i + 1)

theorem notMem_instanceMark {c : Char} (hdigit : c.isDigit = false) (hsave : c ∉ saveExtension) (i : ℕ) :
    c ∉ instanceMark i := by
  unfold instanceMark
  split_ifs
  · exact hsave
  · exact notMem_toDigits hdigit _

theorem dot_notMem_instanceMark (i : ℕ) : '.' ∉ instanceMark i :=
  notMem_instanceMark (by decide) (by decide) i

theorem instanceMark_ne_nil (i : ℕ) : instanceMark i ≠ [] := by
  unfold instanceMark
  split_ifs
  · decide
  · exact Nat.toDigits_ne_nil

/-- **Instances have different marks.** -/
theorem instanceMark_injective {i j : ℕ} (h : instanceMark i = instanceMark j) : i = j := by
  -- the mark of the first instance is no number
  have hfirst : ∀ n, saveExtension ≠ Nat.toDigits 10 n := fun n hn =>
    notMem_toDigits (c := 's') (by decide) n (by rw [← hn]; decide)
  unfold instanceMark at h
  split_ifs at h with hi hj hj
  · rw [hi, hj]
  · exact absurd h (hfirst _)
  · exact absurd h.symm (hfirst _)
  · have hnum := congrArg (fun ds => Nat.ofDigitChars 10 ds 0) h
    simpa using hnum

theorem instanceSuffix_of_ne_zero {i : ℕ} (hi : i ≠ 0) : instanceSuffix i = '.' :: instanceMark i := by
  rw [instanceSuffix, instanceMark, if_neg hi, if_neg hi]

theorem separator_notMem_instanceSuffix (i : ℕ) : Path.separator ∉ instanceSuffix i := by
  unfold instanceSuffix
  split_ifs
  · exact List.not_mem_nil
  · intro h
    rcases List.mem_cons.mp h with h | h
    · exact absurd h (by decide)
    · exact notMem_toDigits (by decide) _ h

/-- The last dot of a text tells what is behind it and what before. -/
theorem append_dot_inj {a b m n : List Char} (hm : '.' ∉ m) (hn : '.' ∉ n)
    (h : a ++ '.' :: m = b ++ '.' :: n) : a = b ∧ m = n := by
  rcases List.append_eq_append_iff.mp h with ⟨c, rfl, hc⟩ | ⟨c, rfl, hc⟩ <;> cases c with
  | nil => simpa [eq_comm] using hc
  | cons d c =>
    have htail := (List.cons.inj hc).2
    simp [htail] at hm hn

/-! ## Names of save files -/

namespace Path

variable {p q : Path} {front idle idle' : List Char} {n m : Name}

theorem replaced_inj (h : replaced n idle saveExtension = replaced m idle' saveExtension) :
    (splitExtension n).1 = (splitExtension m).1 := by
  have hlength := congrArg List.length h
  unfold replaced at h hlength
  split_ifs at h hlength with hn hm hm
  · rw [hn.1, hm.1]
  · simp [saveExtension] at hlength
  · simp [saveExtension] at hlength
  · exact List.append_cancel_right h

/-- The name of the save file of a ROM, by the name of that. -/
def saveName (n : Name) (idle : List Char) (i : ℕ) : Name := replaced n idle saveExtension ++ instanceSuffix i

theorem one_lt_length_saveName (n : Name) (idle : List Char) (i : ℕ) : 1 < (saveName n idle i).length := by
  unfold saveName replaced
  split_ifs
  · simp
  · simp [saveExtension]
    omega

theorem separator_notMem_saveName (hn : separator ∉ n) (idle : List Char) (i : ℕ) :
    separator ∉ saveName n idle i := by
  rw [saveName, List.mem_append, not_or]
  refine ⟨?_, separator_notMem_instanceSuffix i⟩
  obtain ⟨rest, hrest⟩ := stem_append n
  have hstem : separator ∉ (splitExtension n).1 := fun h => hn (hrest ▸ List.mem_append_left rest h)
  unfold replaced
  split_ifs
  · decide
  · rw [List.mem_append, not_or]
    exact ⟨hstem, by decide⟩

/-- **A save file stands beside its ROM.** -/
theorem Spells.save (h : p.Spells front n idle) (hup : n ≠ ['.', '.']) (i : ℕ) :
    (cartSavePath p i).Spells front (saveName n idle i) [] := by
  have htext : cartSavePath p i = ⟨front ++ saveName n idle i⟩ := by
    rw [cartSavePath, h.withExtension hup, saveName, List.append_assoc]
  have hlength := one_lt_length_saveName n idle i
  rw [htext]
  refine spells_append h.front ?_ ?_ (separator_notMem_saveName h.notMem idle i)
  · exact List.ne_nil_of_length_pos (by omega)
  · intro hdot
    rw [hdot] at hlength
    exact absurd hlength (by decide)

theorem fileName_of_mark (x : List Char) (i : ℕ) :
    ∃ s, fileName ⟨x ++ '.' :: instanceMark i⟩ = some (s ++ '.' :: instanceMark i) := by
  obtain ⟨hcut, hsep, hrest⟩ := cutLast_spec x.reverse
  generalize (cutLast x.reverse).1 = a at *
  generalize (cutLast x.reverse).2 = b at *
  have hx : x = b.reverse ++ a.reverse := by rw [← List.reverse_append, ← hcut, List.reverse_reverse]
  have hfront : b.reverse = [] ∨ ∃ c, b.reverse = c ++ [separator] := by
    rcases hrest with rfl | ⟨c, rfl⟩
    · exact .inl rfl
    · exact .inr ⟨c.reverse, List.reverse_cons⟩
  have hmark : separator ∉ instanceMark i := notMem_instanceMark (by decide) (by decide) i
  -- a mark is not empty, so that the name is neither one dot nor two
  have hdot : a.reverse ++ '.' :: instanceMark i ≠ ['.'] := by
    simp [List.append_eq_cons_iff, instanceMark_ne_nil]
  have hup : a.reverse ++ '.' :: instanceMark i ≠ ['.', '.'] := fun heq => instanceMark_ne_nil i
    (append_dot_inj (b := ['.']) (n := []) (dot_notMem_instanceMark i) List.not_mem_nil heq).2
  have hsep' : separator ∉ a.reverse ++ '.' :: instanceMark i := by
    simp only [List.mem_append, List.mem_reverse, List.mem_cons, not_or]
    exact ⟨hsep, by decide, hmark⟩
  refine ⟨a.reverse, ?_⟩
  rw [hx, List.append_assoc]
  exact (spells_append hfront (by simp) hdot hsep').fileName_eq_some hup

/-- **The name of a save file ends in the mark of its instance.** Only the first instance may be left without a
name. -/
theorem fileName_cartSavePath (p : Path) (i : ℕ) :
    i = 0 ∧ (cartSavePath p i).fileName = none ∨
      ∃ s, (cartSavePath p i).fileName = some (s ++ '.' :: instanceMark i) := by
  by_cases hi : i = 0
  · subst hi
    cases hname : p.fileName with
    | none =>
      have hsame : cartSavePath p 0 = p := by
        rw [cartSavePath, withExtension, extension, hname, Option.bind_none]
        dsimp only
        rw [setExtension, hname]
        exact congrArg Path.mk (List.append_nil _)
      exact .inl ⟨rfl, by rw [hsame, hname]⟩
    | some n =>
      obtain ⟨front, idle, h, hup⟩ := spells_of_fileName hname
      by_cases hgone : (splitExtension n).1 = ['.'] ∧ idle = []
      · have hfile := (h.save hup 0).fileName
        rw [saveName, replaced, if_pos hgone] at hfile
        exact .inl ⟨rfl, hfile⟩
      · have htext : cartSavePath p 0 = ⟨front ++ (splitExtension n).1 ++ '.' :: instanceMark 0⟩ := by
          rw [cartSavePath, h.withExtension hup, replaced, if_neg hgone, ← List.append_assoc]
          exact congrArg Path.mk (List.append_nil _)
        rw [htext]
        exact .inr (fileName_of_mark _ 0)
  · have htext : cartSavePath p i = ⟨(p.withExtension saveExtension).text ++ '.' :: instanceMark i⟩ := by
      rw [cartSavePath, instanceSuffix_of_ne_zero hi]
    rw [htext]
    exact .inr (fileName_of_mark _ i)

theorem instance_eq_of_fileName {i j : ℕ} (h : (cartSavePath p i).fileName = (cartSavePath q j).fileName) :
    i = j := by
  rcases fileName_cartSavePath p i with ⟨rfl, hp⟩ | ⟨a, hp⟩ <;>
    rcases fileName_cartSavePath q j with ⟨rfl, hq⟩ | ⟨b, hq⟩ <;> rw [hp, hq] at h
  · cases h
  · cases h
  · exact instanceMark_injective (append_dot_inj (dot_notMem_instanceMark i) (dot_notMem_instanceMark j)
      (Option.some.inj h)).2

/-- Where save files have one name and fronts that look alike, so have the ROMs one stem and parents that look
alike. -/
theorem Spells.alike_of_save {α : Type} {f : Path → α}
    (hf : ∀ {a b : Path}, a.components = b.components → f a = f b) {front' : List Char} {i : ℕ}
    (hp : p.Spells front n idle) (hn : n ≠ ['.', '.']) (hq : q.Spells front' m idle') (hm : m ≠ ['.', '.'])
    (hfront : f ⟨front⟩ = f ⟨front'⟩) (hname : saveName n idle i = saveName m idle' i) :
    p.parent.map f = q.parent.map f ∧ p.fileStem = q.fileStem := by
  constructor
  · rw [hp.map_parent hf, hq.map_parent hf, hfront]
  · rw [fileStem, fileStem, hp.fileName_eq_some hn, hq.fileName_eq_some hm, Option.map_some,
      Option.map_some, replaced_inj (List.append_cancel_right hname)]

end Path

/-- **No two instances, and no two ROMs of a directory with different stems, share a save file.** Equal paths
are of one instance and, for ROMs that have a file name, of one parent and one stem; so are paths that lead to
one file, however they are spelled. Without a file name a save path names no file. -/
theorem save_files_apart (p q : Path) (i j : ℕ) :
    ((cartSavePath p i).components = (cartSavePath q j).components →
      i = j ∧ (p.fileName ≠ none → q.fileName ≠ none →
        p.parent.map Path.components = q.parent.map Path.components ∧ p.fileStem = q.fileStem)) ∧
    ∀ home, (cartSavePath p i).place home = (cartSavePath q j).place home →
      (cartSavePath p i).fileName ≠ none → (cartSavePath q j).fileName ≠ none →
      i = j ∧ (p.fileName ≠ none → q.fileName ≠ none →
        p.parent.map (Path.place · home) = q.parent.map (Path.place · home) ∧
          p.fileStem = q.fileStem) := by
  constructor
  · intro h
    obtain rfl : i = j := Path.instance_eq_of_fileName (by rw [Path.fileName, Path.fileName, h])
    refine ⟨rfl, fun hp hq => ?_⟩
    obtain ⟨front, n, idle, hpn, hn⟩ := Path.spells_of_named hp
    obtain ⟨front', m, idle', hqm, hm⟩ := Path.spells_of_named hq
    rw [(hpn.save hn i).components, (hqm.save hm i).components] at h
    obtain ⟨hfront, hlast⟩ := List.append_inj' h rfl
    exact hpn.alike_of_save id hn hqm hm hfront (Path.Component.ofName_inj (List.cons.inj hlast).1)
  · intro home h hpsave hqsave
    have hij : i = j := by
      obtain ⟨_, a, _, hpa, ha⟩ := Path.spells_of_named hpsave
      obtain ⟨_, b, _, hqb, hb⟩ := Path.spells_of_named hqsave
      rw [hpa.place_of_named ha, hqb.place_of_named hb] at h
      have hab : a = b := (List.cons.inj (List.append_inj' h rfl).2).1
      exact Path.instance_eq_of_fileName (by rw [hpa.fileName_eq_some ha, hqb.fileName_eq_some hb, hab])
    subst hij
    refine ⟨rfl, fun hp hq => ?_⟩
    obtain ⟨front, n, idle, hpn, hn⟩ := Path.spells_of_named hp
    obtain ⟨front', m, idle', hqm, hm⟩ := Path.spells_of_named hq
    -- a save path that has a file name does not end in two dots
    have hpup : Path.saveName n idle i ≠ ['.', '.'] := fun hgone =>
      hpsave (by rw [(hpn.save hn i).fileName, if_pos hgone])
    have hqup : Path.saveName m idle' i ≠ ['.', '.'] := fun hgone =>
      hqsave (by rw [(hqm.save hm i).fileName, if_pos hgone])
    rw [(hpn.save hn i).place_of_named hpup, (hqm.save hm i).place_of_named hqup] at h
    obtain ⟨hfront, hlast⟩ := List.append_inj' h rfl
    exact hpn.alike_of_save (Path.place_of_components · home) hn hqm hm hfront (List.cons.inj hlast).1

theorem save_files_apart_of_dotted_names :
    let p : Path := ⟨['g', '/', 'a', '.', '2', '.', 'n', 'd', 's']⟩
    let q : Path := ⟨['g', '/', '/', 'a', '.', '2', '.', 's', 'a', 'v']⟩
    (cartSavePath p 1).components = (cartSavePath q 1).components ∧
      (cartSavePath p 1).place [] = (cartSavePath q 1).place [] ∧
      p.parent.map Path.components = q.parent.map Path.components ∧
      p.parent.map (Path.place · []) = q.parent.map (Path.place · []) ∧ p.fileStem = q.fileStem := by
  intro p q
  obtain ⟨hequal, hlead⟩ := save_files_apart p q 1 1
  have hcomponents : (cartSavePath p 1).components = (cartSavePath q 1).components := by decide
  have hplace : (cartSavePath p 1).place [] = (cartSavePath q 1).place [] := by decide
  obtain ⟨hparents, hstems⟩ := (hequal hcomponents).2 (by decide) (by decide)
  obtain ⟨hplaces, -⟩ := (hlead [] hplace (by decide) (by decide)).2 (by decide) (by decide)
  exact ⟨hcomponents, hplace, hparents, hplaces, hstems⟩

/-! ## ROMs that are saved over -/

/-- The save file of an instance for a ROM is the ROM itself: no suffix is added, and the extension is replaced
by the one that is there. (Behind a stem that is a dot nothing is replaced: two dots are left.) -/
def Path.SavedOver (p : Path) (i : ℕ) : Prop :=
  i = 0 ∧ p.extension = some saveExtension ∧ p.fileStem ≠ some ['.']

instance (p : Path) (i : ℕ) : Decidable (p.SavedOver i) := inferInstanceAs (Decidable (_ ∧ _ ∧ _))

namespace Path

variable {p : Path} {front : List Char} {n : Name}

theorem stem_ne_nil (hn : n ≠ []) : (splitExtension n).1 ≠ [] := by
  rcases splitExtension_cases n with hnone | ⟨stem, ext, rfl, hstem, hext⟩
  · rwa [hnone]
  · rwa [splitExtension_append hstem hext]

/-- A name does not start with what its save file is called and go on with another extension. -/
theorem replaced_append_ne (n : Name) (idle : List Char) (w : Name) {e : Name} (he : '.' ∉ e) :
    replaced n idle saveExtension ++ w ++ '.' :: e ≠ n := by
  intro heq
  have hlonger : (splitExtension n).1.length < (replaced n idle saveExtension).length := by
    unfold replaced
    split_ifs with hdot
    · rw [hdot.1]
      exact Nat.lt_succ_self 1
    · simp [saveExtension]
  have hne : replaced n idle saveExtension ++ w ≠ [] :=
    List.append_ne_nil_of_left_ne_nil (List.ne_nil_of_length_pos (by omega)) w
  -- its stem would be longer than itself
  have hsplit := splitExtension_append hne he
  rw [heq] at hsplit
  rw [hsplit, List.length_append] at hlonger
  omega

theorem saveName_eq_iff (hn : n ≠ []) (hup : n ≠ ['.', '.']) (i : ℕ) : saveName n [] i = n ↔
    i = 0 ∧ (splitExtension n).2 = some saveExtension ∧ (splitExtension n).1 ≠ ['.'] := by
  constructor
  · intro h
    by_cases hi : i = 0
    · subst hi
      rw [saveName, instanceSuffix, if_pos rfl, List.append_nil, replaced] at h
      split_ifs at h with hdot
      · exact absurd h.symm hup
      · have hsave : '.' ∉ saveExtension := by decide
        have hsplit := splitExtension_append (stem_ne_nil hn) hsave
        rw [h] at hsplit
        exact ⟨rfl, by rw [hsplit], fun hstem => hdot ⟨hstem, rfl⟩⟩
    · rw [saveName, instanceSuffix_of_ne_zero hi] at h
      exact absurd (by rwa [List.append_nil]) (replaced_append_ne n [] [] (dot_notMem_instanceMark i))
  · rintro ⟨rfl, hext, hdot⟩
    rcases splitExtension_cases n with hnone | ⟨stem, old, rfl, hstem, hold⟩
    · rw [hnone] at hext
      cases hext
    · rw [saveName, replaced]
      rw [splitExtension_append hstem hold] at hext hdot ⊢
      obtain rfl : old = saveExtension := Option.some.inj hext
      rw [if_neg fun hgone => hdot hgone.1]
      exact List.append_nil _

theorem Spells.savedOver_iff (h : p.Spells front n []) (hup : n ≠ ['.', '.']) (i : ℕ) :
    p.SavedOver i ↔ saveName n [] i = n := by
  rw [saveName_eq_iff h.ne_nil hup, SavedOver, extension, fileStem, h.fileName_eq_some hup,
    Option.bind_some, Option.map_some, ne_eq, Option.some.injEq]

theorem Spells.cartSavePath_eq (h : p.Spells front n []) (hup : n ≠ ['.', '.']) {i : ℕ}
    (hover : p.SavedOver i) : cartSavePath p i = p := by
  have hsave := (h.save hup i).text
  rw [(h.savedOver_iff hup i).mp hover, ← h.text] at hsave
  exact congrArg Path.mk hsave

theorem Spells.place_cartSavePath (h : p.Spells front n []) (hup : n ≠ ['.', '.']) {i : ℕ} {home : Location}
    (hplace : (cartSavePath p i).place home = p.place home) : p.SavedOver i := by
  have hsave := h.save hup i
  rw [h.place_of_named hup] at hplace
  by_cases hgone : saveName n [] i = ['.', '.']
  · -- the directory above is not below
    rw [hsave.place, hgone] at hplace
    have hlength := congrArg List.length hplace
    change (Path.place ⟨front⟩ home).dropLast.length = _ at hlength
    simp only [List.length_dropLast, List.length_append, List.length_cons, List.length_nil] at hlength
    omega
  · rw [hsave.place_of_named hgone] at hplace
    exact (h.savedOver_iff hup i).mpr (List.cons.inj (List.append_inj' hplace rfl).2).1

theorem Spells.place_notMem_places (h : p.Spells front n []) (hup : n ≠ ['.', '.']) {i : ℕ}
    (hover : ¬p.SavedOver i) (home : Location) :
    p.place home ∉ (cartSavePath p i).places home := by
  intro hmem
  rcases List.mem_cons.mp hmem with heq | hsibling
  · exact hover (h.place_cartSavePath hup heq.symm)
  · obtain ⟨c, hc, hplace⟩ := Option.map_eq_some_iff.mp (Option.mem_toList.mp hsibling)
    have hsave := h.save hup i
    obtain ⟨dir, -, hbeside⟩ := place_sibling hc home
    rw [hsave.fileName] at hc
    split_ifs at hc with hgone
    obtain rfl := Option.some.inj hc
    rw [hbeside, h.place_of_named hup] at hplace
    have hname := (List.cons.inj (List.append_inj' hplace rfl).2).1
    exact replaced_append_ne n [] (instanceSuffix i) (e := ['t', 'm', 'p']) (by decide) hname

end Path

theorem Rom.read_of_load {t : FileTree} {paths : List Path} {rom : Rom} (h : Rom.load t paths = .ok rom) :
    t.read rom.path = .ok rom.data := by
  unfold Rom.load at h
  split at h
  · cases h
  · split at h
    · next hread =>
      cases h
      exact hread
    · cases h

/-- Save after save, a ROM that none of them goes over is kept. -/
theorem read_of_saves {t : FileTree} {p : Path} {data : Bytes} (h : t.read p = .ok data) {i : ℕ}
    (hover : ¬p.SavedOver i) (images : List Bytes) :
    (images.foldl (fun t image => (t.replaceFile (cartSavePath p i) image).1) t).read p = .ok data := by
  induction images generalizing t with
  | nil => exact h
  | cons image rest ih =>
    obtain ⟨front, n, hspells, hup⟩ := FileTree.spells_of_read h
    rcases hwrite : t.replaceFile (cartSavePath p i) image with ⟨t', r⟩
    have hkept := (FileTree.confined_replaceFile hwrite).read
      (hspells.place_notMem_places hup hover t.home) h
    rw [List.foldl_cons, hwrite]
    exact ih hkept

/-- **A ROM's save path is the ROM's own exactly if the ROM has the extension of a save**, the instance is the
first and the stem is not a dot; so it is for paths and for the places they lead to. Then every save that works
takes the place of the ROM. Otherwise the ROM is still read after any number of saves, whether they work or
not. -/
theorem Rom.saved_over_iff {t : FileTree} {paths : List Path} {rom : Rom} (h : Rom.load t paths = .ok rom)
    (i : ℕ) :
    ((cartSavePath rom.path i).components = rom.path.components ↔ rom.path.SavedOver i) ∧
    ((cartSavePath rom.path i).place t.home = rom.path.place t.home ↔ rom.path.SavedOver i) ∧
    (rom.path.SavedOver i → ∀ image, (t.replaceFile (cartSavePath rom.path i) image).2 = .ok () →
      (t.replaceFile (cartSavePath rom.path i) image).1.read rom.path = .ok image) ∧
    (¬rom.path.SavedOver i → ∀ images : List Bytes,
      (images.foldl (fun t image => (t.replaceFile (cartSavePath rom.path i) image).1) t).read rom.path =
        .ok rom.data) := by
  have hread := Rom.read_of_load h
  obtain ⟨front, n, hspells, hup⟩ := FileTree.spells_of_read hread
  have hplace : (cartSavePath rom.path i).place t.home = rom.path.place t.home → rom.path.SavedOver i :=
    hspells.place_cartSavePath hup
  have hpath : rom.path.SavedOver i → cartSavePath rom.path i = rom.path := hspells.cartSavePath_eq hup
  refine ⟨⟨fun hsame => ?_, fun hover => ?_⟩, ⟨hplace, fun hover => ?_⟩, fun hover image hwrite => ?_,
    fun hover images => read_of_saves hread hover images⟩
  · exact hplace (Path.place_of_components hsame t.home)
  · rw [hpath hover]
  · rw [hpath hover]
  · rw [hpath hover] at hwrite
    rw [hpath hover]
    exact FileTree.read_replaceFile (Prod.ext rfl hwrite)

/-- A tree with one ROM in it, called by an extension. -/
def oneRom (ext : Name) : FileTree := (FileTree.empty []).put [['a', '.'] ++ ext] (.file #[1])

theorem Rom.saved_over_by_extension :
    let p : Path := ⟨['a', '.', 'n', 'd', 's']⟩
    let q : Path := ⟨['a', '.', 's', 'a', 'v']⟩
    (Rom.load (oneRom ['n', 'd', 's']) [p] = .ok ⟨#[1], p⟩ ∧ ¬p.SavedOver 0 ∧
      ([#[2], #[3]].foldl (fun t image => (t.replaceFile (cartSavePath p 0) image).1)
        (oneRom ['n', 'd', 's'])).read p = .ok #[1]) ∧
    Rom.load (oneRom saveExtension) [q] = .ok ⟨#[1], q⟩ ∧ q.SavedOver 0 ∧
      ((oneRom saveExtension).replaceFile (cartSavePath q 0) #[2]).1.read q = .ok #[2] := by
  intro p q
  have hp : Rom.load (oneRom ['n', 'd', 's']) [p] = .ok ⟨#[1], p⟩ := rfl
  have hq : Rom.load (oneRom saveExtension) [q] = .ok ⟨#[1], q⟩ := rfl
  have hkept : ¬p.SavedOver 0 := by decide
  have hover : q.SavedOver 0 := by decide
  have hwrite : ((oneRom saveExtension).replaceFile (cartSavePath q 0) #[2]).2 = .ok () := by
    decide +kernel
  obtain ⟨-, -, -, hread⟩ := Rom.saved_over_iff hp 0
  obtain ⟨-, -, hlost, -⟩ := Rom.saved_over_iff hq 0
  exact ⟨⟨hp, hkept, hread hkept [#[2], #[3]]⟩, hq, hover, hlost hover #[2] hwrite⟩

/-- The first save of a ROM with the extension of a save is all that is left of the ROM. -/
theorem Rom.lost_to_first_save :
    let p : Path := ⟨['a', '.', 's', 'a', 'v']⟩
    let r := (oneRom saveExtension).replaceFile (cartSavePath p 0) #[2]
    Rom.load (oneRom saveExtension) [p] = .ok ⟨#[1], p⟩ ∧ (cartSavePath p 0).components = p.components ∧
      r.2 = .ok () ∧ r.1.read p = .ok #[2] :=
  ⟨rfl, rfl, rfl, rfl⟩

end Handheld
