import Handheld.Proofs.Files.Places
import Handheld.Proofs.Files.Segments

/-!
# The way to a file

A path leads to an entry of the directory its parent leads to (`Path.Splits.place`), beside which its sibling
stands (`Path.beside_iff`), so that the two are never one. Making the parents of a path only adds
directories that it passes (`grows_of_parents`), and adds none where the path leads somewhere already
(`eq_of_createParents`).
-/

namespace Handheld

/-! ## Places of a path, its parent and its sibling -/

def Path.start (p : Path) (home : Location) : Location := if p.isAbsolute then [] else home

theorem Path.place_eq (p : Path) (home : Location) :
    p.place home = p.names.foldl Location.go (p.start home) := rfl

theorem foldl_go_dots {dots : List Name} (h : Path.Dots dots) (l : Location) :
    dots.foldl Location.go l = l := by
  induction dots with
  | nil => rfl
  | cons s rest ih =>
    obtain ⟨rfl, hrest⟩ := List.forall_mem_cons.mp h
    exact ih hrest

theorem Path.Splits.start {p q : Path} {s : Name} (h : p.Splits q s) (home : Location) :
    q.start home = p.start home := by
  rw [Path.start, Path.start, h.isAbsolute]

theorem Path.Splits.place {p q : Path} {s : Name} (h : p.Splits q s) (home : Location) :
    p.place home = Location.go (q.place home) s := by
  obtain ⟨before, after, hbefore, hafter, hnames⟩ := h.names
  rw [Path.place_eq, Path.place_eq, hnames, ← h.start, List.foldl_append, List.foldl_append,
    List.foldl_cons, foldl_go_dots hafter, foldl_go_dots hbefore]

theorem go_of_named {s : Name} (hdot : s ≠ ['.']) (hup : s ≠ ['.', '.']) (l : Location) :
    Location.go l s = l ++ [s] := by
  rw [Location.go, if_neg hdot, if_neg hup]

theorem Path.place_sibling {p : Path} {n : Name} (h : p.fileName = some n) (home : Location) :
    ∃ dir, p.place home = dir ++ [n] ∧ (p.sibling n).place home = dir ++ [n ++ siblingSuffix] := by
  obtain ⟨q, hq, hs, hup⟩ := Path.splits_of_fileName h
  have hsep : separator ∉ n ++ siblingSuffix := by
    rw [List.mem_append, not_or]
    exact ⟨hs.notMem, by decide⟩
  have hlength : 4 < (n ++ siblingSuffix).length := by
    have := List.length_pos_iff.mpr hs.ne_nil
    simp only [List.length_append, siblingSuffix, List.length_cons, List.length_nil]
    omega
  obtain ⟨hnames, habs⟩ := hs.names_withFileName hq hup hsep (by simp [siblingSuffix])
  refine ⟨q.place home, ?_, ?_⟩
  · rw [hs.place, go_of_named hs.ne_dot hup]
  · rw [Path.place_eq, Path.sibling, hnames, Path.start, habs, List.foldl_append, List.foldl_cons,
      List.foldl_nil, go_of_named (fun hn => by simp [hn] at hlength) fun hn => by simp [hn] at hlength]
    rfl

/-- The place beside the one of a path, under its name with the suffix. -/
def Path.Beside (p : Path) (home l : Location) : Prop :=
  ∃ dir name, p.fileName = some name ∧ p.place home = dir ++ [name] ∧
    l = dir ++ [name ++ siblingSuffix]

theorem Path.beside_iff {p : Path} {n : Name} (h : p.fileName = some n) {home l : Location} :
    p.Beside home l ↔ l = (p.sibling n).place home := by
  obtain ⟨dir, hplace, hsibling⟩ := Path.place_sibling h home
  constructor
  · rintro ⟨dir', n', hn', hplace', rfl⟩
    obtain rfl : n = n' := Option.some.inj (h.symm.trans hn')
    rw [hsibling, List.append_cancel_right (hplace'.symm.trans hplace)]
  · rintro rfl
    exact ⟨dir, n, h, hplace, hsibling⟩

theorem Path.not_beside_place (p : Path) (home : Location) : ¬p.Beside home (p.place home) := by
  rintro ⟨dir, n, -, hplace, hbeside⟩
  have hname := (List.append_inj' (hplace.symm.trans hbeside) rfl).2
  have hlength := congrArg List.length (List.cons.inj hname).1
  simp [siblingSuffix] at hlength

/-! ## Directories that a path passes -/

/-- A directory in which a path looks for a further entry. -/
def Path.Passes (p : Path) (home l : Location) : Prop :=
  ∃ before s after, p.names = before ++ s :: after ∧ s ≠ ['.'] ∧
    l = before.foldl Location.go (p.start home)

theorem Path.Splits.passes {p q : Path} {s : Name} (h : p.Splits q s) (home : Location) :
    p.Passes home (q.place home) := by
  obtain ⟨before, after, hbefore, -, hnames⟩ := h.names
  refine ⟨q.names ++ before, s, after, hnames, h.ne_dot, ?_⟩
  rw [List.foldl_append, foldl_go_dots hbefore, ← h.start]
  rfl

theorem Path.Splits.passes_of_passes {p q : Path} {s : Name} (h : p.Splits q s) {home l : Location}
    (hl : q.Passes home l) : p.Passes home l := by
  obtain ⟨before, after, -, -, hnames⟩ := h.names
  obtain ⟨front, m, back, hq, hm, rfl⟩ := hl
  refine ⟨front, m, back ++ (before ++ s :: after), ?_, hm, by rw [h.start]⟩
  rw [hnames, hq]
  simp

theorem length_le_foldl_go {names : List Name} (hup : ['.', '.'] ∉ names) (l : Location) :
    l.length ≤ (names.foldl Location.go l).length := by
  induction names generalizing l with
  | nil => exact le_rfl
  | cons s rest ih =>
    obtain ⟨hs, hrest⟩ : ['.', '.'] ≠ s ∧ ['.', '.'] ∉ rest := by simpa using hup
    refine le_trans ?_ (ih hrest _)
    unfold Location.go
    split_ifs with _ h
    · exact le_rfl
    · exact absurd h.symm hs
    · simp

/-- A path without a step up ends below what it passes. -/
theorem Path.Passes.ne_place {p : Path} {home l : Location} (h : p.Passes home l)
    (hup : ['.', '.'] ∉ p.names) : l ≠ p.place home := by
  obtain ⟨before, s, after, hnames, hs, rfl⟩ := h
  obtain ⟨-, hsup, hafter⟩ : ['.', '.'] ∉ before ∧ ['.', '.'] ≠ s ∧ ['.', '.'] ∉ after := by
    simpa [hnames] using hup
  intro heq
  have hlength := congrArg List.length heq
  rw [Path.place_eq, hnames, List.foldl_append, List.foldl_cons, go_of_named hs hsup.symm] at hlength
  have hle := length_le_foldl_go hafter (before.foldl Location.go (p.start home) ++ [s])
  simp only [List.length_append, List.length_cons, List.length_nil] at hle
  omega

namespace FileTree

variable {t t' : FileTree} {p q : Path}

theorem node?_home (t : FileTree) : t.node? t.home = some .directory := by
  simp [node?, aboveHome]

theorem passes_of_parent {home l : Location} (hq : p.parent = some q)
    (h : l = home ∨ l = q.place home ∨ q.Passes home l) : l = home ∨ p.Passes home l := by
  rcases Path.parent_cases p with ⟨hnone, -⟩ | ⟨q', s, hq', hs⟩
  · obtain rfl : q = ⟨[]⟩ := by
      rcases hnone with hnone | hnone <;> rw [hq] at hnone <;> cases hnone
      rfl
    rcases h with rfl | rfl | ⟨before, s, after, hnames, -, -⟩
    · exact .inl rfl
    · exact .inl rfl
    · exact absurd hnames.symm (List.append_ne_nil_of_right_ne_nil _ (List.cons_ne_nil _ _))
  · obtain rfl : q = q' := Option.some.inj (hq.symm.trans hq')
    rcases h with rfl | rfl | hpasses
    · exact .inl rfl
    · exact .inr (hs.passes home)
    · exact .inr (hs.passes_of_passes hpasses)

theorem passes_of_above {home l : Location} (h : Above p home l) :
    l = home ∨ p.Passes home l := by
  obtain ⟨q, hq, r, hr, rfl⟩ := h
  refine passes_of_parent hq ?_
  clear hq
  induction hr using Relation.ReflTransGen.head_induction_on with
  | refl => exact .inr (.inl rfl)
  | head hup _ ih => exact (passes_of_parent hup ih).imp_right .inr

/-! ## Parents -/

/-- Making parents only adds directories that the path passes. -/
theorem grows_of_parents {refuses : Refusals} {r : Except FileError Unit}
    (h : t.createParents p refuses = (t', r)) :
    Grows (p.Passes t.home) t t' := by
  have hgrows := grows_createParents h
  refine ⟨hgrows.home, fun l => ?_⟩
  refine (hgrows.node l).imp_right fun ⟨hnone, hdir, habove⟩ => ⟨hnone, hdir, ?_⟩
  rcases passes_of_above habove with rfl | hpasses
  · rw [node?_home] at hnone
    cases hnone
  · exact hpasses

theorem walk_append (t : FileTree) (l : Location) (a b : List Name) :
    t.walk l (a ++ b) = t.walk l a >>= fun m => t.walk m b := by
  induction a generalizing l with
  | nil => rfl
  | cons s rest ih =>
    simp only [List.cons_append, walk]
    cases t.enter l s with
    | error e => rfl
    | ok m => exact ih m

theorem checkLength_of_enter {l m : Location} {s : Name} (h : t.enter l s = .ok m) (parent : Location)
    (slash : Bool) : Target.checkLength ⟨parent, some s, slash⟩ = .ok () := by
  unfold enter at h
  unfold Target.checkLength
  split_ifs at h with _ hdot hup hlength
  · subst hdot
    rfl
  · subst hup
    rfl
  · dsimp only
    rw [if_neg hlength]

theorem target_eq_ok {g : Target} : t.target p = .ok g ↔
    ('\x00' ∉ p.text ∧ p.text ≠ [] ∧ diskLength p.text < pathLengthLimit) ∧
      t.walk (p.start t.home) p.names.dropLast = .ok g.parent ∧ t.isDirectory g.parent = true ∧
        g.last = p.names.getLast? ∧ g.slash = decide (p.text.getLast? = some Path.separator) := by
  unfold target
  change (if _ then _ else if _ then _ else if _ then _ else
    t.walk (p.start t.home) p.names.dropLast >>= _) = _ ↔ _
  rw [← Nat.not_le]
  split_ifs with hnul hne hlength
  · simp [List.contains_iff_mem.mp hnul]
  · simp [hne]
  · simp [hlength]
  · have hnul' : '\x00' ∉ p.text := by simpa using hnul
    obtain ⟨parent, last, slash⟩ := g
    cases t.walk (p.start t.home) p.names.dropLast with
    | error e => simp [bind, Except.bind]
    | ok m =>
      cases hdir : t.isDirectory m with
      | false =>
        simp only [bind, Except.bind, hdir, Bool.not_false, if_true, reduceCtorEq, false_iff]
        rintro ⟨-, hm, hparent, -⟩
        cases hm
        rw [hdir] at hparent
        cases hparent
      | true =>
        simp only [bind, Except.bind, hdir, Bool.not_true, Bool.false_eq_true, if_false,
          Except.ok.injEq, Target.mk.injEq]
        constructor
        · rintro ⟨rfl, rfl, rfl⟩
          exact ⟨⟨hnul', hne, hlength⟩, rfl, hdir, rfl, rfl⟩
        · rintro ⟨-, rfl, -, rfl, rfl⟩
          exact ⟨rfl, rfl, rfl⟩

theorem pathIsDirectory_of_walk {m : Location}
    (hspelled : '\x00' ∉ p.text ∧ p.text ≠ [] ∧ diskLength p.text < pathLengthLimit)
    (hwalk : t.walk (p.start t.home) p.names = .ok m) (hm : t.isDirectory m = true) :
    t.pathIsDirectory p = true := by
  -- the last name is looked up from where the others lead
  have hlast : ∃ parent, t.walk (p.start t.home) p.names.dropLast = .ok parent ∧
      t.isDirectory parent = true ∧
      Target.checkLength ⟨parent, p.names.getLast?, decide (p.text.getLast? = some Path.separator)⟩ =
        .ok () := by
    rcases List.eq_nil_or_concat p.names with hnil | ⟨init, s, hinit⟩
    · rw [hnil] at hwalk ⊢
      exact ⟨m, hwalk, hm, rfl⟩
    · rw [List.concat_eq_append] at hinit
      rw [hinit, walk_append] at hwalk
      rw [hinit, List.dropLast_concat, List.getLast?_concat]
      cases hparent : t.walk (p.start t.home) init with
      | error e => simp [hparent, bind, Except.bind] at hwalk
      | ok parent =>
        rw [hparent] at hwalk
        have hdir := isDirectory_of_walk hwalk hm
        simp only [bind, Except.bind, walk] at hwalk
        cases henter : t.enter parent s with
        | error e => simp [henter] at hwalk
        | ok k => exact ⟨parent, rfl, hdir, checkLength_of_enter henter _ _⟩
  obtain ⟨parent, hparent, hdir, hcheck⟩ := hlast
  have htarget : t.target p = .ok ⟨parent, p.names.getLast?, decide (_ = _)⟩ :=
    target_eq_ok.mpr ⟨hspelled, hparent, hdir, rfl, rfl⟩
  refine pathIsDirectory_iff.mpr ⟨_, htarget, hcheck, ?_⟩
  rw [location_eq_place htarget, Path.place_eq, ← walk_eq_foldl hwalk]
  exact hm

theorem diskLength_le_of_start {a b : List Char} (h : a <+: b) : diskLength a ≤ diskLength b := by
  obtain ⟨rest, rfl⟩ := h
  induction a with
  | nil => exact Nat.zero_le _
  | cons c a ih => exact Nat.add_le_add_left ih _

theorem hasParents_of_target {g : Target} (h : t.target p = .ok g) : HasParents t p := by
  intro q hq hne
  obtain ⟨⟨hnul, -, hlength⟩, hwalk, hdir, -, -⟩ := target_eq_ok.mp h
  rcases Path.parent_cases p with ⟨hnone, -⟩ | ⟨q', s, hq', hs⟩
  · rcases hnone with hnone | hnone <;> rw [hq] at hnone <;> cases hnone
    exact absurd rfl hne
  · obtain rfl : q = q' := Option.some.inj (hq.symm.trans hq')
    obtain ⟨before, after, -, -, hnames⟩ := hs.names
    have hsplit : p.names.dropLast = q.names ++ (before ++ s :: after).dropLast := by
      rw [hnames, List.append_assoc,
        List.dropLast_append_of_ne_nil (List.append_ne_nil_of_right_ne_nil _ (List.cons_ne_nil _ _))]
    rw [hsplit, walk_append, ← hs.start] at hwalk
    cases hm : t.walk (q.start t.home) q.names with
    | error e => simp [hm, bind, Except.bind] at hwalk
    | ok m =>
      rw [hm] at hwalk
      refine pathIsDirectory_of_walk ⟨fun hmem => hnul (hs.text.subset hmem), hne, ?_⟩ hm
        (isDirectory_of_walk hwalk hdir)
      exact Nat.lt_of_le_of_lt (diskLength_le_of_start hs.text) hlength

theorem eq_of_createParents {refuses : Refusals} {t₁ : FileTree} {r : Except FileError Unit} {g : Target}
    (hc : t.createParents p refuses = (t₁, r)) (hg : t.target p = .ok g) : t₁ = t := by
  rw [(hasParents_of_target hg).createParents_eq] at hc
  exact (Prod.mk.inj hc).1.symm

end FileTree

end Handheld
