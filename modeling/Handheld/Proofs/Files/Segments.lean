import Handheld.Files.Path
import Mathlib.Data.List.TakeDrop
import Mathlib.Data.List.TakeWhile
import Mathlib.Tactic.Common

/-!
# The names that a path is made of

A path is followed by the names between its slashes. `Splits p q s` says that `q` is the path of the
directory that holds `p` under the name `s`, and what that means for their names and their spelling; a
path that is no root and names anything has such a parent (`parent_cases`). Replacing the file name
replaces that last name (`names_withFileName`).
-/

namespace Handheld

namespace Path

/-! ## Segments of a text -/

theorem segments_ne_nil (text : List Char) : segments text ≠ [] := by
  cases text with
  | nil => simp [segments]
  | cons c rest =>
    unfold segments
    split
    · simp
    · split <;> simp

theorem segments_append (a b : List Char) :
    segments (a ++ separator :: b) = segments a ++ segments b := by
  induction a with
  | nil => simp [segments]
  | cons c rest ih =>
    simp only [List.cons_append, segments]
    split
    · rw [ih, List.cons_append]
    · rw [ih]
      obtain ⟨s, more, hs⟩ := List.exists_cons_of_ne_nil (segments_ne_nil rest)
      rw [hs, List.cons_append, List.cons_append]

theorem segments_of_notMem {s : List Char} (h : separator ∉ s) : segments s = [s] := by
  induction s with
  | nil => rfl
  | cons c rest ih =>
    obtain ⟨hc, hrest⟩ : separator ≠ c ∧ separator ∉ rest := by simpa using h
    simp [segments, hc.symm, ih hrest]

/-! ## Names of a text -/

def namesIn (text : List Char) : List Name := (segments text).filter (· ≠ [])

def names (p : Path) : List Name := namesIn p.text

theorem namesIn_append (a b : List Char) :
    namesIn (a ++ separator :: b) = namesIn a ++ namesIn b := by
  simp only [namesIn, segments_append, List.filter_append]

theorem namesIn_slash (a : List Char) : namesIn (a ++ [separator]) = namesIn a := by
  rw [namesIn_append]
  exact List.append_nil _

theorem namesIn_of_notMem {s : List Char} (h : separator ∉ s) (hs : s ≠ []) : namesIn s = [s] := by
  simp [namesIn, segments_of_notMem h, hs]

theorem namesIn_append_name {a s : List Char} (ha : a = [] ∨ ∃ b, a = b ++ [separator])
    (h : separator ∉ s) (hs : s ≠ []) : namesIn (a ++ s) = namesIn a ++ [s] := by
  rcases ha with rfl | ⟨b, rfl⟩
  · exact namesIn_of_notMem h hs
  · rw [namesIn_slash, List.append_assoc, List.singleton_append, namesIn_append,
      namesIn_of_notMem h hs]

/-! ## Trimming -/

/-- Names that lead nowhere. -/
def Dots (names : List Name) : Prop := ∀ s ∈ names, s = ['.']

theorem Dots.append {a b : List Name} (ha : Dots a) (hb : Dots b) : Dots (a ++ b) :=
  fun s hs => (List.mem_append.mp hs).elim (ha s) (hb s)

theorem namesIn_trimTail (r : List Char) :
    ∃ dots, Dots dots ∧ namesIn r.reverse = namesIn (trimTail r).reverse ++ dots := by
  fun_induction trimTail r with
  | case1 rest ih =>
    obtain ⟨dots, hdots, ih⟩ := ih
    exact ⟨dots, hdots, by rw [List.reverse_cons]; exact (namesIn_slash _).trans ih⟩
  | case2 rest ih =>
    obtain ⟨dots, hdots, ih⟩ := ih
    refine ⟨dots ++ [['.']], hdots.append (by simp [Dots]), ?_⟩
    calc namesIn ('.' :: '/' :: rest).reverse
        = namesIn (rest.reverse ++ separator :: ['.']) := by simp [separator]
      _ = namesIn (trimTail rest).reverse ++ (dots ++ [['.']]) := by
        rw [namesIn_append, ih, List.append_assoc]
        rfl
  | case3 => exact ⟨[['.']], by simp [Dots], rfl⟩
  | case4 text => exact ⟨[], by simp [Dots], (List.append_nil _).symm⟩

theorem trimTail_suffix (r : List Char) : trimTail r <:+ r := by
  fun_induction trimTail r with
  | case1 rest ih => exact ih.trans (List.suffix_cons _ _)
  | case2 rest ih => exact ih.trans ((List.suffix_cons _ _).trans (List.suffix_cons _ _))
  | case3 => exact List.nil_suffix
  | case4 text => exact List.suffix_rfl

theorem cutLast_trimTail {r : List Char} (h : trimTail r ≠ []) :
    (cutLast (trimTail r)).1 ≠ [] ∧ (cutLast (trimTail r)).1 ≠ ['.'] := by
  fun_induction trimTail r with
  | case1 rest ih => exact ih h
  | case2 rest ih => exact ih h
  | case3 => exact absurd rfl h
  | case4 text hslash hdot hone =>
    obtain ⟨c, rest, rfl⟩ := List.exists_cons_of_ne_nil h
    have hc : c ≠ separator := fun hc => hslash rest (by rw [hc]; rfl)
    rw [cutLast, List.span_eq_takeWhile_dropWhile, List.takeWhile_cons_of_pos (by simpa using hc)]
    refine ⟨by simp, fun heq => ?_⟩
    obtain ⟨rfl, hrest⟩ := List.cons.inj heq
    cases rest with
    | nil => exact hone rfl
    | cons d rest =>
      by_cases hd : d = separator
      · exact hdot rest (by rw [hd]; rfl)
      · simp [hd] at hrest

theorem cutLast_spec (r : List Char) :
    r = (cutLast r).1 ++ (cutLast r).2 ∧ separator ∉ (cutLast r).1 ∧
      ((cutLast r).2 = [] ∨ ∃ b, (cutLast r).2 = separator :: b) := by
  rw [cutLast, List.span_eq_takeWhile_dropWhile]
  refine ⟨List.takeWhile_append_dropWhile.symm, fun h => ?_, ?_⟩
  · simpa using List.mem_takeWhile_imp h
  · cases hd : r.dropWhile (· ≠ separator) with
    | nil => exact Or.inl rfl
    | cons c b =>
      have hne : r.dropWhile (· ≠ separator) ≠ [] := by rw [hd]; exact List.cons_ne_nil c b
      have hc := List.head_dropWhile_not (· ≠ separator) hne
      simp only [hd, List.head_cons] at hc
      have hsep : c = separator := by simpa using hc
      exact Or.inr ⟨b, by rw [hsep]⟩

/-! ## Parents -/

/-- `q` is the path of the directory in which `p` names the entry `s`. -/
structure Splits (p q : Path) (s : Name) : Prop where
  /-- Both start at the same directory. -/
  isAbsolute : q.isAbsolute = p.isAbsolute
  /-- The spelling is kept. -/
  text : q.text <+: p.text
  /-- The entry's name is the last one, dots aside. -/
  names : ∃ before after, Dots before ∧ Dots after ∧ p.names = q.names ++ before ++ s :: after
  ne_nil : s ≠ []
  ne_dot : s ≠ ['.']
  notMem : separator ∉ s

theorem take_anchorLength (p : Path) :
    p.text.take p.anchorLength = [] ∨ p.text.take p.anchorLength = [separator] ∨
      p.text.take p.anchorLength = ['.'] ∧
        (p.text.drop p.anchorLength = [] ∨ ∃ b, p.text.drop p.anchorLength = separator :: b) := by
  obtain ⟨text⟩ := p
  cases text with
  | nil => exact Or.inl rfl
  | cons c rest =>
    by_cases hc : c = separator
    · subst hc
      exact Or.inr (Or.inl (by simp [anchorLength, isAbsolute]))
    · by_cases hdot : (segments (c :: rest)).head? = some ['.']
      · obtain ⟨s, more, hs⟩ := List.exists_cons_of_ne_nil (segments_ne_nil rest)
        have hlength : anchorLength ⟨c :: rest⟩ = 1 := by simp [anchorLength, hdot]
        rw [segments, if_neg hc, hs] at hdot
        obtain ⟨rfl, rfl⟩ : c = '.' ∧ s = [] := by simpa using hdot
        refine Or.inr (Or.inr ⟨by simp [hlength], ?_⟩)
        simp only [hlength, List.drop_succ_cons, List.drop_zero]
        cases rest with
        | nil => exact Or.inl rfl
        | cons d b =>
          by_cases hd : d = separator
          · exact Or.inr ⟨b, by rw [hd]⟩
          · rw [segments, if_neg hd] at hs
            split at hs <;> simp at hs
      · exact Or.inl (by simp [anchorLength, isAbsolute, hc, hdot])

theorem dots_anchor (p : Path) : Dots (namesIn (p.text.take p.anchorLength)) := by
  rcases take_anchorLength p with h | h | ⟨h, -⟩ <;> rw [h] <;>
    simp [Dots, namesIn, segments, separator]

theorem namesIn_anchor {p : Path} {b : List Char} (hb : b <+: p.text.drop p.anchorLength) :
    namesIn (p.text.take p.anchorLength ++ b) =
      namesIn (p.text.take p.anchorLength) ++ namesIn b := by
  rcases take_anchorLength p with h | h | ⟨h, hrest⟩
  · rw [h]
    rfl
  · rw [h]
    exact namesIn_append [] b
  · rw [h]
    rcases hrest with hrest | ⟨c, hrest⟩
    · rw [hrest, List.prefix_nil] at hb
      rw [hb]
      exact (List.append_nil _).symm
    · rw [hrest] at hb
      cases b with
      | nil => exact (List.append_nil _).symm
      | cons d b =>
        obtain ⟨rfl, -⟩ := List.cons_prefix_cons.mp hb
        rw [namesIn_append, ← List.nil_append (separator :: b), namesIn_append]
        rfl

theorem isAbsolute_of_start {p q : Path} (h : q.text <+: p.text) (hq : q.isAbsolute = true) :
    p.isAbsolute = true := by
  obtain ⟨rest, hrest⟩ := h
  simp only [isAbsolute, beq_iff_eq] at hq ⊢
  rw [← hrest, List.head?_append, hq]
  rfl

theorem isAbsolute_anchor {p : Path} (h : p.isAbsolute = true) (b : List Char) :
    isAbsolute ⟨p.text.take p.anchorLength ++ b⟩ = true := by
  have hone : p.anchorLength = 1 := by simp [anchorLength, h]
  simp only [isAbsolute, beq_iff_eq] at h ⊢
  rw [hone, List.head?_append, List.head?_take, if_neg Nat.one_ne_zero, h]
  rfl

theorem names_eq_anchored (p : Path) : ∃ after, Dots after ∧ p.names =
    namesIn (p.text.take p.anchorLength) ++
      (namesIn (trimTail (p.text.drop p.anchorLength).reverse).reverse ++ after) := by
  obtain ⟨after, hafter, hnames⟩ := namesIn_trimTail (p.text.drop p.anchorLength).reverse
  rw [List.reverse_reverse] at hnames
  refine ⟨after, hafter, ?_⟩
  rw [← hnames, ← namesIn_anchor List.prefix_rfl, List.take_append_drop]
  rfl

theorem dots_of_bare {p : Path} (h : trimTail (p.text.drop p.anchorLength).reverse = []) :
    Dots p.names := by
  obtain ⟨after, hafter, hnames⟩ := names_eq_anchored p
  rw [hnames, h]
  exact (dots_anchor p).append hafter

/-- A path names nothing, or is split by its parent. -/
theorem parent_cases (p : Path) :
    ((p.parent = none ∨ p.parent = some ⟨[]⟩) ∧ Dots p.names) ∨
      ∃ q s, p.parent = some q ∧ p.Splits q s := by
  have hsplit : p.text.take p.anchorLength ++ p.text.drop p.anchorLength = p.text :=
    List.take_append_drop _ _
  obtain ⟨after, hafter, hall⟩ := names_eq_anchored p
  by_cases hbody : trimTail (p.text.drop p.anchorLength).reverse = []
  · left
    constructor
    · unfold parent
      rw [if_pos hbody]
      split <;> simp
    · exact dots_of_bare hbody
  · right
    obtain ⟨hne, hdot⟩ := cutLast_trimTail hbody
    obtain ⟨hcut, hsep, hrest⟩ := cutLast_spec (trimTail (p.text.drop p.anchorLength).reverse)
    have hsuffix := trimTail_suffix (p.text.drop p.anchorLength).reverse
    have hparent : p.parent = some ⟨p.text.take p.anchorLength ++
        (trimTail (cutLast (trimTail (p.text.drop p.anchorLength).reverse)).2).reverse⟩ := by
      unfold parent
      rw [if_neg hbody]
    generalize trimTail (p.text.drop p.anchorLength).reverse = body at *
    generalize (cutLast body).1 = a at *
    generalize (cutLast body).2 = b at *
    subst hcut
    obtain ⟨before, hbefore, hnamesb⟩ := namesIn_trimTail b
    have hprefix : (trimTail b).reverse <+: p.text.drop p.anchorLength := by
      rw [← List.reverse_suffix, List.reverse_reverse]
      exact (trimTail_suffix b).trans ((List.suffix_append a b).trans hsuffix)
    have htext : p.text.take p.anchorLength ++ (trimTail b).reverse <+: p.text := by
      have h := (List.prefix_append_right_inj (p.text.take p.anchorLength)).mpr hprefix
      rwa [hsplit] at h
    refine ⟨_, a.reverse, hparent, ?_, htext, ?_, ?_, ?_, ?_⟩
    · exact Bool.eq_iff_iff.mpr ⟨isAbsolute_of_start htext, fun h => isAbsolute_anchor h _⟩
    · refine ⟨before, after, hbefore, hafter, ?_⟩
      have hlast : namesIn (a ++ b).reverse = namesIn b.reverse ++ [a.reverse] := by
        rw [List.reverse_append]
        refine namesIn_append_name ?_ (by simpa using hsep) (by simpa using hne)
        rcases hrest with rfl | ⟨c, rfl⟩
        · exact Or.inl rfl
        · exact Or.inr ⟨c.reverse, List.reverse_cons⟩
      rw [hall, hlast, hnamesb, names, namesIn_anchor hprefix]
      simp
    · simpa using hne
    · simpa using hdot
    · simpa using hsep

/-! ## File names -/

theorem filterMap_names (p : Path) :
    p.names.filterMap Component.ofSegment? = (segments p.text).filterMap Component.ofSegment? := by
  rw [names, namesIn, List.filterMap_filter]
  congr 1
  funext s
  by_cases hs : s = [] <;> simp [hs, Component.ofSegment?]

theorem filterMap_dots {names : List Name} (h : Dots names) :
    names.filterMap Component.ofSegment? = [] :=
  List.filterMap_eq_nil_iff.mpr fun s hs => by rw [h s hs]; rfl

theorem fileName_of_dots {p : Path} (h : Dots p.names) : p.fileName = none := by
  have hbody := (filterMap_names p).symm.trans (filterMap_dots h)
  unfold fileName components
  rw [hbody]
  split_ifs <;> rfl

theorem Splits.fileName {p q : Path} {s : Name} (h : p.Splits q s) :
    p.fileName = if s = ['.', '.'] then none else some s := by
  obtain ⟨before, after, -, hafter, hnames⟩ := h.names
  have hbody : ∃ init, (segments p.text).filterMap Component.ofSegment? =
      init ++ [if s = ['.', '.'] then .up else .named s] := by
    refine ⟨(q.names ++ before).filterMap Component.ofSegment?, ?_⟩
    rw [← filterMap_names, hnames, List.filterMap_append, List.filterMap_cons,
      filterMap_dots hafter]
    have hs : Component.ofSegment? s = some (if s = ['.', '.'] then .up else .named s) := by
      simp [Component.ofSegment?, h.ne_nil, h.ne_dot, apply_ite some]
    rw [hs]
  obtain ⟨init, hbody⟩ := hbody
  have hlast : p.components.getLast? = some (if s = ['.', '.'] then .up else .named s) := by
    unfold components
    rw [hbody]
    generalize (if s = ['.', '.'] then Component.up else .named s) = c
    have hcons : ∀ x : Component, (x :: (init ++ [c])).getLast? = some c := fun x => by
      rw [← List.cons_append, List.getLast?_concat]
    split_ifs
    · exact hcons .root
    · exact hcons .current
    · exact List.getLast?_concat
  unfold Path.fileName
  rw [hlast]
  split_ifs <;> rfl

theorem splits_of_fileName {p : Path} {n : Name} (h : p.fileName = some n) :
    ∃ q, p.parent = some q ∧ p.Splits q n ∧ n ≠ ['.', '.'] := by
  rcases parent_cases p with ⟨-, hdots⟩ | ⟨q, s, hq, hs⟩
  · rw [fileName_of_dots hdots] at h
    cases h
  · rw [hs.fileName] at h
    split_ifs at h with hup
    cases h
    exact ⟨q, hq, hs, hup⟩

theorem names_join {q : Path} {n : Name} (hn : separator ∉ n) (hne : n ≠ []) :
    (q.join ⟨n⟩).names = q.names ++ [n] ∧ (q.join ⟨n⟩).isAbsolute = q.isAbsolute := by
  obtain ⟨c, rest, rfl⟩ := List.exists_cons_of_ne_nil hne
  have hc : c ≠ separator := fun hc => hn (by simp [hc])
  have habs : isAbsolute ⟨c :: rest⟩ = false := by simpa [isAbsolute] using hc
  obtain ⟨text⟩ := q
  unfold join
  rw [habs, Bool.false_or]
  by_cases ht : text = []
  · subst ht
    exact ⟨namesIn_of_notMem hn hne, habs⟩
  · have hhead : ∀ b, isAbsolute ⟨text ++ b⟩ = isAbsolute ⟨text⟩ := fun b => by
      obtain ⟨d, more, rfl⟩ := List.exists_cons_of_ne_nil ht
      rfl
    rw [if_neg (by simpa using ht)]
    split_ifs with hslash
    · obtain ⟨b, hb⟩ := List.getLast?_eq_some_iff.mp hslash
      exact ⟨namesIn_append_name (.inr ⟨b, hb⟩) hn hne, hhead _⟩
    · refine ⟨?_, hhead _⟩
      exact (namesIn_append text (c :: rest)).trans (congrArg _ (namesIn_of_notMem hn hne))

theorem Splits.names_withFileName {p q : Path} {n m : Name} (h : p.Splits q n)
    (hq : p.parent = some q) (hn : n ≠ ['.', '.']) (hm : separator ∉ m) (hne : m ≠ []) :
    (p.withFileName m).names = q.names ++ [m] ∧ (p.withFileName m).isAbsolute = q.isAbsolute := by
  have hname : p.fileName = some n := by rw [h.fileName, if_neg hn]
  unfold withFileName
  rw [hname, hq]
  exact names_join hm hne

end Path

end Handheld
