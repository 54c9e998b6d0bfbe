import Handheld.Proofs.Files.Ways

/-!
# How a path spells its last name

A path that names anything is a front, its last name and something that means nothing
(`Path.Spells`, `Path.spells_or_bare`). The front decides the components before the last
(`Path.Spells.components`) and the parent (`Path.Spells.parent`); a replaced extension keeps the front
and the stem, but where the shortened name is no name any more (`Path.Spells.withExtension`). Where
a path leads is read off its components (`Path.place_eq_follow`), and what can be read is spelled with
nothing behind its name (`FileTree.spells_of_read`).
-/

namespace Handheld

namespace Path

/-! ## What means nothing at the end -/

/-- Text that means nothing at the end of a path, backwards: separators, and dots behind them. -/
inductive Idle : List Char → Prop
  | nil : Idle []
  | slash {r : List Char} (h : Idle r) : Idle ('/' :: r)
  | dot {r : List Char} (h : Idle r) : Idle ('.' :: '/' :: r)

theorem Idle.drop {r : List Char} (h : Idle r) (k : ℕ) : Idle (r.drop k) := by
  induction k generalizing r with
  | zero => exact h
  | succ k ih =>
    cases h with
    | nil => exact .nil
    | slash h => exact ih h
    | dot h => exact ih h.slash

theorem Idle.eq_nil_or_concat {r : List Char} (h : Idle r) : r = [] ∨ ∃ b, r = b ++ [separator] := by
  induction h with
  | nil => exact .inl rfl
  | slash _ ih =>
    obtain rfl | ⟨b, rfl⟩ := ih
    · exact .inr ⟨[], rfl⟩
    · exact .inr ⟨'/' :: b, rfl⟩
  | dot _ ih =>
    obtain rfl | ⟨b, rfl⟩ := ih
    · exact .inr ⟨['.'], rfl⟩
    · exact .inr ⟨'.' :: '/' :: b, rfl⟩

theorem Idle.cases_reverse {idle : List Char} (h : Idle idle.reverse) :
    idle = [] ∨ (∃ r, idle = r ++ [separator]) ∨ ∃ r, idle = r ++ separator :: ['.'] := by
  generalize hr : idle.reverse = r at h
  obtain rfl : idle = r.reverse := by rw [← hr, List.reverse_reverse]
  cases h with
  | nil => exact .inl rfl
  | @slash r h => exact .inr (.inl ⟨r.reverse, List.reverse_cons⟩)
  | @dot r h => exact .inr (.inr ⟨r.reverse, by simp [separator]⟩)

theorem Idle.trimTail_append {r : List Char} (h : Idle r) (w : List Char) :
    trimTail (r ++ w) = trimTail w := by
  induction h with
  | nil => rfl
  | slash _ ih => simpa [trimTail] using ih
  | dot _ ih => simpa [trimTail] using ih

theorem exists_idle {r : List Char} (h : trimTail r ≠ []) : ∃ s, Idle s ∧ r = s ++ trimTail r := by
  fun_induction trimTail r with
  | case1 rest ih =>
    obtain ⟨s, hs, hr⟩ := ih h
    exact ⟨_, hs.slash, congrArg _ hr⟩
  | case2 rest ih =>
    obtain ⟨s, hs, hr⟩ := ih h
    exact ⟨_, hs.dot, congrArg (fun l => '.' :: '/' :: l) hr⟩
  | case3 => exact absurd rfl h
  | case4 text => exact ⟨[], .nil, rfl⟩

theorem trimTail_segment {s : Name} (hne : s ≠ []) (hdot : s ≠ ['.']) (hsep : separator ∉ s)
    (b : List Char) : trimTail (s ++ b) = s ++ b := by
  obtain ⟨c, s, rfl⟩ := List.exists_cons_of_ne_nil hne
  obtain ⟨hc, hs⟩ : separator ≠ c ∧ separator ∉ s := by simpa using hsep
  unfold trimTail
  split
  · next h => exact absurd (List.cons.inj h).1.symm hc
  · next h =>
    obtain ⟨rfl, htail⟩ := List.cons.inj h
    cases s with
    | nil => exact absurd rfl hdot
    | cons d s => exact absurd (List.mem_cons.mpr (.inl (List.cons.inj htail).1.symm)) hs
  · next h =>
    obtain ⟨rfl, htail⟩ := List.cons.inj h
    obtain ⟨rfl, -⟩ := List.append_eq_nil_iff.mp htail
    exact absurd rfl hdot
  · rfl

/-! ## Front and last name -/

/-- The text of a path is a front that ends in a separator, its last name, and what means nothing. -/
structure Spells (p : Path) (front : List Char) (n : Name) (idle : List Char) : Prop where
  text : p.text = front ++ n ++ idle
  front : front = [] ∨ ∃ b, front = b ++ [separator]
  idle : Idle idle.reverse
  ne_nil : n ≠ []
  ne_dot : n ≠ ['.']
  notMem : separator ∉ n

variable {p : Path} {front idle : List Char} {n : Name}

theorem spells_append {front : List Char} (hfront : front = [] ∨ ∃ b, front = b ++ [separator])
    {n : Name} (hne : n ≠ []) (hdot : n ≠ ['.']) (hn : separator ∉ n) :
    Spells ⟨front ++ n⟩ front n [] :=
  ⟨(List.append_nil _).symm, hfront, .nil, hne, hdot, hn⟩

theorem Spells.trimTail_drop (h : p.Spells front n idle) {k : ℕ} (hk : k ≤ front.length) :
    trimTail (p.text.drop k).reverse = n.reverse ++ (front.drop k).reverse := by
  have hdrop : p.text.drop k = front.drop k ++ n ++ idle := by
    rw [h.text, List.append_assoc, List.drop_append_of_le_length hk, List.append_assoc]
  rw [hdrop, List.reverse_append, List.reverse_append, h.idle.trimTail_append]
  exact trimTail_segment (by simpa using h.ne_nil) (by simpa using h.ne_dot) (by simpa using h.notMem) _

theorem Spells.names (h : p.Spells front n idle) :
    ∃ after, Dots after ∧ p.names = namesIn front ++ n :: after := by
  obtain ⟨after, hafter, hnames⟩ := namesIn_trimTail p.text.reverse
  have htrim : trimTail p.text.reverse = n.reverse ++ front.reverse := by
    simpa using h.trimTail_drop (Nat.zero_le _)
  rw [List.reverse_reverse, htrim, List.reverse_append, List.reverse_reverse, List.reverse_reverse,
    namesIn_append_name h.front h.notMem h.ne_nil, List.append_assoc] at hnames
  exact ⟨after, hafter, hnames⟩

theorem Spells.starts_alike (h : p.Spells front n idle) :
    p.isAbsolute = isAbsolute ⟨front⟩ ∧
      ((segments p.text).head? = some ['.'] ↔ (segments front).head? = some ['.']) := by
  rw [isAbsolute, isAbsolute, h.text]
  rcases h.front with rfl | ⟨b, rfl⟩
  · obtain ⟨c, s, rfl⟩ := List.exists_cons_of_ne_nil h.ne_nil
    have hc : c ≠ separator := fun hc => h.notMem (List.mem_cons.mpr (.inl hc.symm))
    refine ⟨by simpa using hc, iff_of_false (fun hhead => ?_) (by simp [segments])⟩
    -- the last name is the first segment
    rcases h.idle.eq_nil_or_concat with hidle | ⟨d, hidle⟩
    · rw [List.reverse_eq_nil_iff.mp hidle, List.nil_append, List.append_nil,
        segments_of_notMem h.notMem] at hhead
      exact h.ne_dot (Option.some.inj hhead)
    · rw [List.reverse_eq_iff.mp hidle, List.reverse_append, List.nil_append, List.reverse_singleton,
        List.singleton_append, segments_append, segments_of_notMem h.notMem] at hhead
      exact h.ne_dot (Option.some.inj hhead)
  · constructor
    · cases b <;> rfl
    · rw [List.append_assoc, List.append_assoc, List.singleton_append, segments_append, segments_append]
      obtain ⟨s, more, hs⟩ := List.exists_cons_of_ne_nil (segments_ne_nil b)
      rw [hs]
      rfl

theorem Spells.anchorLength (h : p.Spells front n idle) : p.anchorLength = anchorLength ⟨front⟩ := by
  obtain ⟨habs, hdot⟩ := h.starts_alike
  simp only [Path.anchorLength, habs, hdot]

theorem anchorLength_le (p : Path) : p.anchorLength ≤ p.text.length := by
  obtain ⟨text⟩ := p
  cases text with
  | nil => exact Nat.le_of_eq rfl
  | cons c rest =>
    unfold anchorLength
    split_ifs
    · exact Nat.succ_le_succ (Nat.zero_le _)
    · exact Nat.zero_le _

theorem cutLast_append {s b : List Char} (hs : separator ∉ s)
    (hb : b = [] ∨ ∃ c, b = separator :: c) : cutLast (s ++ b) = (s, b) := by
  have hall : ∀ c ∈ s, decide (c ≠ separator) = true := fun c hc =>
    decide_eq_true fun heq => hs (heq ▸ hc)
  rw [cutLast, List.span_eq_takeWhile_dropWhile, List.takeWhile_append_of_pos hall,
    List.dropWhile_append_of_pos hall]
  rcases hb with rfl | ⟨c, rfl⟩ <;> simp

theorem spells_or_bare (p : Path) : (∃ front n idle, p.Spells front n idle) ∨
    trimTail (p.text.drop p.anchorLength).reverse = [] := by
  by_cases hbody : trimTail (p.text.drop p.anchorLength).reverse = []
  · exact .inr hbody
  left
  obtain ⟨idle, hidle, htail⟩ := exists_idle hbody
  obtain ⟨hne, hdot⟩ := cutLast_trimTail hbody
  obtain ⟨hcut, hsep, hrest⟩ := cutLast_spec (trimTail (p.text.drop p.anchorLength).reverse)
  have hanchor := take_anchorLength p
  have htext := (List.take_append_drop p.anchorLength p.text).symm
  generalize p.text.take p.anchorLength = anchor at hanchor htext
  generalize trimTail (p.text.drop p.anchorLength).reverse = body at *
  generalize (cutLast body).1 = a at *
  generalize (cutLast body).2 = b at *
  subst hcut
  -- the text behind the anchor, read forwards again
  have hdrop : p.text.drop p.anchorLength = b.reverse ++ a.reverse ++ idle.reverse := by
    rw [← List.reverse_reverse (p.text.drop p.anchorLength), htail, List.reverse_append,
      List.reverse_append]
  rw [hdrop] at htext hanchor
  refine ⟨anchor ++ b.reverse, a.reverse, idle.reverse, ?_, ?_, ?_, ?_, ?_, ?_⟩
  · rw [htext]
    simp only [List.append_assoc]
  · rcases hrest with rfl | ⟨c, rfl⟩
    · rcases hanchor with rfl | rfl | ⟨rfl, hnil | ⟨d, hd⟩⟩
      · exact .inl rfl
      · exact .inr ⟨[], rfl⟩
      · simp [hne] at hnil
      · -- a dot that is a whole segment is not followed by a name
        obtain ⟨e, s, hs⟩ := List.exists_cons_of_ne_nil (mt List.reverse_eq_nil_iff.mp hne)
        rw [hs] at hd
        have he : e = separator := (List.cons.inj hd).1
        exact absurd (List.mem_reverse.mp (hs ▸ he ▸ List.mem_cons_self)) hsep
    · exact .inr ⟨anchor ++ c.reverse, by rw [List.reverse_cons, List.append_assoc]⟩
  · rwa [List.reverse_reverse]
  · simpa using hne
  · simpa using hdot
  · simpa using hsep

/-! ## Components -/

def Component.ofName (n : Name) : Component := if n = ['.', '.'] then .up else .named n

theorem Component.ofName_inj {n m : Name} (h : ofName n = ofName m) : n = m := by
  unfold ofName at h
  split_ifs at h with hn hm hm
  · rw [hn, hm]
  · exact Component.named.inj h

theorem Component.ofSegment?_name {n : Name} (hne : n ≠ []) (hdot : n ≠ ['.']) :
    ofSegment? n = some (ofName n) := by
  simp [ofSegment?, ofName, hne, hdot, apply_ite some]

theorem Spells.components (h : p.Spells front n idle) :
    p.components = Path.components ⟨front⟩ ++ [Component.ofName n] := by
  obtain ⟨after, hafter, hnames⟩ := h.names
  have hbody : (segments p.text).filterMap Component.ofSegment? =
      (segments front).filterMap Component.ofSegment? ++ [Component.ofName n] := by
    rw [← filterMap_names p, hnames, List.filterMap_append, List.filterMap_cons,
      Component.ofSegment?_name h.ne_nil h.ne_dot, filterMap_dots hafter]
    exact congrArg (· ++ [Component.ofName n]) (filterMap_names ⟨front⟩)
  obtain ⟨habs, hdot⟩ := h.starts_alike
  simp only [Path.components, hbody, habs, hdot]
  split_ifs <;> rfl

theorem Spells.fileName (h : p.Spells front n idle) :
    p.fileName = if n = ['.', '.'] then none else some n := by
  rw [Path.fileName, h.components, List.getLast?_concat, Component.ofName]
  split_ifs <;> rfl

theorem Spells.fileName_eq_some (h : p.Spells front n idle) (hup : n ≠ ['.', '.']) :
    p.fileName = some n := by
  rw [h.fileName, if_neg hup]

theorem spells_of_fileName (h : p.fileName = some n) :
    ∃ front idle, p.Spells front n idle ∧ n ≠ ['.', '.'] := by
  rcases spells_or_bare p with ⟨front, m, idle, hm⟩ | hbare
  · rw [hm.fileName] at h
    split_ifs at h with hup
    cases h
    exact ⟨front, idle, hm, hup⟩
  · rw [fileName_of_dots (dots_of_bare hbare)] at h
    cases h

theorem take_anchorLength_eq (p : Path) : p.text.take p.anchorLength =
    if p.isAbsolute then [separator] else if (segments p.text).head? = some ['.'] then ['.'] else [] := by
  obtain ⟨text⟩ := p
  cases text with
  | nil => rfl
  | cons c rest =>
    by_cases hc : c = separator
    · subst hc
      rfl
    · have habs : isAbsolute ⟨c :: rest⟩ = false := by simpa [isAbsolute] using hc
      rw [anchorLength, habs]
      by_cases hdot : (segments (c :: rest)).head? = some ['.']
      · obtain ⟨s, more, hs⟩ := List.exists_cons_of_ne_nil (segments_ne_nil rest)
        have hhead := hdot
        rw [segments, if_neg hc, hs] at hhead
        obtain ⟨rfl, -⟩ : c = '.' ∧ s = [] := by simpa using hhead
        simp [hdot]
      · simp [hdot]

theorem spells_of_named (h : p.fileName ≠ none) :
    ∃ front n idle, p.Spells front n idle ∧ n ≠ ['.', '.'] := by
  obtain ⟨n, hn⟩ := Option.ne_none_iff_exists'.mp h
  obtain ⟨front, idle, hspells, hup⟩ := spells_of_fileName hn
  exact ⟨front, n, idle, hspells, hup⟩

theorem components_trimmed (p : Path) : Path.components
    ⟨p.text.take p.anchorLength ++ (trimTail (p.text.drop p.anchorLength).reverse).reverse⟩ =
      p.components := by
  rcases spells_or_bare p with ⟨front, n, idle, h⟩ | hbare
  · have hk := anchorLength_le ⟨front⟩
    rw [← h.anchorLength] at hk
    have htake : p.text.take p.anchorLength = front.take p.anchorLength := by
      rw [h.text, List.append_assoc, List.take_append_of_le_length hk]
    rw [h.trimTail_drop hk, htake, List.reverse_append, List.reverse_reverse, List.reverse_reverse,
      ← List.append_assoc, List.take_append_drop, h.components]
    exact (spells_append h.front h.ne_nil h.ne_dot h.notMem).components
  · have hbody := (filterMap_names p).symm.trans (filterMap_dots (dots_of_bare hbare))
    have hp : p.components = if p.isAbsolute then [.root]
        else if (segments p.text).head? = some ['.'] then [.current] else [] := by
      rw [Path.components, hbody]
    rw [hbare, List.reverse_nil, List.append_nil, take_anchorLength_eq p, hp]
    split_ifs <;> rfl

theorem reverse_drop_front (hfront : front = [] ∨ ∃ b, front = b ++ [separator]) (k : ℕ) :
    (front.drop k).reverse = [] ∨ ∃ c, (front.drop k).reverse = separator :: c := by
  rcases hfront with rfl | ⟨b, rfl⟩
  · exact .inl (by rw [List.drop_nil]; rfl)
  · rcases Nat.lt_or_ge b.length k with hk | hk
    · exact .inl (by rw [List.drop_eq_nil_of_le (by rw [List.length_append]; exact hk)]; rfl)
    · refine .inr ⟨(b.drop k).reverse, ?_⟩
      rw [List.drop_append_of_le_length hk, List.reverse_append]
      rfl

theorem Spells.parent (h : p.Spells front n idle) :
    ∃ q, p.parent = some q ∧ q.components = Path.components ⟨front⟩ := by
  have hk := anchorLength_le ⟨front⟩
  have htake : p.text.take (Path.anchorLength ⟨front⟩) = front.take (Path.anchorLength ⟨front⟩) := by
    rw [h.text, List.append_assoc, List.take_append_of_le_length hk]
  refine ⟨_, ?_, components_trimmed ⟨front⟩⟩
  rw [Path.parent, h.anchorLength, h.trimTail_drop hk,
    cutLast_append (by simpa using h.notMem) (reverse_drop_front h.front _), htake]
  simp [h.ne_nil]

theorem Spells.map_parent {α : Type} (h : p.Spells front n idle) {f : Path → α}
    (hf : ∀ {a b : Path}, a.components = b.components → f a = f b) : p.parent.map f = some (f ⟨front⟩) := by
  obtain ⟨q, hq, hcomponents⟩ := h.parent
  rw [hq, Option.map_some, hf hcomponents]

end Path

/-! ## Places -/

/-- Where one more component leads to, whatever is there. -/
def Location.follow (l : Location) : Path.Component → Location
  | .root => []
  | .current => l
  | .up => l.dropLast
  | .named n => l ++ [n]

theorem foldl_go_eq_follow {names : List Name} (hne : [] ∉ names) (l : Location) :
    names.foldl Location.go l = (names.filterMap Path.Component.ofSegment?).foldl Location.follow l := by
  induction names generalizing l with
  | nil => rfl
  | cons s rest ih =>
    obtain ⟨hs, hrest⟩ : s ≠ [] ∧ [] ∉ rest := by simpa [eq_comm] using hne
    rw [List.foldl_cons, ih hrest]
    by_cases hdot : s = ['.']
    · subst hdot
      rfl
    · rw [List.filterMap_cons, Path.Component.ofSegment?_name hs hdot, Path.Component.ofName]
      by_cases hup : s = ['.', '.']
      · subst hup
        rfl
      · rw [if_neg hup, go_of_named hdot hup]
        rfl

namespace Path

variable {p q : Path} {front idle : List Char} {n : Name}

/-- **Where a path leads is read off its components.** -/
theorem place_eq_follow (p : Path) (home : Location) :
    p.place home = p.components.foldl Location.follow home := by
  have hne : [] ∉ p.names := fun h => by simpa using (List.mem_filter.mp h).2
  rw [place_eq, foldl_go_eq_follow hne, filterMap_names, start, components]
  split_ifs <;> rfl

theorem place_of_components (h : p.components = q.components) (home : Location) :
    p.place home = q.place home := by
  rw [place_eq_follow, place_eq_follow, h]

theorem Spells.place (h : p.Spells front n idle) (home : Location) :
    p.place home = (Path.place ⟨front⟩ home).follow (Component.ofName n) := by
  rw [place_eq_follow, place_eq_follow, h.components, List.foldl_append]
  rfl

theorem Spells.place_of_named (h : p.Spells front n idle) (hup : n ≠ ['.', '.']) (home : Location) :
    p.place home = Path.place ⟨front⟩ home ++ [n] := by
  rw [h.place, Component.ofName, if_neg hup]
  rfl

/-! ## Extensions -/

theorem splitExtension_append {stem ext : Name} (hstem : stem ≠ []) (hext : '.' ∉ ext) :
    splitExtension (stem ++ '.' :: ext) = (stem, some ext) := by
  have hall : ∀ c ∈ ext.reverse, decide (c ≠ '.') = true := fun c hc =>
    decide_eq_true fun heq => hext (List.mem_reverse.mp (heq ▸ hc))
  have hreverse : (stem ++ '.' :: ext).reverse = ext.reverse ++ '.' :: stem.reverse := by simp
  obtain ⟨c, before, hbefore⟩ := List.exists_cons_of_ne_nil (mt List.reverse_eq_nil_iff.mp hstem)
  have hspan : (stem ++ '.' :: ext).reverse.span (· ≠ '.') = (ext.reverse, '.' :: c :: before) := by
    rw [hreverse, List.span_eq_takeWhile_dropWhile, List.takeWhile_append_of_pos hall,
      List.dropWhile_append_of_pos hall, hbefore]
    simp
  rw [splitExtension, hspan]
  simp [← hbefore]

theorem splitExtension_cases (n : Name) : splitExtension n = (n, none) ∨
    ∃ stem ext, n = stem ++ '.' :: ext ∧ stem ≠ [] ∧ '.' ∉ ext := by
  have hsplit := List.takeWhile_append_dropWhile (p := (· ≠ '.')) (l := n.reverse)
  have hext : '.' ∉ n.reverse.takeWhile (· ≠ '.') := fun h => by simpa using List.mem_takeWhile_imp h
  have hhead := List.head_dropWhile_not (· ≠ '.') (l := n.reverse)
  rw [splitExtension, List.span_eq_takeWhile_dropWhile]
  generalize n.reverse.takeWhile (· ≠ '.') = after at *
  rcases hdrop : n.reverse.dropWhile (· ≠ '.') with - | ⟨d, - | ⟨c, before⟩⟩
  · exact .inl rfl
  · exact .inl rfl
  · simp only [hdrop, List.head_cons, ne_eq, List.cons_ne_nil, not_false_eq_true, forall_const,
      decide_eq_false_iff_not, not_not] at hhead
    refine .inr ⟨(c :: before).reverse, after.reverse, ?_, by simp, by simpa using hext⟩
    calc n = (after ++ d :: c :: before).reverse := by rw [← hdrop, hsplit, List.reverse_reverse]
      _ = (c :: before).reverse ++ '.' :: after.reverse := by rw [hhead]; simp

theorem stem_append (n : Name) : ∃ rest, n = (splitExtension n).1 ++ rest := by
  rcases splitExtension_cases n with hnone | ⟨stem, ext, rfl, hstem, hext⟩
  · exact ⟨[], by rw [hnone, List.append_nil]⟩
  · exact ⟨'.' :: ext, by rw [splitExtension_append hstem hext]⟩

theorem Spells.nameEnd (h : p.Spells front n idle) : p.nameEnd = front.length + n.length := by
  have hk : p.anchorLength ≤ front.length := by
    rw [h.anchorLength]
    exact anchorLength_le ⟨front⟩
  rw [Path.nameEnd, h.trimTail_drop hk]
  simp only [List.length_append, List.length_reverse, List.length_drop]
  omega

theorem Spells.setExtension (h : p.Spells front n idle) (hup : n ≠ ['.', '.']) (ext : Name) :
    p.setExtension ext = ⟨front ++ ((splitExtension n).1 ++ '.' :: ext)⟩ := by
  obtain ⟨rest, hrest⟩ := stem_append n
  have htext : p.text = front ++ (splitExtension n).1 ++ (rest ++ idle) := by
    rw [h.text, List.append_assoc, List.append_assoc, ← List.append_assoc _ rest, ← hrest]
  rw [Path.setExtension, h.fileName_eq_some hup, h.nameEnd]
  dsimp only
  rw [Nat.add_sub_cancel, htext, ← List.length_append, List.take_left, List.append_assoc]

/-- What is left of a path when as much of its end is cut off as the extension of its last name takes: the
name, or its stem with the start of its extension. -/
theorem Spells.cut {stem old : Name} (h : p.Spells front (stem ++ '.' :: old) idle) (hstem : stem ≠ [])
    (hup : stem ++ '.' :: old ≠ ['.', '.']) : ∃ kept idle', kept <+: old ∧ idle' <+: idle ∧
      Spells ⟨p.text.take (p.text.length - old.length)⟩ front (stem ++ '.' :: kept) idle' ∧
      (stem = ['.'] → (kept = [] ↔ idle = [])) := by
  rcases Nat.lt_or_ge idle.length old.length with hshort | hlong
  · -- the cut goes into the extension
    have hne : stem ++ '.' :: old.take idle.length ≠ [] := by simp
    have hdot : stem ++ '.' :: old.take idle.length ≠ ['.'] := by simp [List.append_eq_cons_iff, hstem]
    have hsep : separator ∉ stem ++ '.' :: old.take idle.length := fun hmem =>
      h.notMem (((List.prefix_append_right_inj stem).mpr
        (List.cons_prefix_cons.mpr ⟨rfl, List.take_prefix _ _⟩)).subset hmem)
    have htext : p.text.take (p.text.length - old.length) =
        front ++ (stem ++ '.' :: old.take idle.length) ++ [] := by
      have hsplit : p.text = (front ++ stem ++ ['.']) ++ (old ++ idle) := by
        rw [h.text]
        simp
      have hlength : p.text.length - old.length = (front ++ stem ++ ['.']).length + idle.length := by
        simp only [hsplit, List.length_append]
        omega
      rw [hlength, hsplit, List.take_length_add_append, List.take_append_of_le_length hshort.le]
      simp
    refine ⟨old.take idle.length, [], List.take_prefix _ _, List.nil_prefix,
      ⟨htext, h.front, .nil, hne, hdot, hsep⟩, fun _ => ?_⟩
    rw [List.take_eq_nil_iff, List.length_eq_zero_iff]
    refine or_iff_left fun hnil => ?_
    rw [hnil] at hshort
    exact Nat.not_lt_zero _ hshort
  · have htext : p.text.take (p.text.length - old.length) =
        front ++ (stem ++ '.' :: old) ++ idle.take (idle.length - old.length) := by
      have hlength : p.text.length - old.length =
          (front ++ (stem ++ '.' :: old)).length + (idle.length - old.length) := by
        rw [h.text, List.length_append]
        omega
      rw [hlength, h.text, List.take_length_add_append]
    refine ⟨old, idle.take (idle.length - old.length), List.prefix_rfl, List.take_prefix _ _,
      ⟨htext, h.front, ?_, h.ne_nil, h.ne_dot, h.notMem⟩, fun hdot => ?_⟩
    · rw [List.reverse_take]
      exact h.idle.drop _
    · have hold : old ≠ [] := by
        rintro rfl
        exact hup (by rw [hdot]; rfl)
      refine iff_of_false hold fun hnil => hold ?_
      rw [hnil] at hlong
      exact List.length_eq_zero_iff.mp (Nat.le_zero.mp hlong)

/-- What a replaced extension leaves of a last name: its stem with the new extension, or two dots where
the stem is a dot and nothing follows the name. -/
def replaced (n : Name) (idle : List Char) (ext : Name) : Name :=
  if (splitExtension n).1 = ['.'] ∧ idle = [] then ['.', '.'] else (splitExtension n).1 ++ '.' :: ext

/-- **A replaced extension keeps the front.** The old extension's length is cut off the end of the text, idle
or not, so that the name that is split again is the old one, or its stem with the start of its extension. -/
theorem Spells.withExtension (h : p.Spells front n idle) (hup : n ≠ ['.', '.']) (ext : Name) :
    p.withExtension ext = ⟨front ++ replaced n idle ext⟩ := by
  rcases splitExtension_cases n with hnone | ⟨stem, old, rfl, hstem, hold⟩
  · have hext : p.extension = none := by rw [extension, h.fileName_eq_some hup, Option.bind_some, hnone]
    rw [Path.withExtension, hext, replaced, hnone, if_neg fun hdot => h.ne_dot hdot.1]
    dsimp only
    rw [h.setExtension hup, hnone]
  · have hsplit := splitExtension_append hstem hold
    have hext : p.extension = some old := by
      rw [extension, h.fileName_eq_some hup, Option.bind_some, hsplit]
    obtain ⟨kept, idle', hkept, hidle', hcut, hvanish⟩ := h.cut hstem hup
    rw [Path.withExtension, hext, replaced, hsplit]
    dsimp only
    by_cases hgone : stem = ['.'] ∧ idle = []
    · -- two dots are no name, so that nothing is replaced
      obtain ⟨rfl, rfl⟩ := hgone
      obtain rfl := (hvanish rfl).mpr rfl
      obtain rfl := List.prefix_nil.mp hidle'
      have htext : p.text.take (p.text.length - old.length) = front ++ ['.', '.'] := by
        simpa using hcut.text
      rw [Path.setExtension, hcut.fileName, htext]
      rfl
    · have hup' : stem ++ '.' :: kept ≠ ['.', '.'] := by
        intro heq
        have hlength := congrArg List.length heq
        have hpos := List.length_pos_iff.mpr hstem
        simp only [List.length_append, List.length_cons, List.length_nil] at hlength
        obtain rfl : kept = [] := List.length_eq_zero_iff.mp (by omega)
        have hdot : stem = ['.'] := (List.append_inj' (show stem ++ ['.'] = ['.'] ++ ['.'] from heq) rfl).1
        exact hgone ⟨hdot, (hvanish hdot).mp rfl⟩
      rw [if_neg hgone, hcut.setExtension hup',
        splitExtension_append hstem fun hmem => hold (hkept.subset hmem)]

end Path

/-! ## What can be read -/

namespace FileTree

variable {t : FileTree} {p : Path}

/-- All that stands above a location is directories. -/
def Rooted (t : FileTree) (l : Location) : Prop := ∀ m, m <+: l → m ≠ l → t.isDirectory m = true

theorem Rooted.dropLast {l : Location} (h : t.Rooted l) : t.Rooted l.dropLast := by
  intro m hm hne
  refine h m (hm.trans (List.dropLast_prefix l)) ?_
  rintro rfl
  exact hne (hm.eq_of_length_le (List.dropLast_prefix m).length_le)

theorem Rooted.isDirectory_dropLast {l : Location} (h : t.Rooted l) (hl : t.isDirectory l = true) :
    t.isDirectory l.dropLast = true := by
  by_cases heq : l.dropLast = l
  · rwa [heq]
  · exact h _ (List.dropLast_prefix l) heq

theorem Rooted.walk {l m : Location} {names : List Name} (h : t.Rooted l)
    (hwalk : t.walk l names = .ok m) : t.Rooted m := by
  induction names generalizing l with
  | nil =>
    cases hwalk
    exact h
  | cons s rest ih =>
    simp only [FileTree.walk, bind, Except.bind] at hwalk
    cases henter : t.enter l s with
    | error e => simp [henter] at hwalk
    | ok k =>
      rw [henter] at hwalk
      refine ih ?_ hwalk
      unfold enter at henter
      split_ifs at henter with hdir hdot hup
      · cases henter
        exact h
      · cases henter
        exact h.dropLast
      · cases henter
        have hl : t.isDirectory l = true := by simpa using hdir
        intro k hk hne
        rcases List.prefix_concat_iff.mp hk with heq | hk
        · exact absurd heq hne
        · by_cases heq : k = l
          · rwa [heq]
          · exact h k hk heq

theorem rooted_start (t : FileTree) (p : Path) : t.Rooted (p.start t.home) := by
  intro m hm hne
  unfold Path.start at hm hne
  split_ifs at hm hne
  · exact absurd (List.prefix_nil.mp hm) hne
  · rw [isDirectory_iff, node?, if_pos]
    exact List.isPrefixOf_iff_prefix.mpr hm

/-- **A path that can be read ends in the name of its file.** -/
theorem spells_of_read {data : Bytes} (h : t.read p = .ok data) :
    ∃ front n, p.Spells front n [] ∧ n ≠ ['.', '.'] := by
  obtain ⟨g, hg, -, hslash, hnode⟩ := read_eq_ok.mp h
  obtain ⟨-, hwalk, hdir, hlast, hs⟩ := target_eq_ok.mp hg
  have hup := ((rooted_start t p).walk hwalk).isDirectory_dropLast hdir
  -- what is read is no directory, so that the path ends in a name
  have hname : ∃ s, p.names.getLast? = some s ∧ s ≠ ['.'] ∧ s ≠ ['.', '.'] := by
    rw [← hlast]
    cases hg : g.last with
    | none =>
      rw [Target.location, hg, isDirectory_iff.mp hdir] at hnode
      cases hnode
    | some s =>
      refine ⟨s, rfl, ?_, ?_⟩ <;> rintro rfl <;> rw [Target.location, hg] at hnode
      · change t.node? g.parent = _ at hnode
        rw [isDirectory_iff.mp hdir] at hnode
        cases hnode
      · change t.node? g.parent.dropLast = _ at hnode
        rw [isDirectory_iff.mp hup] at hnode
        cases hnode
  obtain ⟨s, hnames, hdot, hsup⟩ := hname
  rcases Path.spells_or_bare p with ⟨front, n, idle, hspells⟩ | hbare
  · have hidle : idle = [] := by
      have htext := hspells.text
      rcases hspells.idle.cases_reverse with rfl | ⟨r, rfl⟩ | ⟨r, rfl⟩
      · rfl
      · simp [htext, hslash] at hs
      · rw [Path.names, htext, ← List.append_assoc, Path.namesIn_append, List.getLast?_append] at hnames
        cases hnames
        exact absurd rfl hdot
    subst hidle
    refine ⟨front, n, hspells, ?_⟩
    rw [Path.names, hspells.text, List.append_nil,
      Path.namesIn_append_name hspells.front hspells.notMem hspells.ne_nil, List.getLast?_concat] at hnames
    cases hnames
    exact hsup
  · exact absurd (Path.dots_of_bare hbare s (List.mem_of_getLast? hnames)) hdot

end FileTree

end Handheld
