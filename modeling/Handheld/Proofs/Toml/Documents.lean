import Handheld.Proofs.Toml.Numerals
import Handheld.Proofs.Toml.Strings
import Handheld.Toml.Document
import Handheld.Toml.Writer

/-!
# Documents read back

A written document holds one table for each of its sections, with the fields of the section as they were
given (`parse_writeSections`). The text is read line by line: a header opens the table of its section, each
assignment adds its field to the table opened last, and the empty lines between sections change nothing.
-/

namespace Handheld.Toml

/-! ## Values -/

/-- A leaf that has a value: an integer has at most 128 bits, and only one pattern that stands for no number is
written. -/
def Leaf.Readable : Leaf → Prop
  | .integer n => n < 2 ^ 128
  | .float bits => Binary64.decode bits = .nan → bits = Scalar.nanBits
  | _ => True

/-- A character of an unquoted scalar that opens no string. -/
def isWordChar (c : Char) : Bool := isScalarChar c && c ≠ Quoted.basicQuote && c ≠ Quoted.literalQuote

theorem isWordChar_of_isNumeralChar {c : Char} (h : Scalar.IsNumeralChar c) : isWordChar c = true := by
  rcases h with hdigit | hother
  · obtain ⟨hlow, hhigh⟩ := (Scalar.isDigit_iff c).mp hdigit
    have hne : ∀ e : Char, e.toNat < 48 ∨ 57 < e.toNat → c ≠ e := by
      rintro e he rfl
      omega
    simp [isWordChar, isScalarChar, endsScalar, Quoted.basicQuote, Quoted.literalQuote, hne]
  · have : (['.', '-', 'n', 'a', 'i', 'f'].all isWordChar) = true := by decide
    exact List.all_eq_true.mp this c hother

theorem readValue_eq_leaf {c : Char} (harray : c ≠ '[') (htable : c ≠ '\x7b') (fuel depth : Nat)
    (r : List Char) : readValue fuel depth (c :: r) = readValue.leaf fuel (c :: r) := by
  cases depth <;> simp [readValue, harray, htable]

/-- An unquoted word: what a leaf that is no text is written as. -/
structure IsUnquoted (w : List Char) : Prop where
  ne_nil : w ≠ []
  char : ∀ c ∈ w, isWordChar c = true

theorem isUnquoted_digits (n : Nat) : IsUnquoted (Positional.digits n) :=
  ⟨(Scalar.isWhole_digits n).ne_nil, fun _ hc => isWordChar_of_isNumeralChar (.inl (Scalar.isDigit_digits hc))⟩

theorem isUnquoted_ofBits (bits : UInt64) : IsUnquoted (Positional.ofBits bits) :=
  ⟨Scalar.ofBits_ne_nil bits, fun _ hc => isWordChar_of_isNumeralChar (Scalar.isNumeralChar_ofBits hc)⟩

theorem isUnquoted_boolean (b : Bool) : IsUnquoted (Leaf.boolean b).write := by
  have hall : ∀ b, (Leaf.boolean b).write.all isWordChar = true := by decide
  exact ⟨by cases b <;> exact List.cons_ne_nil _ _, List.all_eq_true.mp (hall b)⟩

theorem IsUnquoted.skipBlanks {w : List Char} (hw : IsUnquoted w) (r : List Char) :
    skipBlanks (w ++ r) = w ++ r := by
  obtain ⟨c, t, rfl⟩ := List.exists_cons_of_ne_nil hw.ne_nil
  have hc := hw.char c List.mem_cons_self
  have hne : ∀ e, isWordChar e = false → c ≠ e := by
    rintro e he rfl
    rw [hc] at he
    cases he
  rw [List.cons_append, Toml.skipBlanks,
    List.dropWhile_cons_of_neg (by simp [isBlank, hne ' ' (by decide), hne '\t' (by decide)])]

theorem IsUnquoted.readValue {w : List Char} (hw : IsUnquoted w) (rest : List Char) (fuel depth : Nat) :
    readValue fuel depth (w ++ '\n' :: rest) = (scalar? w).map (·, '\n' :: rest) := by
  have hscalar : ∀ c ∈ w, isScalarChar c = true := fun c hc => by
    have := hw.char c hc
    simp only [isWordChar, Bool.and_eq_true] at this
    exact this.1.1
  have hcut : readScalar (w ++ '\n' :: rest) = (scalar? w).map (·, '\n' :: rest) := by
    rw [readScalar, Scalar.span_append hscalar rfl]
    rfl
  obtain ⟨c, r, rfl⟩ := List.exists_cons_of_ne_nil hw.ne_nil
  have hc := hw.char c List.mem_cons_self
  have harray : c ≠ '[' := by
    rintro rfl
    exact absurd hc (by decide)
  have htable : c ≠ '\x7b' := by
    rintro rfl
    exact absurd hc (by decide)
  simp only [isWordChar, Bool.and_eq_true, decide_eq_true_eq] at hc
  rw [List.cons_append, readValue_eq_leaf harray htable, readValue.leaf, if_neg (by simp [hc])]
  exact hcut

theorem exists_write (s : List Char) :
    ∃ c r, Quoted.write s = c :: r ∧ (c = Quoted.basicQuote ∨ c = Quoted.literalQuote) := by
  cases Quoted.form s with
  | oneBasic h => exact ⟨_, _, h, .inl rfl⟩
  | oneLiteral h => exact ⟨_, _, h, .inr rfl⟩
  | linesBasic h => exact ⟨_, _, h, .inl rfl⟩
  | linesLiteral h => exact ⟨_, _, h, .inr rfl⟩

theorem readValue_write {leaf : Leaf} (h : leaf.Readable) (rest : List Char) {fuel : Nat}
    (hfuel : leaf.write.length ≤ fuel) (depth : Nat) :
    readValue fuel depth (leaf.write ++ '\n' :: rest) = some (leaf.toValue, '\n' :: rest) := by
  cases leaf with
  | text s =>
    obtain ⟨c, r, hwrite, hquote⟩ := exists_write s
    have hread := Quoted.read_write s rest hfuel
    have harray : c ≠ '[' := by rcases hquote with rfl | rfl <;> decide
    have htable : c ≠ '\x7b' := by rcases hquote with rfl | rfl <;> decide
    have hopens : (c = Quoted.basicQuote || c = Quoted.literalQuote) = true := by simpa using hquote
    rw [Leaf.write, hwrite, List.cons_append] at *
    rw [readValue_eq_leaf harray htable, readValue.leaf, if_pos hopens, hread]
    rfl
  | integer n =>
    rw [Leaf.write, (isUnquoted_digits n).readValue, Scalar.scalar?_digits h]
    rfl
  | float bits =>
    rw [Leaf.write, (isUnquoted_ofBits bits).readValue, Scalar.scalar?_ofBits h]
    rfl
  | boolean b =>
    rw [(isUnquoted_boolean b).readValue]
    cases b <;> rfl

theorem Leaf.skipBlanks_write (leaf : Leaf) (r : List Char) :
    skipBlanks (leaf.write ++ r) = leaf.write ++ r := by
  cases leaf with
  | text s =>
    obtain ⟨c, t, hwrite, rfl | rfl⟩ := exists_write s
    · rw [Leaf.write, hwrite]
      rfl
    · rw [Leaf.write, hwrite]
      rfl
  | integer n => exact (isUnquoted_digits n).skipBlanks r
  | float bits => exact (isUnquoted_ofBits bits).skipBlanks r
  | boolean b => exact (isUnquoted_boolean b).skipBlanks r

/-! ## Keys -/

/-- A key that needs no quotes. -/
structure IsBare (k : Key) : Prop where
  ne_nil : k ≠ []
  char : ∀ c ∈ k, isBareChar c = true

instance (k : Key) : Decidable (IsBare k) :=
  decidable_of_iff (k ≠ [] ∧ k.all isBareChar = true)
    ⟨fun h => ⟨h.1, List.all_eq_true.mp h.2⟩, fun h => ⟨h.ne_nil, List.all_eq_true.mpr h.char⟩⟩

theorem IsBare.head? {k : Key} (hk : IsBare k) {e : Char} (he : isBareChar e = false) (r : List Char) :
    (k ++ r).head? ≠ some e := by
  obtain ⟨c, t, rfl⟩ := List.exists_cons_of_ne_nil hk.ne_nil
  rintro ⟨⟩
  have hc := hk.char e List.mem_cons_self
  rw [he] at hc
  cases hc

theorem IsBare.skipBlanks {k : Key} (hk : IsBare k) (r : List Char) : skipBlanks (k ++ r) = k ++ r := by
  have hspace := hk.head? (e := ' ') (by decide) r
  have htab := hk.head? (e := '\t') (by decide) r
  generalize k ++ r = s at hspace htab
  cases s with
  | nil => rfl
  | cons c t =>
    rw [Toml.skipBlanks, List.dropWhile_cons_of_neg]
    simpa [isBlank] using ⟨fun h => hspace (by rw [h]; rfl), fun h => htab (by rw [h]; rfl)⟩

theorem readKey_bare {k : Key} (hk : IsBare k) {r : List Char} (hend : r.head?.all (!isBareChar ·) = true)
    (hdot : (skipBlanks r).head? ≠ some '.') (fuel : Nat) :
    readKey fuel (k ++ r) = some (k, [], skipBlanks r) := by
  have hsimple : readSimpleKey fuel (k ++ r) = some (k, r) := by
    rw [readSimpleKey, Scalar.span_append hk.char hend]
    split
    · next heq => exact absurd (congrArg Prod.fst heq) hk.ne_nil
    · next heq =>
      simp only [Prod.mk.injEq] at heq
      rw [heq.1, heq.2]
  show readParts fuel (79 + 1) (k ++ r) = _
  unfold readParts
  rw [hsimple]
  simp only [Option.bind_eq_bind, Option.bind_some]
  split
  · next heq => exact absurd (by rw [heq]; rfl) hdot
  · rfl

/-! ## Tables -/

section

variable {es : Entries} {k : Key}

theorem Entries.get?_eq_none (h : k ∉ es.map Prod.fst) : es.get? k = none := by
  unfold Entries.get?
  rw [List.lookup_eq_none_iff]
  intro e he
  have : k ≠ e.1 := fun heq => h (heq ▸ List.mem_map_of_mem he)
  simpa using this

theorem Entries.get?_append (h : k ∉ es.map Prod.fst) (v : Value) :
    Entries.get? (es ++ [(k, v)]) k = some v := by
  have hnone := Entries.get?_eq_none h
  unfold Entries.get? at hnone ⊢
  rw [List.lookup_append, hnone]
  simp

theorem Entries.set_append (h : k ∉ es.map Prod.fst) (v w : Value) :
    Entries.set (es ++ [(k, v)]) k w = es ++ [(k, w)] := by
  have hkept : (es.map fun e => if e.1 = k then (k, w) else e) = es := by
    refine (List.map_congr_left fun e he => if_neg fun heq => h ?_).trans (List.map_id es)
    exact heq ▸ List.mem_map_of_mem he
  rw [Entries.set, Entries.get?_append h, Option.isSome_some, if_pos rfl, List.map_append, hkept]
  simp

theorem Entries.insertDotted_new (h : k ∉ es.map Prod.fst) (v : Value) :
    es.insertDotted k v [] = some (es ++ [(k, v)]) := by
  rw [Entries.insertDotted, Entries.get?_eq_none h]
  rfl

theorem Entries.openTable_new (h : k ∉ es.map Prod.fst) :
    es.openTable k = some (es ++ [(k, .table .header [])]) := by
  rw [Entries.openTable, Entries.get?_eq_none h]

theorem Entries.descend_last (h : k ∉ es.map Prod.fst) (change : Entries → Option Entries) (sub : Entries) :
    Entries.descend (es ++ [(k, .table .header sub)]) change [k] =
      (change sub).map fun sub' => es ++ [(k, .table .header sub')] := by
  rw [Entries.descend, Entries.get?_append h]
  simp only [Entries.descend, if_neg (by decide : ¬Origin.header = Origin.inline)]
  cases change sub with
  | none => rfl
  | some sub' => simp [Entries.set_append h]

end

/-! ## Lines -/

/-- Reading on from one draft comes to another, with this text left and fuel enough for it. -/
def Reaches (d : Draft) (s : List Char) (d' : Draft) (r : List Char) : Prop :=
  ∀ fuel, s.length < fuel → ∃ fuel', r.length < fuel' ∧ Draft.lines fuel d s = Draft.lines fuel' d' r

theorem Reaches.refl (d : Draft) (s : List Char) : Reaches d s d s := fun fuel h => ⟨fuel, h, rfl⟩

theorem Reaches.trans {d d' d'' : Draft} {s r q : List Char} (h : Reaches d s d' r) (h' : Reaches d' r d'' q) :
    Reaches d s d'' q := fun fuel hfuel => by
  obtain ⟨fuel', hleft, heq⟩ := h fuel hfuel
  obtain ⟨fuel'', hleft', heq'⟩ := h' fuel' hleft
  exact ⟨fuel'', hleft', heq.trans heq'⟩

theorem reaches_line {d d' : Draft} {s r : List Char} (hlong : r.length < s.length)
    (h : ∀ fuel, s.length ≤ fuel → Draft.lines (fuel + 1) d s = Draft.lines fuel d' r) : Reaches d s d' r := by
  intro fuel hfuel
  obtain ⟨fuel, rfl⟩ := Nat.exists_eq_succ_of_ne_zero (Nat.ne_of_gt (Nat.zero_lt_of_lt hfuel))
  exact ⟨fuel, by omega, h fuel (by omega)⟩

theorem reaches_blank (d : Draft) (r : List Char) : Reaches d ('\n' :: r) d r :=
  reaches_line (Nat.lt_succ_self _) fun _ _ => by
    rw [Draft.lines]
    rfl

theorem lines_of_header {fuel : Nat} {d d' : Draft} {s r : List Char}
    (h : d.header fuel s = some (d', '\n' :: r)) :
    Draft.lines (fuel + 1) d ('[' :: s) = Draft.lines fuel d' r := by
  rw [Draft.lines, show skipBlanks ('[' :: s) = '[' :: s from rfl]
  simp only [h, Option.bind_eq_bind, Option.bind_some]
  rfl

theorem lines_of_assign {fuel : Nat} {d d' : Draft} {k : Key} (hk : IsBare k) {s r : List Char}
    (h : d.assign fuel (k ++ s) = some (d', '\n' :: r)) :
    Draft.lines (fuel + 1) d (k ++ s) = Draft.lines fuel d' r := by
  have hhead := fun e he => hk.head? (e := e) he s
  have hblank := hk.skipBlanks s
  have hne := List.append_ne_nil_of_left_ne_nil hk.ne_nil s
  generalize k ++ s = line at *
  rw [Draft.lines, hblank]
  split
  · exact absurd rfl (hhead '[' (by decide))
  · next c t hopen =>
    have hother : ¬(c = '#' || c = '\n' || c = '\r') = true := by
      have hc : ∀ e, isBareChar e = false → c ≠ e := fun e he heq => hhead e he (by rw [heq]; rfl)
      simp [hc '#' (by decide), hc '\n' (by decide), hc '\r' (by decide)]
    rw [if_neg hother, h]
    rfl
  · exact absurd rfl hne

theorem header_bare {d : Draft} {name : Key} (hname : IsBare name) (hnew : name ∉ d.root.map Prod.fst)
    (fuel : Nat) (r : List Char) :
    d.header fuel (name ++ ']' :: r) = some (⟨d.root ++ [(name, .table .header [])], [name]⟩, r) := by
  have hkey := readKey_bare hname (r := ']' :: r) rfl (by simp [skipBlanks, isBlank]) fuel
  have hend : skipBlanks (']' :: r) = ']' :: r := rfl
  have hplain := hname.head? (e := '[') (by decide) (']' :: r)
  rw [Draft.header]
  simp only [if_neg hplain, hname.skipBlanks, hkey, hend, Option.bind_eq_bind, Option.bind_some]
  simp [Entries.descend, Entries.openTable_new hnew]

theorem reaches_header {d : Draft} {name : Key} (hname : IsBare name) (hnew : name ∉ d.root.map Prod.fst)
    (r : List Char) :
    Reaches d ('[' :: name ++ [']', '\n'] ++ r) ⟨d.root ++ [(name, .table .header [])], [name]⟩ r := by
  refine reaches_line (by simp; omega) fun fuel _ => ?_
  rw [show '[' :: name ++ [']', '\n'] ++ r = '[' :: (name ++ ']' :: '\n' :: r) by simp]
  exact lines_of_header (header_bare hname hnew fuel _)

theorem assign_bare {d : Draft} {f : Key × Leaf} (hkey : IsBare f.1) (hleaf : f.2.Readable) {fuel : Nat}
    (hfuel : f.2.write.length ≤ fuel) (r : List Char) :
    d.assign fuel (f.1 ++ ' ' :: '=' :: ' ' :: (f.2.write ++ '\n' :: r)) =
      (d.root.descend (fun es => es.insertDotted f.1 f.2.toValue []) d.current).map fun root =>
        ({ d with root }, '\n' :: r) := by
  have hread := readKey_bare hkey (r := ' ' :: '=' :: ' ' :: (f.2.write ++ '\n' :: r)) rfl
    (by simp [skipBlanks, isBlank]) fuel
  have hsign : skipBlanks (' ' :: '=' :: ' ' :: (f.2.write ++ '\n' :: r)) =
      '=' :: ' ' :: (f.2.write ++ '\n' :: r) := rfl
  have hblank : skipBlanks (' ' :: (f.2.write ++ '\n' :: r)) = f.2.write ++ '\n' :: r :=
    f.2.skipBlanks_write _
  rw [Draft.assign]
  simp only [hread, hsign, hblank, readValue_write hleaf r hfuel, Option.bind_eq_bind, Option.bind_some]
  cases d.root.descend (fun es => es.insertDotted f.1 f.2.toValue []) d.current <;> rfl

theorem reaches_field {done es : Entries} {name : Key} (hname : name ∉ done.map Prod.fst) {f : Key × Leaf}
    (hkey : IsBare f.1) (hleaf : f.2.Readable) (hnew : f.1 ∉ es.map Prod.fst) (r : List Char) :
    Reaches ⟨done ++ [(name, .table .header es)], [name]⟩ (f.1 ++ [' ', '=', ' '] ++ f.2.write ++ ['\n'] ++ r)
      ⟨done ++ [(name, .table .header (es ++ [(f.1, f.2.toValue)]))], [name]⟩ r := by
  refine reaches_line (by simp; omega) fun fuel hfuel => ?_
  have hleft : f.2.write.length ≤ fuel := by
    simp at hfuel
    omega
  have hassign := assign_bare (d := ⟨done ++ [(name, .table .header es)], [name]⟩) hkey hleaf hleft r
  rw [Entries.descend_last hname, Entries.insertDotted_new hnew] at hassign
  rw [show f.1 ++ [' ', '=', ' '] ++ f.2.write ++ ['\n'] ++ r =
    f.1 ++ ' ' :: '=' :: ' ' :: (f.2.write ++ '\n' :: r) by simp]
  exact lines_of_assign hkey hassign

/-! ## Sections -/

def Section.entry (s : Section) : Key × Value :=
  (s.name, .table .header (s.fields.map fun f => (f.1, f.2.toValue)))

/-- A section that can be read back: its names are bare and its keys are distinct. -/
structure Section.Readable (s : Section) : Prop where
  name : IsBare s.name
  keys : ∀ k ∈ s.fields.map Prod.fst, IsBare k
  leaves : ∀ f ∈ s.fields, f.2.Readable
  distinct : (s.fields.map Prod.fst).Nodup

theorem reaches_fields {done : Entries} {name : Key} (hname : name ∉ done.map Prod.fst)
    (fields : List (Key × Leaf)) (es : Entries) (hkeys : ∀ k ∈ fields.map Prod.fst, IsBare k)
    (hleaves : ∀ f ∈ fields, f.2.Readable)
    (hdistinct : (es.map Prod.fst ++ fields.map Prod.fst).Nodup) (r : List Char) :
    Reaches ⟨done ++ [(name, .table .header es)], [name]⟩
      ((fields.flatMap fun f => f.1 ++ [' ', '=', ' '] ++ f.2.write ++ ['\n']) ++ r)
      ⟨done ++ [(name, .table .header (es ++ fields.map fun f => (f.1, f.2.toValue)))], [name]⟩ r := by
  induction fields generalizing es with
  | nil =>
    simp only [List.flatMap_nil, List.nil_append, List.map_nil, List.append_nil]
    exact .refl _ _
  | cons f fields ih =>
    have hnew : f.1 ∉ es.map Prod.fst := fun h =>
      (List.nodup_append.mp hdistinct).2.2 f.1 h f.1 (by simp) rfl
    rw [List.flatMap_cons, List.append_assoc]
    refine (reaches_field hname (hkeys f.1 List.mem_cons_self) (hleaves f List.mem_cons_self) hnew _).trans ?_
    have hrest := ih (es ++ [(f.1, f.2.toValue)]) (fun g hg => hkeys g (List.mem_cons_of_mem _ hg))
      (fun g hg => hleaves g (List.mem_cons_of_mem _ hg)) (by simpa using hdistinct)
    simpa using hrest

theorem reaches_section {d : Draft} {s : Section} (hs : s.Readable) (hnew : s.name ∉ d.root.map Prod.fst)
    (r : List Char) : Reaches d (s.write ++ r) ⟨d.root ++ [s.entry], [s.name]⟩ r := by
  rw [Section.write, List.append_assoc]
  refine (reaches_header hs.name hnew _).trans ?_
  have hfields := reaches_fields hnew s.fields [] hs.keys hs.leaves (by simpa using hs.distinct) r
  simpa [Section.entry] using hfields

theorem writeSections_cons (s t : Section) (sections : List Section) :
    writeSections (s :: t :: sections) = s.write ++ '\n' :: writeSections (t :: sections) := by
  simp [writeSections, List.intercalate]

theorem head?_writeSections (sections : List Section) :
    (writeSections sections).head?.all (· = '[') = true := by
  match sections with
  | [] => rfl
  | [s] => simp [writeSections, Section.write]
  | s :: t :: sections =>
    rw [writeSections_cons]
    simp [Section.write]

theorem reaches_sections (sections : List Section) (d : Draft) (hsections : ∀ s ∈ sections, s.Readable)
    (hdistinct : (d.root.map Prod.fst ++ sections.map Section.name).Nodup) :
    ∃ current, Reaches d (writeSections sections) ⟨d.root ++ sections.map Section.entry, current⟩ [] := by
  induction sections generalizing d with
  | nil =>
    refine ⟨d.current, ?_⟩
    rw [List.map_nil, List.append_nil]
    exact .refl d []
  | cons s sections ih =>
    have hs := hsections s List.mem_cons_self
    have hnew : s.name ∉ d.root.map Prod.fst := fun h =>
      (List.nodup_append.mp hdistinct).2.2 s.name h s.name (by simp) rfl
    obtain ⟨current, hrest⟩ := ih ⟨d.root ++ [s.entry], [s.name]⟩
      (fun t ht => hsections t (List.mem_cons_of_mem _ ht)) (by simpa [Section.entry] using hdistinct)
    cases sections with
    | nil =>
      refine ⟨[s.name], ?_⟩
      simpa [writeSections] using reaches_section hs hnew []
    | cons t sections =>
      refine ⟨current, ?_⟩
      rw [writeSections_cons]
      have hread := ((reaches_section hs hnew _).trans (reaches_blank _ _)).trans hrest
      simpa using hread

/-- A written document reads back, section by section. -/
theorem parse_writeSections (sections : List Section) (hsections : ∀ s ∈ sections, s.Readable)
    (hdistinct : (sections.map Section.name).Nodup) :
    parse (writeSections sections) = some (sections.map Section.entry) := by
  obtain ⟨current, hreaches⟩ := reaches_sections sections ⟨[], []⟩ hsections (by simpa using hdistinct)
  obtain ⟨fuel, hfuel, hlines⟩ := hreaches _ (Nat.lt_succ_self _)
  have hend : Draft.lines fuel ⟨[] ++ sections.map Section.entry, current⟩ [] =
      some ⟨[] ++ sections.map Section.entry, current⟩ := by
    obtain ⟨fuel, rfl⟩ := Nat.exists_eq_succ_of_ne_zero (Nat.ne_of_gt (Nat.zero_lt_of_lt hfuel))
    rfl
  have hmark := head?_writeSections sections
  unfold parse
  generalize writeSections sections = s at *
  cases s with
  | nil =>
    dsimp only
    rw [hlines, hend]
    rfl
  | cons c r =>
    have hc : c ≠ byteOrderMark := by
      rintro rfl
      simp [byteOrderMark] at hmark
    dsimp only
    rw [if_neg hc, hlines, hend]
    rfl

end Handheld.Toml
