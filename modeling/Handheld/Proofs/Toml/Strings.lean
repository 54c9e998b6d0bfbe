import Handheld.Toml.Quoted

/-!
# Strings there and back

A string is written in one of four forms, and each of them reads back as the string, whatever its
characters (`read_write`). In the two forms over lines the closing quotes may stand right behind quotes
of the string itself; these are never more than two (`closing?_own`).
-/

namespace Handheld.Toml.Quoted

/-! ## Escapes -/

theorem hexValue?_digit : ∀ d < 16, hexValue? (Char.ofNat (if d < 10 then 48 + d else 55 + d)) = some d := by
  decide

theorem readCodePoint_eq_some {count : Nat} {s : List Char} {digits : List Nat} {c : Char}
    (hdigits : (s.take count).mapM hexValue? = some digits) (hcount : digits.length = count)
    (hvalue : digits.foldl (fun acc d => acc * 16 + d) 0 = c.toNat) :
    readCodePoint count s = some (c, s.drop count) := by
  have hvalid : (digits.foldl (fun acc d => acc * 16 + d) 0).isValidChar := hvalue.symm ▸ c.valid
  have hc : Char.ofNatAux _ hvalid = c := Char.toNat_inj.mp hvalue
  unfold readCodePoint
  rw [hdigits]
  show (if digits.length ≠ count then _ else if h : _ then _ else _) = _
  rw [if_neg (not_not_intro hcount), dif_pos hvalid]
  exact congrArg (fun d => some (d, s.drop count)) hc

theorem readCodePoint_hex4 {c : Char} (h : c.toNat < 65536) (rest : List Char) :
    readCodePoint 4 (hex4 c.toNat ++ rest) = some (c, rest) := by
  have hdigit : ∀ d, hexValue? (Char.ofNat (if d % 16 < 10 then 48 + d % 16 else 55 + d % 16)) =
      some (d % 16) := fun d => hexValue?_digit _ (Nat.mod_lt d (by decide))
  have hsum : [c.toNat / 4096 % 16, c.toNat / 256 % 16, c.toNat / 16 % 16, c.toNat % 16].foldl
      (fun acc d => acc * 16 + d) 0 = c.toNat := by
    simp only [List.foldl_cons, List.foldl_nil]
    omega
  have hdigits : ((hex4 c.toNat ++ rest).take 4).mapM hexValue? =
      some [c.toNat / 4096 % 16, c.toNat / 256 % 16, c.toNat / 16 % 16, c.toNat % 16] := by
    simp only [hex4, List.cons_append, List.nil_append, List.take_succ_cons, List.take_zero, List.mapM_cons,
      List.mapM_nil, hdigit]
    rfl
  exact readCodePoint_eq_some hdigits rfl hsum

/-- How a string goes on in a basic string: with a quote of its own, with a character as it is, or with
an escape that stands for one. -/
inductive Spelling (lines : Bool) (run : Nat) (c : Char) (s : List Char) : Prop where
  | quote (hc : c = basicQuote) (hlines : lines = true) (hrun : run < 2)
      (hwrite : writeBody lines run (c :: s) = c :: writeBody lines (run + 1) s)
  | plain (hquote : c ≠ basicQuote) (hmark : c ≠ escapeMark)
      (hplain : isForbidden c = false ∨ lines = true ∧ c = '\n')
      (hwrite : writeBody lines run (c :: s) = c :: writeBody lines 0 s)
  | escape (e : Char) (more : List Char) (hsolid : e ≠ ' ' ∧ e ≠ '\t' ∧ e ≠ '\n' ∧ e ≠ '\r')
      (hread : ∀ rest, readEscape (e :: more ++ rest) = some (c, rest))
      (hwrite : writeBody lines run (c :: s) = escapeMark :: e :: more ++ writeBody lines 0 s)

theorem spelling_of_escape {lines : Bool} {run : Nat} {c : Char} (s : List Char) {e : Char}
    {more : List Char} (hwrite : writeChar lines run c = escapeMark :: e :: more)
    (hsolid : e ≠ ' ' ∧ e ≠ '\t' ∧ e ≠ '\n' ∧ e ≠ '\r')
    (hread : ∀ rest, readEscape (e :: more ++ rest) = some (c, rest)) : Spelling lines run c s := by
  refine .escape e more hsolid hread ?_
  rw [writeBody, hwrite]
  simp

theorem spelling_of_plain {lines : Bool} {run : Nat} {c : Char} (s : List Char) (hquote : c ≠ basicQuote)
    (hmark : c ≠ escapeMark) (hwrite : writeChar lines run c = [c])
    (hplain : isForbidden c = false ∨ lines = true ∧ c = '\n') : Spelling lines run c s := by
  refine .plain hquote hmark hplain ?_
  rw [writeBody, hwrite]
  simp [hquote]

theorem spelling (lines : Bool) (run : Nat) (c : Char) (s : List Char) : Spelling lines run c s := by
  by_cases hquote : c = basicQuote
  · subst hquote
    by_cases hfew : run < (if lines then 2 else 0)
    · obtain rfl : lines = true := by
        cases lines
        · cases hfew
        · rfl
      refine .quote rfl rfl hfew ?_
      have hwrite : writeChar true run basicQuote = [basicQuote] := by
        rw [writeChar, if_pos rfl, if_pos hfew]
      rw [writeBody, hwrite]
      rfl
    · exact spelling_of_escape s (by rw [writeChar, if_pos rfl, if_neg hfew]) (by decide) fun _ => rfl
  by_cases hmark : c = escapeMark
  · subst hmark
    exact spelling_of_escape s rfl (by decide) fun _ => rfl
  by_cases hb : c = '\x08'
  · subst hb
    exact spelling_of_escape s rfl (by decide) fun _ => rfl
  by_cases ht : c = '\t'
  · subst ht
    exact spelling_of_escape s rfl (by decide) fun _ => rfl
  by_cases hn : c = '\n'
  · subst hn
    cases lines with
    | false => exact spelling_of_escape s rfl (by decide) fun _ => rfl
    | true => exact spelling_of_plain s hquote hmark rfl (.inr ⟨rfl, rfl⟩)
  by_cases hf : c = '\x0c'
  · subst hf
    exact spelling_of_escape s rfl (by decide) fun _ => rfl
  by_cases hr : c = '\r'
  · subst hr
    exact spelling_of_escape s rfl (by decide) fun _ => rfl
  have hwrite : writeChar lines run c =
      if isForbidden c then escapeMark :: 'u' :: hex4 c.toNat else [c] := by
    simp only [writeChar, if_neg hquote, if_neg hmark, if_neg hb, if_neg ht, if_neg hn, if_neg hf, if_neg hr]
  cases hforbidden : isForbidden c with
  | false =>
    rw [hforbidden] at hwrite
    exact spelling_of_plain s hquote hmark hwrite (.inl hforbidden)
  | true =>
    rw [hforbidden] at hwrite
    have hsmall : c.toNat < 65536 := by
      simp only [isForbidden, Bool.or_eq_true, Bool.and_eq_true, decide_eq_true_eq] at hforbidden
      omega
    exact spelling_of_escape s hwrite (by decide) (readCodePoint_hex4 hsmall)

/-! ## One line -/

theorem readBasic_writeBody (s : List Char) (run : Nat) (rest : List Char) {fuel : Nat}
    (hfuel : (writeBody false run s).length < fuel) :
    readBasic fuel (writeBody false run s ++ basicQuote :: rest) = some (s, rest) := by
  induction s generalizing run fuel with
  | nil =>
    obtain ⟨fuel, rfl⟩ := Nat.exists_eq_add_of_lt hfuel
    rfl
  | cons c s ih =>
    obtain ⟨fuel, rfl⟩ := Nat.exists_eq_add_one_of_ne_zero (Nat.ne_of_gt (Nat.zero_lt_of_lt hfuel))
    cases spelling false run c s with
    | quote _ hlines => cases hlines
    | plain hquote hmark hplain hwrite =>
      have hforbidden : isForbidden c = false := by simpa using hplain
      rw [hwrite] at hfuel ⊢
      have hleft : (writeBody false 0 s).length < fuel := by simpa using hfuel
      have hrest := ih 0 hleft
      simp only [List.cons_append, readBasic, if_neg hquote, if_neg hmark, hforbidden, hrest]
      rfl
    | escape e more hsolid hread hwrite =>
      rw [hwrite] at hfuel ⊢
      have hleft : (writeBody false 0 s).length < fuel := by
        simp at hfuel
        omega
      have hrest := ih 0 hleft
      have hescape := hread (writeBody false 0 s ++ basicQuote :: rest)
      have hmark : escapeMark ≠ basicQuote := by decide
      simp only [List.cons_append, List.append_assoc] at hescape ⊢
      simp only [readBasic, if_neg hmark, if_true, hescape, Option.bind_eq_bind, Option.bind_some, hrest]
      rfl

theorem readLiteral_append {s : List Char} (hquote : literalQuote ∉ s)
    (hplain : ∀ c ∈ s, isForbidden c = false) (rest : List Char) :
    readLiteral (s ++ literalQuote :: rest) = some (s, rest) := by
  induction s with
  | nil => rfl
  | cons c s ih =>
    obtain ⟨hfirst, hquote⟩ : literalQuote ≠ c ∧ literalQuote ∉ s := by simpa using hquote
    have hrest := ih hquote fun d hd => hplain d (List.mem_cons_of_mem c hd)
    simp only [List.cons_append, readLiteral, if_neg (Ne.symm hfirst), hplain c List.mem_cons_self, hrest]
    rfl

/-! ## Over lines -/

/-- A text starts with so many quotes and no more. -/
structure Opens (quote : Char) (n : Nat) (s t : List Char) : Prop where
  split : s = List.replicate n quote ++ t
  stop : t.head? ≠ some quote

theorem Opens.takeWhile {quote : Char} {n : Nat} {s t : List Char} (h : Opens quote n s t) :
    s.takeWhile (· = quote) = List.replicate n quote := by
  have hstop : t.takeWhile (· = quote) = [] := by
    cases t with
    | nil => rfl
    | cons c t => exact List.takeWhile_cons_of_neg (by simpa using h.stop)
  rw [h.split, List.takeWhile_append_of_pos (by simp), hstop, List.append_nil]

theorem closing?_few {quote : Char} {n : Nat} {s t : List Char} (h : Opens quote n s t) (hn : n < 3) :
    closing? quote s = none := by
  rw [closing?, h.takeWhile, List.length_replicate, if_pos hn]

/-- Up to two quotes before the closing ones belong to the string. -/
theorem closing?_own {quote : Char} {n : Nat} {s t : List Char} (h : Opens quote (n + 3) s t)
    (hn : n ≤ 2) : closing? quote s = some (List.replicate n quote, t) := by
  have hdrop : s.drop (n + 3) = t := by
    rw [h.split, List.drop_left' List.length_replicate]
  rw [closing?, h.takeWhile, List.length_replicate, if_neg (by omega), Nat.add_sub_cancel,
    Nat.min_eq_left hn]
  exact congrArg (fun r => some (List.replicate n quote, r)) hdrop

/-- A body over lines starts with at most two quotes, together with those before it; if it has nothing
else, neither has the string. -/
theorem writeBody_opens (s : List Char) {run : Nat} (hrun : run ≤ 2) :
    ∃ n t, Opens basicQuote n (writeBody true run s) t ∧ run + n ≤ 2 ∧
      (t = [] → s = List.replicate n basicQuote) := by
  induction s generalizing run with
  | nil => exact ⟨0, [], ⟨rfl, by simp⟩, hrun, fun _ => rfl⟩
  | cons c s ih =>
    cases spelling true run c s with
    | quote hc hlines hfew hwrite =>
      obtain ⟨n, t, hopens, hn, hall⟩ := ih hfew
      refine ⟨n + 1, t, ⟨?_, hopens.stop⟩, by omega, fun ht => ?_⟩
      · rw [hwrite, hopens.split, hc]
        rfl
      · rw [hall ht, hc]
        rfl
    | plain hquote hmark hplain hwrite =>
      rw [hwrite]
      exact ⟨0, _, ⟨rfl, by simpa using hquote⟩, hrun, nofun⟩
    | escape e more hsolid hread hwrite =>
      rw [hwrite]
      exact ⟨0, _, ⟨rfl, by simp [escapeMark, basicQuote]⟩, hrun, nofun⟩

theorem opens_triple {quote : Char} {n : Nat} {rest : List Char} (h : rest.head? ≠ some quote) :
    Opens quote (n + 3) (List.replicate n quote ++ (triple quote ++ rest)) rest := by
  refine ⟨?_, h⟩
  rw [← List.replicate_append_replicate, List.append_assoc]
  rfl

theorem Opens.append {quote : Char} {n : Nat} {s t : List Char} (h : Opens quote n s t) (ht : t ≠ [])
    (more : List Char) : Opens quote n (s ++ more) (t ++ more) := by
  refine ⟨by rw [h.split, List.append_assoc], ?_⟩
  cases t with
  | nil => exact absurd rfl ht
  | cons c t => exact h.stop

theorem readBasicLines_closing {n : Nat} {s rest : List Char} (h : Opens basicQuote (n + 3) s rest)
    (hn : n ≤ 2) (fuel : Nat) :
    readBasicLines (fuel + 1) s = some (List.replicate n basicQuote, rest) := by
  have hclosing := closing?_own h hn
  have hsplit := h.split
  rw [show n + 3 = (n + 2) + 1 from rfl, List.replicate_succ, List.cons_append] at hsplit
  rw [hsplit] at hclosing ⊢
  simp only [readBasicLines, if_true, hclosing]

theorem isPlain_of_plain {c : Char} (h : isForbidden c = false ∨ c = '\n') (r : List Char) :
    isPlain c r = true := by
  rcases h with h | rfl
  · rw [isPlain, h]
    rfl
  · rfl

theorem lineBreak?_of_solid {e : Char} (h : e ≠ ' ' ∧ e ≠ '\t' ∧ e ≠ '\n' ∧ e ≠ '\r') (r : List Char) :
    lineBreak? ((e :: r).dropWhile fun c => c = ' ' || c = '\t') = none := by
  rw [List.dropWhile_cons_of_neg (by simp [h.1, h.2.1])]
  unfold lineBreak?
  split
  · next heq => exact absurd (List.cons.inj heq).1 h.2.2.1
  · next heq => exact absurd (List.cons.inj heq).1 h.2.2.2
  · rfl

theorem readBasicLines_writeBody (s : List Char) {run : Nat} (hrun : run ≤ 2) {rest : List Char}
    (hrest : rest.head? ≠ some basicQuote) {fuel : Nat} (hfuel : (writeBody true run s).length < fuel) :
    readBasicLines fuel (writeBody true run s ++ (triple basicQuote ++ rest)) = some (s, rest) := by
  induction s generalizing run fuel with
  | nil =>
    obtain ⟨fuel, rfl⟩ := Nat.exists_eq_add_of_lt hfuel
    exact readBasicLines_closing (opens_triple hrest) (Nat.zero_le 2) _
  | cons c s ih =>
    obtain ⟨fuel, rfl⟩ := Nat.exists_eq_add_one_of_ne_zero (Nat.ne_of_gt (Nat.zero_lt_of_lt hfuel))
    obtain ⟨n, t, hopens, hn, hall⟩ := writeBody_opens (c :: s) hrun
    cases spelling true run c s with
    | quote hc hlines hfew hwrite =>
      rw [hwrite, hc] at hfuel hopens ⊢
      have hleft : (writeBody true (run + 1) s).length < fuel := by simpa using hfuel
      have hread := ih hfew hleft
      by_cases ht : t = []
      · -- The rest of the string is quotes, and the closing ones follow right behind them.
        have hown : Opens basicQuote (n + 3)
            (basicQuote :: writeBody true (run + 1) s ++ (triple basicQuote ++ rest)) rest := by
          have hbody := hopens.split
          rw [ht, List.append_nil] at hbody
          rw [hbody]
          exact opens_triple hrest
        rw [readBasicLines_closing hown (by omega), ← hall ht, hc]
      · have hclosing := closing?_few (hopens.append ht (triple basicQuote ++ rest)) (by omega)
        rw [List.cons_append, readBasicLines, if_pos rfl, ← List.cons_append, hclosing]
        simp only [hread]
        rfl
    | plain hquote hmark hplain hwrite =>
      rw [hwrite] at hfuel ⊢
      have hplain : isForbidden c = false ∨ c = '\n' := by simpa using hplain
      have hleft : (writeBody true 0 s).length < fuel := by simpa using hfuel
      have hread := ih (Nat.zero_le 2) hleft
      simp only [List.cons_append, readBasicLines, if_neg hquote, if_neg hmark, isPlain_of_plain hplain, if_true,
        hread]
      rfl
    | escape e more hsolid hread hwrite =>
      rw [hwrite] at hfuel ⊢
      have hleft : (writeBody true 0 s).length < fuel := by
        simp at hfuel
        omega
      have hrest := ih (Nat.zero_le 2) hleft
      have hescape := hread (writeBody true 0 s ++ (triple basicQuote ++ rest))
      have hmark : escapeMark ≠ basicQuote := by decide
      simp only [List.cons_append, List.append_assoc] at hescape ⊢
      simp only [readBasicLines, if_neg hmark, if_true, lineBreak?_of_solid hsolid, hescape,
        Option.bind_eq_bind, Option.bind_some, hrest]
      rfl

theorem opens_self (quote : Char) (s : List Char) :
    Opens quote (s.takeWhile (· = quote)).length s (s.dropWhile (· = quote)) := by
  have hrun : s.takeWhile (· = quote) = List.replicate (s.takeWhile (· = quote)).length quote :=
    List.eq_replicate_iff.mpr ⟨rfl, fun c hc => by simpa using List.all_eq_true.mp List.all_takeWhile c hc⟩
  refine ⟨?_, fun h => ?_⟩
  · rw [← hrun, List.takeWhile_append_dropWhile]
  · have hstop := List.head?_dropWhile_not (· = quote) s
    rw [h] at hstop
    simp at hstop

theorem takeWhile_le_longestRun (quote : Char) {s t : List Char} (h : t <:+ s) :
    (t.takeWhile (· = quote)).length ≤ longestRun quote s := by
  let f : Nat × Nat → Char → Nat × Nat := fun acc c =>
    if c = quote then (acc.1 + 1, max acc.2 (acc.1 + 1)) else (0, acc.2)
  have hfold : ∀ (s : List Char) (acc : Nat × Nat), acc.1 ≤ acc.2 →
      (s.foldl f acc).1 ≤ (s.foldl f acc).2 ∧ acc.2 ≤ (s.foldl f acc).2 ∧
        acc.1 + (s.takeWhile (· = quote)).length ≤ (s.foldl f acc).2 := by
    intro s
    induction s with
    | nil => exact fun acc hacc => ⟨hacc, Nat.le_refl _, hacc⟩
    | cons c s ih =>
      intro acc hacc
      by_cases hc : c = quote
      · obtain ⟨hinv, hkept, hrun⟩ := ih (acc.1 + 1, max acc.2 (acc.1 + 1)) (Nat.le_max_right _ _)
        have hf : f acc c = (acc.1 + 1, max acc.2 (acc.1 + 1)) := if_pos hc
        rw [List.foldl_cons, hf, List.takeWhile_cons_of_pos (by simpa using hc), List.length_cons]
        dsimp only at hkept hrun
        omega
      · obtain ⟨hinv, hkept, hrun⟩ := ih (0, acc.2) (Nat.zero_le _)
        have hf : f acc c = (0, acc.2) := if_neg hc
        rw [List.foldl_cons, hf, List.takeWhile_cons_of_neg (by simpa using hc), List.length_nil]
        dsimp only at hkept
        omega
  obtain ⟨early, rfl⟩ := h
  have hearly := (hfold early (0, 0) (Nat.le_refl 0)).1
  have hlate := (hfold t (early.foldl f (0, 0)) hearly).2.2
  show _ ≤ ((early ++ t).foldl f (0, 0)).2
  rw [List.foldl_append]
  omega

theorem readLiteralLines_closing {n : Nat} {s rest : List Char} (h : Opens literalQuote (n + 3) s rest)
    (hn : n ≤ 2) (fuel : Nat) :
    readLiteralLines (fuel + 1) s = some (List.replicate n literalQuote, rest) := by
  have hclosing := closing?_own h hn
  have hsplit := h.split
  rw [show n + 3 = (n + 2) + 1 from rfl, List.replicate_succ, List.cons_append] at hsplit
  rw [hsplit] at hclosing ⊢
  simp only [readLiteralLines, if_true, hclosing]

theorem readLiteralLines_append {s : List Char}
    (hruns : ∀ t, t <:+ s → (t.takeWhile (· = literalQuote)).length ≤ 2)
    (hplain : ∀ c ∈ s, isForbidden c = false ∨ c = '\n') {rest : List Char}
    (hrest : rest.head? ≠ some literalQuote) {fuel : Nat} (hfuel : s.length < fuel) :
    readLiteralLines fuel (s ++ (triple literalQuote ++ rest)) = some (s, rest) := by
  induction s generalizing fuel with
  | nil =>
    obtain ⟨fuel, rfl⟩ := Nat.exists_eq_add_of_lt hfuel
    exact readLiteralLines_closing (opens_triple hrest) (Nat.zero_le 2) _
  | cons c s ih =>
    obtain ⟨fuel, rfl⟩ := Nat.exists_eq_add_one_of_ne_zero (Nat.ne_of_gt (Nat.zero_lt_of_lt hfuel))
    have hleft : s.length < fuel := by simpa using hfuel
    have hread := ih (fun t ht => hruns t (ht.trans (List.suffix_cons c s)))
      (fun d hd => hplain d (List.mem_cons_of_mem c hd)) hleft
    by_cases hquote : c = literalQuote
    · have hopens := opens_self literalQuote (c :: s)
      have hfew := hruns (c :: s) (List.suffix_refl _)
      by_cases ht : (c :: s).dropWhile (· = literalQuote) = []
      · -- The rest of the string is quotes, and the closing ones follow right behind them.
        have hall := hopens.split
        rw [ht, List.append_nil] at hall
        rw [hall, readLiteralLines_closing (opens_triple hrest) hfew]
      · have hclosing := closing?_few (hopens.append ht (triple literalQuote ++ rest)) (by omega)
        rw [hquote] at hclosing ⊢
        rw [List.cons_append, readLiteralLines, if_pos rfl, ← List.cons_append, hclosing]
        simp only [hread]
        rfl
    · simp only [List.cons_append, readLiteralLines, if_neg hquote,
        isPlain_of_plain (hplain c List.mem_cons_self), if_true, hread]
      rfl

/-! ## All forms -/

theorem read_basicQuote {t : List Char} (hlong : 2 ≤ t.length)
    (hsingle : t.take 2 ≠ [basicQuote, basicQuote]) (fuel : Nat) :
    read fuel true (basicQuote :: t) = readBasic fuel t := by
  match t with
  | b :: c :: r =>
    have hother : ¬(b = basicQuote ∧ c = basicQuote) := by simpa using hsingle
    have hopen : ¬(basicQuote = literalQuote) := by decide
    simp only [read]
    rw [if_neg (by simpa using hother), if_neg (by simp [hopen]), if_pos trivial]

theorem read_literalQuote {t : List Char} (hlong : 2 ≤ t.length)
    (hsingle : t.take 2 ≠ [literalQuote, literalQuote]) (fuel : Nat) :
    read fuel true (literalQuote :: t) = readLiteral t := by
  match t with
  | b :: c :: r =>
    have hother : ¬(b = literalQuote ∧ c = literalQuote) := by simpa using hsingle
    have hopen : ¬(literalQuote = basicQuote) := by decide
    simp only [read]
    rw [if_neg (by simp [hopen]), if_neg (by simpa using hother), if_neg hopen, if_pos trivial]

theorem read_tripleBasic (fuel : Nat) (r : List Char) :
    read fuel true (triple basicQuote ++ r) = readBasicLines fuel (dropLineBreak r) := rfl

theorem read_tripleLiteral (fuel : Nat) (r : List Char) :
    read fuel true (triple literalQuote ++ r) = readLiteralLines fuel (dropLineBreak r) := rfl

theorem read_oneBasic (s rest : List Char) {fuel : Nat} (hfuel : (writeBody false 0 s).length < fuel) :
    read fuel true (basicQuote :: writeBody false 0 s ++ [basicQuote] ++ '\n' :: rest) =
      some (s, '\n' :: rest) := by
  have hfirst : (writeBody false 0 s).head? ≠ some basicQuote := by
    cases s with
    | nil => simp [writeBody]
    | cons c s =>
      cases spelling false 0 c s with
      | quote _ hlines => cases hlines
      | plain hquote hmark hplain hwrite =>
        rw [hwrite]
        simpa using hquote
      | escape e more hsolid hread hwrite =>
        rw [hwrite]
        simp [escapeMark, basicQuote]
  have hsingle : (writeBody false 0 s ++ basicQuote :: '\n' :: rest).take 2 ≠ [basicQuote, basicQuote] := by
    rcases hbody : writeBody false 0 s with - | ⟨b, body⟩
    · simp [basicQuote]
    · rw [hbody] at hfirst
      have hb : b ≠ basicQuote := by simpa using hfirst
      intro h
      exact hb (List.cons.inj h).1
  have hread := read_basicQuote (by simp; omega) hsingle fuel
  rw [readBasic_writeBody s 0 _ hfuel] at hread
  simpa using hread

theorem read_oneLiteral {s : List Char} (hquote : literalQuote ∉ s)
    (hplain : ∀ c ∈ s, isForbidden c = false) (rest : List Char) (fuel : Nat) :
    read fuel true (literalQuote :: s ++ [literalQuote] ++ '\n' :: rest) = some (s, '\n' :: rest) := by
  have hsingle : (s ++ literalQuote :: '\n' :: rest).take 2 ≠ [literalQuote, literalQuote] := by
    cases s with
    | nil => simp [literalQuote]
    | cons b s =>
      have hb : literalQuote ≠ b := fun h => hquote (h ▸ List.mem_cons_self)
      intro h
      exact hb (List.cons.inj h).1.symm
  have hread := read_literalQuote (by simp; omega) hsingle fuel
  rw [readLiteral_append hquote hplain] at hread
  simpa using hread

/-- What stands between the opening quotes and a string over lines. -/
def opening (s : List Char) : List Char := if s.contains '\n' then ['\n'] else []

/-- A line break is put in front of a string that has one. No other starts with one. -/
theorem dropLineBreak_opening {s text : List Char}
    (htext : '\n' ∉ s → text.head? ≠ some '\n' ∧ text.head? ≠ some '\r') :
    dropLineBreak (opening s ++ text) = text := by
  unfold opening
  split
  · rfl
  · next hbroken =>
    obtain ⟨hline, hreturn⟩ := htext (by simpa using hbroken)
    rw [List.nil_append]
    unfold dropLineBreak
    split
    · exact absurd rfl hline
    · exact absurd rfl hreturn
    · rfl

theorem read_linesBasic (s rest : List Char) {fuel : Nat} (hfuel : (writeBody true 0 s).length < fuel) :
    read fuel true (triple basicQuote ++ opening s ++ writeBody true 0 s ++ triple basicQuote ++ '\n' :: rest) =
      some (s, '\n' :: rest) := by
  have hfirst : '\n' ∉ s → ∀ more,
      (writeBody true 0 s ++ (triple basicQuote ++ more)).head? ≠ some '\n' ∧
        (writeBody true 0 s ++ (triple basicQuote ++ more)).head? ≠ some '\r' := by
    intro hbroken more
    cases s with
    | nil => simp [writeBody, triple, basicQuote]
    | cons c s =>
      have hc : '\n' ≠ c := fun h => hbroken (h ▸ List.mem_cons_self)
      cases spelling true 0 c s with
      | quote hc _ _ hwrite =>
        rw [hwrite, hc]
        simp [basicQuote]
      | plain hquote hmark hplain hwrite =>
        rw [hwrite]
        have hforbidden : isForbidden c = false := by simpa [Ne.symm hc] using hplain
        refine ⟨by simpa using Ne.symm hc, fun h => ?_⟩
        obtain rfl : c = '\r' := by simpa using h
        cases hforbidden
      | escape e more hsolid hread hwrite =>
        rw [hwrite]
        simp [escapeMark]
  have hend : ('\n' :: rest).head? ≠ some basicQuote := by simp [basicQuote]
  have hread := readBasicLines_writeBody s (Nat.zero_le 2) hend hfuel
  simp only [List.append_assoc]
  rw [read_tripleBasic, dropLineBreak_opening fun h => hfirst h _, hread]

theorem read_linesLiteral {s : List Char} (hruns : longestRun literalQuote s ≤ 2)
    (hplain : ∀ c ∈ s, isForbidden c = false ∨ c = '\n') (rest : List Char) {fuel : Nat}
    (hfuel : s.length < fuel) :
    read fuel true (triple literalQuote ++ opening s ++ s ++ triple literalQuote ++ '\n' :: rest) =
      some (s, '\n' :: rest) := by
  have hfirst : '\n' ∉ s → ∀ more,
      (s ++ (triple literalQuote ++ more)).head? ≠ some '\n' ∧
        (s ++ (triple literalQuote ++ more)).head? ≠ some '\r' := by
    intro hbroken more
    cases s with
    | nil => simp [triple, literalQuote]
    | cons c s =>
      have hc : c ≠ '\n' := fun h => hbroken (h ▸ List.mem_cons_self)
      refine ⟨by simpa using hc, fun h => ?_⟩
      obtain rfl : c = '\r' := by simpa using h
      rcases hplain '\r' List.mem_cons_self with h | h
      · cases h
      · exact hc h
  have hend : ('\n' :: rest).head? ≠ some literalQuote := by simp [literalQuote]
  have hread := readLiteralLines_append (fun t ht => Nat.le_trans (takeWhile_le_longestRun _ ht) hruns) hplain hend hfuel
  simp only [List.append_assoc]
  rw [read_tripleLiteral, dropLineBreak_opening fun h => hfirst h _, hread]

theorem notMem_of_longestRun {quote : Char} {s : List Char} (h : longestRun quote s = 0) : quote ∉ s := by
  intro hmem
  obtain ⟨early, late, rfl⟩ := List.append_of_mem hmem
  have hrun := takeWhile_le_longestRun quote (List.suffix_append early (quote :: late))
  rw [h, List.takeWhile_cons_of_pos (by simp)] at hrun
  cases hrun

/-- The forms of a string, and what a literal one is kept to. -/
inductive Form (s : List Char) : Prop where
  | oneBasic (h : write s = basicQuote :: writeBody false 0 s ++ [basicQuote])
  | oneLiteral (h : write s = literalQuote :: s ++ [literalQuote]) (hquote : literalQuote ∉ s)
      (hplain : ∀ c ∈ s, isForbidden c = false)
  | linesBasic (h : write s = triple basicQuote ++ opening s ++ writeBody true 0 s ++ triple basicQuote)
  | linesLiteral (h : write s = triple literalQuote ++ opening s ++ s ++ triple literalQuote)
      (hruns : longestRun literalQuote s ≤ 2) (hplain : ∀ c ∈ s, isForbidden c = false ∨ c = '\n')

theorem form (s : List Char) : Form s := by
  have hcontrol : s.any needsEscape = false → ∀ c ∈ s, isForbidden c = false ∨ c = '\n' := by
    intro h c hc
    have hnone := List.any_eq_false.mp h c hc
    by_cases hline : c = '\n'
    · exact .inr hline
    · exact .inl (by simpa [needsEscape, hline] using hnone)
  generalize hwrite : write s = text
  have hwritten := hwrite
  unfold write at hwritten
  dsimp only at hwritten
  rw [← opening.eq_def] at hwritten
  simp only [Bool.and_eq_true, Bool.not_eq_true', decide_eq_true_eq] at hwritten
  split at hwritten
  · exact .oneBasic (hwrite.trans hwritten.symm)
  split at hwritten
  · next h =>
    have hplain : ∀ c ∈ s, isForbidden c = false := fun c hc =>
      (hcontrol h.1.1 c hc).resolve_right fun hline => by
        have hbroken : '\n' ∉ s := by simpa using h.2
        exact hbroken (hline ▸ hc)
    exact .oneLiteral (hwrite.trans hwritten.symm) (notMem_of_longestRun h.1.2) hplain
  split at hwritten
  · exact .linesBasic (hwrite.trans hwritten.symm)
  split at hwritten
  · next h => exact .linesLiteral (hwrite.trans hwritten.symm) h.2 (hcontrol h.1)
  split at hwritten
  · exact .linesBasic (hwrite.trans hwritten.symm)
  · exact .oneBasic (hwrite.trans hwritten.symm)

theorem read_write (s rest : List Char) {fuel : Nat} (hfuel : (write s).length ≤ fuel) :
    read fuel true (write s ++ '\n' :: rest) = some (s, '\n' :: rest) := by
  cases form s with
  | oneBasic h =>
    rw [h] at hfuel ⊢
    exact read_oneBasic s rest (by simp at hfuel; omega)
  | oneLiteral h hquote hplain =>
    rw [h]
    exact read_oneLiteral hquote hplain rest fuel
  | linesBasic h =>
    rw [h] at hfuel ⊢
    exact read_linesBasic s rest (by simp [triple] at hfuel; omega)
  | linesLiteral h hruns hplain =>
    rw [h] at hfuel ⊢
    exact read_linesLiteral hruns hplain rest (by simp [triple] at hfuel; omega)

end Handheld.Toml.Quoted
