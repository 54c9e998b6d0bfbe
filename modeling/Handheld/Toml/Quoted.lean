/-!
# TOML strings

Reading and writing of the four quoted forms. A basic string has escapes, a literal one has none;
either may span lines between triple quotes. The writer picks the form that needs no escapes.
-/

namespace Handheld.Toml.Quoted

/-- The quotes of basic and of literal strings. -/
def basicQuote : Char := '\x22'

@[inherit_doc basicQuote] def literalQuote : Char := '\x27'

/-- What opens an escape in a basic string. -/
def escapeMark : Char := '\x5c'

/-- A character that no string holds unescaped: a control character other than tab. -/
def isForbidden (c : Char) : Bool := (c.toNat < 0x20 && c ≠ '\t') || c.toNat = 0x7F

def hexValue? (c : Char) : Option Nat :=
  let n := c.toNat
  if 48 ≤ n && n ≤ 57 then some (n - 48)
  else if 65 ≤ n && n ≤ 70 then some (n - 55)
  else if 97 ≤ n && n ≤ 102 then some (n - 87)
  else none

/-- The character whose code point the first `count` hexadecimal digits give. -/
def readCodePoint (count : Nat) (s : List Char) : Option (Char × List Char) := do
  let digits ← (s.take count).mapM hexValue?
  if digits.length ≠ count then none
  else
    let n := digits.foldl (fun acc d => acc * 16 + d) 0
    if h : n.isValidChar then some (Char.ofNatAux n h, s.drop count) else none

/-- The character an escape stands for; the mark itself has been read. -/
def readEscape : List Char → Option (Char × List Char)
  | 'b' :: r => some ('\x08', r)
  | 't' :: r => some ('\t', r)
  | 'n' :: r => some ('\n', r)
  | 'f' :: r => some ('\x0c', r)
  | 'r' :: r => some ('\r', r)
  | 'e' :: r => some ('\x1b', r)
  | 'x' :: r => readCodePoint 2 r
  | 'u' :: r => readCodePoint 4 r
  | 'U' :: r => readCodePoint 8 r
  | c :: r => if c = basicQuote || c = escapeMark then some (c, r) else none
  | [] => none

def readBasic : Nat → List Char → Option (List Char × List Char)
  | 0, _ => none
  | _ + 1, [] => none
  | fuel + 1, c :: r =>
    if c = basicQuote then some ([], r)
    else if c = escapeMark then do
      let (d, r) ← readEscape r
      let (text, r) ← readBasic fuel r
      return (d :: text, r)
    else if isForbidden c then none
    else do
      let (text, r) ← readBasic fuel r
      return (c :: text, r)

def readLiteral : List Char → Option (List Char × List Char)
  | [] => none
  | c :: r =>
    if c = literalQuote then some ([], r)
    else if isForbidden c then none
    else do
      let (text, r) ← readLiteral r
      return (c :: text, r)

def dropLineBreak : List Char → List Char
  | '\n' :: r => r
  | '\r' :: '\n' :: r => r
  | r => r

/-- A line break at the start of a text, and what follows it. -/
def lineBreak? : List Char → Option (List Char)
  | '\n' :: r => some r
  | '\r' :: '\n' :: r => some r
  | _ => none

def dropBlankLines : List Char → List Char
  | '\r' :: '\n' :: r => dropBlankLines r
  | c :: r => if c = ' ' || c = '\t' || c = '\n' then dropBlankLines r else c :: r
  | [] => []

/-- The rest behind a run of quotes that closes a string of triple quotes, with the up to two quotes
that still belong to it; nothing where the run is shorter than three. -/
def closing? (quote : Char) (s : List Char) : Option (List Char × List Char) :=
  let run := s.takeWhile (· = quote)
  if run.length < 3 then none
  else
    let own := min (run.length - 3) 2
    some (List.replicate own quote, s.drop (own + 3))

/-- A character that may stand as it is in a string over lines, where `r` follows it. Line breaks stay
as they are written. -/
def isPlain (c : Char) (r : List Char) : Bool :=
  !isForbidden c || c = '\n' || (c = '\r' && r.head? = some '\n')

/-- The rest of a basic string between triple quotes. A mark at the end of a line swallows the line
break and the blanks after it. -/
def readBasicLines : Nat → List Char → Option (List Char × List Char)
  | 0, _ => none
  | _ + 1, [] => none
  | fuel + 1, c :: r =>
    if c = basicQuote then
      match closing? basicQuote (c :: r) with
      | some done => some done
      | none => do
        let (text, r) ← readBasicLines fuel r
        return (c :: text, r)
    else if c = escapeMark then
      match lineBreak? (r.dropWhile (fun c => c = ' ' || c = '\t')) with
      | some r => readBasicLines fuel (dropBlankLines r)
      | none => do
        let (d, r) ← readEscape r
        let (text, r) ← readBasicLines fuel r
        return (d :: text, r)
    else if isPlain c r then do
      let (text, r) ← readBasicLines fuel r
      return (c :: text, r)
    else none

/-- The rest of a literal string between triple quotes. -/
def readLiteralLines : Nat → List Char → Option (List Char × List Char)
  | 0, _ => none
  | _ + 1, [] => none
  | fuel + 1, c :: r =>
    if c = literalQuote then
      match closing? literalQuote (c :: r) with
      | some done => some done
      | none => do
        let (text, r) ← readLiteralLines fuel r
        return (c :: text, r)
    else if isPlain c r then do
      let (text, r) ← readLiteralLines fuel r
      return (c :: text, r)
    else none

/-- A quoted string of any form; `lines` admits the triple-quoted ones. The fuel is at least the
length of the text. -/
def read (fuel : Nat) (lines : Bool) : List Char → Option (List Char × List Char)
  | a :: b :: c :: r =>
    if lines && a = basicQuote && b = basicQuote && c = basicQuote then
      readBasicLines fuel (dropLineBreak r)
    else if lines && a = literalQuote && b = literalQuote && c = literalQuote then
      readLiteralLines fuel (dropLineBreak r)
    else if a = basicQuote then readBasic fuel (b :: c :: r)
    else if a = literalQuote then readLiteral (b :: c :: r)
    else none
  | a :: r =>
    if a = basicQuote then readBasic fuel r
    else if a = literalQuote then readLiteral r
    else none
  | [] => none

/-! ## Writing -/

def longestRun (quote : Char) (s : List Char) : Nat :=
  (s.foldl (fun (acc : Nat × Nat) c =>
    if c = quote then (acc.1 + 1, max acc.2 (acc.1 + 1)) else (0, acc.2)) (0, 0)).2

/-- A control character that has to be escaped in every form. -/
def needsEscape (c : Char) : Bool := isForbidden c && c ≠ '\n'

def hex4 (n : Nat) : List Char :=
  let digit (d : Nat) : Char := Char.ofNat (if d < 10 then 48 + d else 55 + d)
  [digit (n / 4096 % 16), digit (n / 256 % 16), digit (n / 16 % 16), digit (n % 16)]

/-- A character inside a basic string, escaped where the form demands it; `run` counts the quotes
right before it. -/
def writeChar (lines : Bool) (run : Nat) (c : Char) : List Char :=
  if c = basicQuote then
    if run < (if lines then 2 else 0) then [c] else [escapeMark, c]
  else if c = escapeMark then [escapeMark, escapeMark]
  else if c = '\x08' then [escapeMark, 'b']
  else if c = '\t' then [escapeMark, 't']
  else if c = '\n' then (if lines then [c] else [escapeMark, 'n'])
  else if c = '\x0c' then [escapeMark, 'f']
  else if c = '\r' then [escapeMark, 'r']
  else if isForbidden c then escapeMark :: 'u' :: hex4 c.toNat
  else [c]

/-- The body of a basic string. An escaped quote starts a new run. -/
def writeBody (lines : Bool) : Nat → List Char → List Char
  | _, [] => []
  | run, c :: r =>
    let escaped := writeChar lines run c
    let run' := if c = basicQuote && escaped.length = 1 then run + 1 else 0
    escaped ++ writeBody lines run' r

def triple (quote : Char) : List Char := [quote, quote, quote]

/-- A string in the first form that shows it without escapes: basic, literal, basic over lines,
literal over lines; failing all of them, basic with escapes. -/
def write (s : List Char) : List Char :=
  let control := s.any needsEscape
  let mark := s.contains escapeMark
  let broken := s.contains '\n'
  let basicRun := longestRun basicQuote s
  let literalRun := longestRun literalQuote s
  let opening := if broken then ['\n'] else []
  let basicLines := triple basicQuote ++ opening ++ writeBody true 0 s ++ triple basicQuote
  if !control && !mark && basicRun = 0 && !broken then
    basicQuote :: writeBody false 0 s ++ [basicQuote]
  else if !control && literalRun = 0 && !broken then literalQuote :: s ++ [literalQuote]
  else if !control && !mark && basicRun ≤ 2 then basicLines
  else if !control && literalRun ≤ 2 then
    triple literalQuote ++ opening ++ s ++ triple literalQuote
  else if broken then basicLines
  else basicQuote :: writeBody false 0 s ++ [basicQuote]

end Handheld.Toml.Quoted
