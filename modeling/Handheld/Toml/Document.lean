import Handheld.Toml.Quoted
import Handheld.Toml.Scalar

/-!
# TOML documents

A document is a sequence of lines, each a header, an assignment, or nothing, with an optional
comment. Reading keeps the table the last header opened and adds each assignment to it. Wherever a
reader takes fuel, the length of the text is enough.
-/

namespace Handheld.Toml

def maxDepth : Nat := 80

def maxKeyParts : Nat := 80

def isBlank (c : Char) : Bool := c = ' ' || c = '\t'

def skipBlanks (s : List Char) : List Char := s.dropWhile isBlank

/-- The rest behind a comment that starts here, if one does; a comment holds no control characters
but tabs. -/
def skipComment (s : List Char) : Option (List Char) :=
  match s with
  | '#' :: r =>
    let (body, rest) := r.span (fun c => c ≠ '\n' && c ≠ '\r')
    if body.any Quoted.isForbidden then none else some rest
  | s => some s

/-- The rest behind everything that may stand between the tokens of an array or an inline table:
blanks, comments and line breaks. -/
def skipGap : Nat → List Char → Option (List Char)
  | 0, s => some s
  | fuel + 1, s => do
    let r ← skipComment (skipBlanks s)
    match r with
    | '\n' :: r => skipGap fuel r
    | '\r' :: '\n' :: r => skipGap fuel r
    | r => some r

/-! ## Keys -/

def isBareChar (c : Char) : Bool := c.isAlphanum || c = '_' || c = '-'

def readSimpleKey (fuel : Nat) (s : List Char) : Option (Key × List Char) :=
  match s.span isBareChar with
  | ([], _) => Quoted.read fuel false s
  | (k, rest) => some (k, rest)

/-- A key of at most so many parts, with its dots: the first part, the parts after it, and what
follows behind blanks. -/
def readParts (fuel : Nat) : Nat → List Char → Option (Key × List Key × List Char)
  | 0, _ => none
  | parts + 1, s => do
    let (k, r) ← readSimpleKey fuel s
    match skipBlanks r with
    | '.' :: r =>
      let (next, more, r) ← readParts fuel parts (skipBlanks r)
      return (k, next :: more, r)
    | r => return (k, [], r)

def readKey (fuel : Nat) (s : List Char) : Option (Key × List Key × List Char) :=
  readParts fuel maxKeyParts s

/-! ## Values -/

/-- Reads a value off the front of a text. -/
abbrev Reader := List Char → Option (Value × List Char)

/-- The rest of an array; each round reads an element and what separates it from the next. -/
def readItems (element : Reader) : Nat → List Char → Option (List Value × List Char)
  | 0, _ => none
  | fuel + 1, s => do
    match ← skipGap fuel s with
    | ']' :: r => return ([], r)
    | s =>
      let (v, r) ← element s
      match ← skipGap fuel r with
      | ',' :: r =>
        let (vs, r) ← readItems element fuel r
        return (v :: vs, r)
      | ']' :: r => return ([v], r)
      | _ => none

/-- The rest of an inline table, added to what has been read of it. -/
def readFields (element : Reader) : Nat → Entries → List Char → Option (Entries × List Char)
  | 0, _, _ => none
  | fuel + 1, es, s => do
    match ← skipGap fuel s with
    | '\x7d' :: r => return (es, r)
    | s =>
      let (k, more, r) ← readKey fuel s
      let '=' :: r ← skipGap fuel r | none
      let (v, r) ← element (← skipGap fuel r)
      let es ← es.insertDotted k v more
      match ← skipGap fuel r with
      | ',' :: r => readFields element fuel es r
      | '\x7d' :: r => return (es, r)
      | _ => none

/-- A value; `depth` is how much deeper it may nest. -/
def readValue (fuel : Nat) : Nat → Reader
  | 0, s =>
    match s with
    | '[' :: _ => none
    | '\x7b' :: _ => none
    | s => leaf s
  | depth + 1, s =>
    match s with
    | '[' :: r => do
      let (items, r) ← readItems (readValue fuel depth) fuel r
      return (.array false items, r)
    | '\x7b' :: r => do
      let (es, r) ← readFields (readValue fuel depth) fuel [] r
      return (.table .inline es, r)
    | s => leaf s
where
  /-- A value that holds no other. -/
  leaf (s : List Char) : Option (Value × List Char) :=
    match s with
    | c :: _ =>
      if c = Quoted.basicQuote || c = Quoted.literalQuote then
        (Quoted.read fuel true s).map fun (text, r) => (.text text, r)
      else readScalar s
    | [] => none

/-! ## Lines -/

/-- What has been read so far: the whole table and the path of the last header. -/
structure Draft where
  root : Entries
  current : List Key

/-- An assignment, up to the end of its value. -/
def Draft.assign (d : Draft) (fuel : Nat) (s : List Char) : Option (Draft × List Char) := do
  let (k, more, r) ← readKey fuel s
  let '=' :: r := r | none
  let (v, r) ← readValue fuel maxDepth (skipBlanks r)
  let root ← d.root.descend (fun es => es.insertDotted k v more) d.current
  return ({ d with root }, r)

/-- A header, up to its closing brackets; the opening bracket has been read. -/
def Draft.header (d : Draft) (fuel : Nat) (s : List Char) : Option (Draft × List Char) := do
  let growing := s.head? = some '['
  let s := skipBlanks (if growing then s.drop 1 else s)
  let (k, more, r) ← readKey fuel s
  let path := k :: more
  let last ← path.getLast?
  let ']' :: r := r | none
  let r ← if growing then (if r.head? = some ']' then some (r.drop 1) else none) else some r
  let enter := if growing then Entries.openItem last else Entries.openTable last
  let root ← d.root.descend enter path.dropLast
  return (⟨root, path⟩, r)

/-- All lines of a document; each but the last ends in a line break, so a step takes away at least as
much of the text as of the fuel. -/
def Draft.lines : Nat → Draft → List Char → Option Draft
  | 0, _, _ => none
  | fuel + 1, d, s => do
    let s := skipBlanks s
    let (d, r) ←
      match s with
      | '[' :: r => d.header fuel r
      | c :: _ =>
        if c = '#' || c = '\n' || c = '\r' then some (d, s) else d.assign fuel s
      | [] => some (d, s)
    match ← skipComment (skipBlanks r) with
    | [] => return d
    | '\n' :: r => lines fuel d r
    | '\r' :: '\n' :: r => lines fuel d r
    | _ => none

/-- The mark that may open a document. -/
def byteOrderMark : Char := '\ufeff'

/-- The top-level table of a document, if it is well-formed. -/
def parse (s : List Char) : Option Entries :=
  let s := match s with
    | c :: r => if c = byteOrderMark then r else c :: r
    | [] => []
  (Draft.lines (s.length + 1) ⟨[], []⟩ s).map Draft.root

end Handheld.Toml
