/-!
# Unix paths

A path is text; its components are what stands between the slashes, with empty components and
interior dots left out. `parent`, `fileName`, `extension` and the functions that replace them are
read off the components, but keep the spelling of everything they do not replace.
-/

namespace Handheld

/-- One component of a path, or the name of a directory entry. -/
abbrev Name := List Char

/-- A path as it was spelled. -/
structure Path where
  text : List Char
deriving DecidableEq

namespace Path

instance : Inhabited Path := ⟨⟨[]⟩⟩

def ofString (s : String) : Path := ⟨s.toList⟩

def toString (p : Path) : String := String.ofList p.text

instance : ToString Path := ⟨toString⟩

def separator : Char := '/'

/-- A path that starts at the root of the file tree. -/
def isAbsolute (p : Path) : Bool := p.text.head? == some separator

/-- The text between separators; `n` separators give `n + 1` segments. -/
def segments : List Char → List Name
  | [] => [[]]
  | c :: rest =>
    if c = separator then [] :: segments rest
    else match segments rest with
      | [] => [[c]]
      | s :: more => (c :: s) :: more

/-- A meaningful element of a path. -/
inductive Component where
  | root
  | current
  | up
  | named (name : Name)
deriving DecidableEq

/-- The component a segment stands for; empty segments and dots stand for none. -/
def Component.ofSegment? (s : Name) : Option Component :=
  if s = [] || s = ['.'] then none
  else if s = ['.', '.'] then some .up
  else some (.named s)

/-- The components in order. A dot counts only where it opens a relative path. -/
def components (p : Path) : List Component :=
  let body := (segments p.text).filterMap Component.ofSegment?
  if p.isAbsolute then .root :: body
  else if (segments p.text).head? = some ['.'] then .current :: body
  else body

/-- Characters of the text that stand before its first ordinary component: the leading slash of an
absolute path, or the leading dot of a relative one. -/
def anchorLength (p : Path) : Nat :=
  if p.isAbsolute || (segments p.text).head? = some ['.'] then 1 else 0

/-- The text behind the anchor, backwards, without the separators and dots that mean nothing at its
end. -/
def trimTail : List Char → List Char
  | '/' :: rest => trimTail rest
  | '.' :: '/' :: rest => trimTail rest
  | ['.'] => []
  | text => text

/-- The last segment of a reversed text and what stands before it. -/
def cutLast (reversed : List Char) : List Char × List Char :=
  reversed.span (· ≠ separator)

/-- The path without its last component, or nothing for a root and for the empty path. -/
def parent (p : Path) : Option Path :=
  let anchor := p.text.take p.anchorLength
  let body := trimTail (p.text.drop p.anchorLength).reverse
  if body = [] then
    if p.isAbsolute || p.text = [] then none else some ⟨[]⟩
  else
    some ⟨anchor ++ (trimTail (cutLast body).2).reverse⟩

/-- The last component, where it is a name. -/
def fileName (p : Path) : Option Name :=
  match p.components.getLast? with
  | some (.named n) => some n
  | _ => none

/-- A name cut at its last dot; a name whose only dot comes first has no extension. -/
def splitExtension (n : Name) : Name × Option Name :=
  match n.reverse.span (· ≠ '.') with
  | (_, []) => (n, none)
  | (_, [_]) => (n, none)
  | (after, _ :: before) => (before.reverse, some after.reverse)

def fileStem (p : Path) : Option Name := p.fileName.map fun n => (splitExtension n).1

/-- What follows the last dot of the file name. -/
def extension (p : Path) : Option Name := p.fileName.bind fun n => (splitExtension n).2

/-- Characters of the text up to the end of the file name. -/
def nameEnd (p : Path) : Nat :=
  p.anchorLength + (trimTail (p.text.drop p.anchorLength).reverse).length

/-- Cut the text behind the file stem and append an extension; a path without a file name stays as
it is. -/
def setExtension (p : Path) (ext : Name) : Path :=
  match p.fileName with
  | none => p
  | some n =>
    let stem := (splitExtension n).1
    ⟨p.text.take (p.nameEnd - n.length + stem.length) ++ '.' :: ext⟩

/-- Replace the extension: drop as many characters from the end of the text as the old extension
has, then set the new one on what is left. -/
def withExtension (p : Path) (ext : Name) : Path :=
  match p.extension with
  | none => p.setExtension ext
  | some old => setExtension ⟨p.text.take (p.text.length - old.length)⟩ ext

/-- Append a path; an absolute one replaces the whole. -/
def join (p q : Path) : Path :=
  if q.isAbsolute || p.text = [] then q
  else if p.text.getLast? = some separator then ⟨p.text ++ q.text⟩
  else ⟨p.text ++ separator :: q.text⟩

/-- Replace the file name, or append one where there is none. -/
def withFileName (p : Path) (n : Name) : Path :=
  match p.fileName with
  | none => p.join ⟨n⟩
  | some _ => (p.parent.getD p).join ⟨n⟩

end Path

end Handheld
