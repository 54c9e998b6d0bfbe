import Handheld.Files.Tree
import Handheld.Text.Utf8

/-!
# Reading and changing a file tree

A path is resolved one name at a time: every name but the last has to lead to a directory. The
operations are those of a Unix process; each either fails with one cause and leaves the tree as it
was, or answers the changed tree. What a disk may refuse beside that, it refuses to those operations
that are told of it.
-/

namespace Handheld

/-- Why a disk refuses what the tree allows. -/
inductive DiskError where
  | denied
  | full
  | defect
deriving DecidableEq

inductive FileError where
  | notFound
  | notADirectory
  | isADirectory
  | alreadyExists
  | nameTooLong
  | busy
  | nulInPath
  | notUnicode
  | noFileName
  | disk (e : DiskError)
deriving DecidableEq

def FileError.message : FileError → String
  | .notFound => "No such file or directory (os error 2)"
  | .notADirectory => "Not a directory (os error 20)"
  | .isADirectory => "Is a directory (os error 21)"
  | .alreadyExists => "File exists (os error 17)"
  | .nameTooLong => "File name too long (os error 36)"
  | .busy => "Device or resource busy (os error 16)"
  | .nulInPath => "file name contained an unexpected NUL byte"
  | .notUnicode => "stream did not contain valid UTF-8"
  | .noFileName => "save path has no file name"
  | .disk .denied => "Permission denied (os error 13)"
  | .disk .full => "No space left on device (os error 28)"
  | .disk .defect => "Input/output error (os error 5)"

def FileError.kind : FileError → String
  | .notFound => "NotFound"
  | .notADirectory => "NotADirectory"
  | .isADirectory => "IsADirectory"
  | .alreadyExists => "AlreadyExists"
  | .nameTooLong => "InvalidFilename"
  | .busy => "ResourceBusy"
  | .nulInPath => "InvalidInput"
  | .notUnicode => "InvalidData"
  | .noFileName => "InvalidInput"
  | .disk .denied => "PermissionDenied"
  | .disk .full => "StorageFull"
  | .disk .defect => "Uncategorized"

namespace FileTree

/-- The longest name an entry may have, in bytes. -/
def maxNameLength : Nat := 255

/-- A path of this many bytes or more is refused unseen. -/
def pathLengthLimit : Nat := 4096

def diskLength (text : List Char) : Nat := text.foldr (fun c n => c.utf8Size + n) 0

/-- Go one segment further from the directory at `l`. -/
def enter (t : FileTree) (l : Location) (segment : Name) : Except FileError Location :=
  if !t.isDirectory l then .error .notADirectory
  else if segment = ['.'] then .ok l
  else if segment = ['.', '.'] then .ok l.dropLast
  else if maxNameLength < diskLength segment then .error .nameTooLong
  else if (t.node? (l ++ [segment])).isNone then .error .notFound
  else .ok (l ++ [segment])

def walk (t : FileTree) (l : Location) : List Name → Except FileError Location
  | [] => .ok l
  | s :: rest => do walk t (← t.enter l s) rest

/-- Where a path leads before its last segment is looked at. -/
structure Target where
  /-- The directory that holds, or would hold, the entry. -/
  parent : Location
  /-- The last segment; none for a path of slashes. -/
  last : Option Name
  /-- The path ends in a slash. -/
  slash : Bool
deriving DecidableEq

/-- The target is `.`, `..` or the root, which name a directory and no entry of one. -/
def Target.isSpecial (g : Target) : Bool :=
  g.last = none || g.last = some ['.'] || g.last = some ['.', '.']

def Target.location (g : Target) : Location :=
  match g.last with
  | none => g.parent
  | some n => if n = ['.'] then g.parent else if n = ['.', '.'] then g.parent.dropLast else g.parent ++ [n]

/-- Resolve all of a path but its last segment. -/
def target (t : FileTree) (p : Path) : Except FileError Target :=
  if p.text.contains '\x00' then .error .nulInPath
  else if p.text = [] then .error .notFound
  else if pathLengthLimit ≤ diskLength p.text then .error .nameTooLong
  else do
    let start := if p.isAbsolute then [] else t.home
    let names := (Path.segments p.text).filter (· ≠ [])
    let parent ← t.walk start names.dropLast
    if !t.isDirectory parent then .error .notADirectory
    else .ok ⟨parent, names.getLast?, p.text.getLast? = some Path.separator⟩

/-- A name short enough to be looked up. -/
def Target.checkLength (g : Target) : Except FileError Unit :=
  match g.last with
  | some n => if maxNameLength < diskLength n then .error .nameTooLong else .ok ()
  | none => .ok ()

/-- The entry at a path, with its location. -/
def find (t : FileTree) (p : Path) : Except FileError (Location × Node) := do
  let g ← t.target p
  g.checkLength
  match t.node? g.location with
  | none => .error .notFound
  | some (.file data) => if g.slash then .error .notADirectory else .ok (g.location, .file data)
  | some .directory => .ok (g.location, .directory)

def pathIsDirectory (t : FileTree) (p : Path) : Bool :=
  match t.find p with
  | .ok (_, .directory) => true
  | _ => false

def read (t : FileTree) (p : Path) : Except FileError Bytes := do
  match (← t.find p).2 with
  | .file data => .ok data
  | .directory => .error .isADirectory

def readText (t : FileTree) (p : Path) : Except FileError (List Char) := do
  match Utf8.decode (← t.read p).toList with
  | some text => .ok text
  | none => .error .notUnicode

/-- The location of the file at a path, if one is there or can be created. -/
def fileLocation (t : FileTree) (p : Path) : Except FileError Location := do
  let g ← t.target p
  if g.isSpecial || g.slash then .error .isADirectory
  else do
    g.checkLength
    if t.isDirectory g.location then .error .isADirectory
    else .ok g.location

def write (t : FileTree) (p : Path) (data : Bytes) : Except FileError FileTree := do
  return t.put (← t.fileLocation p) (.file data)

def createDirectory (t : FileTree) (p : Path) : Except FileError FileTree := do
  let g ← t.target p
  if g.isSpecial then .error .alreadyExists
  else do
    g.checkLength
    if (t.node? g.location).isSome then .error .alreadyExists
    else .ok (t.put g.location .directory)

/-- The directories that a disk refuses to make. -/
abbrev Refusals := Path → Option DiskError

def makeDirectory (refuses : Refusals) (t : FileTree) (p : Path) : Except FileError FileTree :=
  match t.createDirectory p, refuses p with
  | .ok _, some e => .error (.disk e)
  | r, _ => r

/-- Create a directory unless one is there. -/
def ensureDirectory (refuses : Refusals) (t : FileTree) (p : Path) : Except FileError FileTree :=
  match t.makeDirectory refuses p with
  | .ok t' => .ok t'
  | .error e => if t.pathIsDirectory p then .ok t else .error e

/-- Create a directory and the ones above it that are missing, at most `depth` of them. What was
created before a failure stays. -/
def ensureDirectories (refuses : Refusals) : Nat → FileTree → Path → FileTree × Except FileError Unit
  | 0, t, _ => (t, .error .notFound)
  | depth + 1, t, p =>
    if p.text = [] then (t, .ok ())
    else match t.makeDirectory refuses p with
      | .ok t' => (t', .ok ())
      | .error .notFound =>
        match p.parent with
        | none => (t, .error .notFound)
        | some q =>
          match ensureDirectories refuses depth t q with
          | (t', .error e) => (t', .error e)
          | (t', .ok ()) =>
            match t'.ensureDirectory refuses p with
            | .ok t'' => (t'', .ok ())
            | .error e => (t', .error e)
      | .error e => if t.pathIsDirectory p then (t, .ok ()) else (t, .error e)

/-- Create a directory and every missing one above it. -/
def createDirectories (t : FileTree) (p : Path) (refuses : Refusals := fun _ => none) :
    FileTree × Except FileError Unit :=
  ensureDirectories refuses (p.text.length + 1) t p

def createParents (t : FileTree) (p : Path) (refuses : Refusals := fun _ => none) :
    FileTree × Except FileError Unit :=
  match p.parent with
  | none => (t, .ok ())
  | some q => if q.text = [] then (t, .ok ()) else t.createDirectories q refuses

/-- Move the file at one path to another, replacing a file that is there. -/
def rename (t : FileTree) (source goal : Path) : Except FileError FileTree := do
  let s ← t.target source
  let g ← t.target goal
  if s.isSpecial || g.isSpecial then .error .busy
  else do
    s.checkLength
    match t.node? s.location with
    | none => .error .notFound
    | some .directory => .error .isADirectory
    | some (.file data) =>
      if s.slash || g.slash then .error .notADirectory
      else do
        g.checkLength
        if t.isDirectory g.location then .error .isADirectory
        else .ok ((t.erase s.location).put g.location (.file data))

/-- Put a node at a path, with the directories above it. -/
def plant (t : FileTree) (p : Path) (n : Node) : FileTree :=
  match n with
  | .directory => (t.createDirectories p).1
  | .file data =>
    let t' := (t.createParents p).1
    match t'.write p data with
    | .ok t'' => t''
    | .error _ => t'

def remove (t : FileTree) (p : Path) : FileTree :=
  match t.find p with
  | .ok (l, _) => t.eraseBelow l
  | .error _ => t

end FileTree

end Handheld
