import Handheld.Files.Access

/-!
# Replacing a file as a whole

The data goes to a sibling first and is then moved over the file, so that what stands at the path is
always either the old contents or the new.
-/

namespace Handheld

/-- What the name of the sibling ends in. -/
def siblingSuffix : Name := ['.', 't', 'm', 'p']

/-- The sibling that holds the data until it is complete. -/
def Path.sibling (p : Path) (name : Name) : Path := p.withFileName (name ++ siblingSuffix)

/-- What a disk refuses while a file is replaced, though the tree allows it; by default nothing. -/
structure Disk where
  /-- Directories that cannot be made. -/
  directories : FileTree.Refusals := fun _ => none
  /-- The sibling cannot be created. -/
  creation : Option DiskError := none
  /-- So many bytes are written and no more. -/
  writing : Option (Nat × DiskError) := none
  /-- What was written cannot be synced. -/
  syncing : Option DiskError := none
  /-- The sibling cannot be moved. -/
  moving : Option DiskError := none

namespace FileTree

/-- Create a file anew, write data to it and wait until it is on the disk. What was written before
the disk refused stays. -/
def writeSynced (t : FileTree) (p : Path) (data : Bytes) (disk : Disk) : FileTree × Except FileError Unit :=
  match t.fileLocation p with
  | .error e => (t, .error e)
  | .ok l =>
    match disk.creation, disk.writing, disk.syncing with
    | some e, _, _ => (t, .error (.disk e))
    | none, some (n, e), _ => (t.put l (.file (data.extract 0 n)), .error (.disk e))
    | none, none, some e => (t.put l (.file data), .error (.disk e))
    | none, none, none => (t.put l (.file data), .ok ())

def move (t : FileTree) (source goal : Path) (disk : Disk) : Except FileError FileTree :=
  match t.rename source goal, disk.moving with
  | .ok _, some e => .error (.disk e)
  | r, _ => r

/-- Replace the file at a path as a whole. Directories above it are created; a failure at the sibling
or in moving it leaves behind what there is of it. -/
def replaceFile (t : FileTree) (p : Path) (data : Bytes) (disk : Disk := {}) :
    FileTree × Except FileError Unit :=
  match t.createParents p disk.directories with
  | (t, .error e) => (t, .error e)
  | (t, .ok ()) =>
    match p.fileName with
    | none => (t, .error .noFileName)
    | some name =>
      match t.writeSynced (p.sibling name) data disk with
      | (t, .error e) => (t, .error e)
      | (t, .ok ()) =>
        match t.move (p.sibling name) p disk with
        | .error e => (t, .error e)
        | .ok t => (t, .ok ())

end FileTree

end Handheld
