import Handheld.Config.Toml
import Handheld.Files.Access

/-!
# Configuration on disk
-/

namespace Handheld

inductive ConfigError where
  | file (e : FileError)
  | malformed
deriving DecidableEq

namespace Config

/-- The configuration directory, from the home directory on. -/
def directory : Path := .ofString ".config/emuhost"

/-- The configuration file, from the home directory on. -/
def defaultPath : Path := directory.join (.ofString "config.toml")

/-- Read and sanitize the configuration at a path. -/
def readFrom (t : FileTree) (p : Path) : Except ConfigError Config := do
  let s ← (t.readText p).mapError .file
  match ofText? s with
  | some c => .ok c.sanitize
  | none => .error .malformed

/-- Read the configuration of the user; the defaults stand in for one that cannot be read. -/
def readDefault (t : FileTree) : Config :=
  match readFrom t defaultPath with
  | .ok c => c
  | .error _ => {}

/-- Write a configuration to a path, with the directories above it. -/
def writeTo (c : Config) (t : FileTree) (p : Path) : FileTree × Except ConfigError Unit :=
  let (t, made) :=
    match p.parent with
    | none => (t, Except.ok ())
    | some q => t.createDirectories q
  match made with
  | .error e => (t, .error (.file e))
  | .ok () =>
    match t.write p (Utf8.encode c.toText).toArray with
    | .ok t => (t, .ok ())
    | .error e => (t, .error (.file e))

def writeDefault (c : Config) (t : FileTree) : FileTree × Except ConfigError Unit :=
  c.writeTo t defaultPath

end Config

end Handheld
