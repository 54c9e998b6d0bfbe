import Handheld.Files.Access

/-!
# ROM images and their save files

A ROM is known by its contents and the path it was loaded from. Its save file stands beside it, with
the extension `sav` and a suffix that tells instances apart.
-/

namespace Handheld

structure Rom where
  data : Bytes
  path : Path
deriving DecidableEq

namespace Rom

/-- The directory the ROM was loaded from; empty where its path has no parent. -/
def dir (r : Rom) : Path := r.path.parent.getD ⟨[]⟩

/-- The file name; empty where the path has none. -/
def name (r : Rom) : Name := r.path.fileName.getD []

end Rom

/-- What tells the files of instances apart: nothing for the first, `.2` for the second, and so
on. -/
def instanceSuffix (instanceId : Nat) : List Char :=
  if instanceId = 0 then [] else '.' :: Nat.toDigits 10 (instanceId + 1)

def saveExtension : Name := ['s', 'a', 'v']

/-- The save file of the cartridge at a path, for one instance. -/
def cartSavePath (rom : Path) (instanceId : Nat) : Path :=
  ⟨(rom.withExtension saveExtension).text ++ instanceSuffix instanceId⟩

end Handheld
