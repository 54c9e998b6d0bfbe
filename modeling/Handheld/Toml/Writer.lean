import Handheld.Decimal.Positional
import Handheld.Toml.Quoted
import Handheld.Toml.Value

/-!
# Writing TOML

A document of sections, each a header and its assignments, with an empty line between sections.
-/

namespace Handheld.Toml

/-- A value that fits on the right of an assignment. -/
inductive Leaf where
  | text (s : List Char)
  | integer (n : Nat)
  | float (bits : UInt64)
  | boolean (b : Bool)
deriving DecidableEq

def Leaf.toValue : Leaf → Value
  | .text s => .text s
  | .integer n => .integer n
  | .float bits => .float bits
  | .boolean b => .boolean b

def Leaf.write : Leaf → List Char
  | .text s => Quoted.write s
  | .integer n => Positional.digits n
  | .float bits => Positional.ofBits bits
  | .boolean true => ['t', 'r', 'u', 'e']
  | .boolean false => ['f', 'a', 'l', 's', 'e']

/-- A header and its assignments, by bare keys. -/
structure Section where
  name : Key
  fields : List (Key × Leaf)

def Section.write (s : Section) : List Char :=
  '[' :: s.name ++ [']', '\n'] ++
    s.fields.flatMap fun f => f.1 ++ [' ', '=', ' '] ++ f.2.write ++ ['\n']

def writeSections (sections : List Section) : List Char :=
  ['\n'].intercalate (sections.map Section.write)

end Handheld.Toml
