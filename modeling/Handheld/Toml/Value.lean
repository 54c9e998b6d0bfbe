/-!
# TOML values

A table keeps its keys in the order they were written and remembers how it came to be, because that
decides who may still add to it.
-/

namespace Handheld.Toml

abbrev Key := List Char

inductive Origin where
  /-- It has a header of its own. -/
  | header
  /-- It is only named on the way to a longer header. -/
  | implied
  /-- A dotted key made it. -/
  | dotted
  /-- It was written in braces and is closed. -/
  | inline
deriving DecidableEq

inductive Value where
  | text (s : List Char)
  | integer (n : Int)
  /-- A binary64 number by its bits. -/
  | float (bits : UInt64)
  /-- A numeral in good order that stands for no number: it has no digits or wrong ones, or it is too
  large. It may stand where nobody looks at it. -/
  | void
  | boolean (b : Bool)
  | moment
  /-- `growing` arrays are those made by double-bracket headers. -/
  | array (growing : Bool) (items : List Value)
  | table (origin : Origin) (entries : List (Key × Value))

abbrev Entries := List (Key × Value)

mutual

/-- Every numeral in a value stands for a number. -/
def Value.isSound : Value → Bool
  | .void => false
  | .array _ items => areSound items
  | .table _ entries => hasSoundEntries entries
  | _ => true

def areSound : List Value → Bool
  | [] => true
  | v :: rest => v.isSound && areSound rest

def hasSoundEntries : List (Key × Value) → Bool
  | [] => true
  | (_, v) :: rest => v.isSound && hasSoundEntries rest

end

def Entries.get? (es : Entries) (k : Key) : Option Value := es.lookup k

/-- Replace what a key stands for, or append the key. -/
def Entries.set (es : Entries) (k : Key) (v : Value) : Entries :=
  if (es.get? k).isSome then es.map fun e => if e.1 = k then (k, v) else e
  else es ++ [(k, v)]

/-! ## Adding to a table -/

/-- Add a value under a dotted key. Intermediate tables are made as needed; those already there may
be entered if dotted keys made them, or if they are only implied and not the direct parent. The way
through a growing array is through its last table, which is never the direct parent. -/
def Entries.insertDotted (es : Entries) (k : Key) (v : Value) : List Key → Option Entries
  | [] => if (es.get? k).isSome then none else some (es ++ [(k, v)])
  | next :: more =>
    match es.get? k with
    | none => do
      let sub ← insertDotted [] next v more
      return es ++ [(k, .table .dotted sub)]
    | some (.table origin sub) =>
      if origin = .dotted || (origin = .implied && !more.isEmpty) then do
        let sub' ← insertDotted sub next v more
        return es.set k (.table origin sub')
      else none
    | some (.array true items) =>
      match items.getLast? with
      | some (.table origin sub) =>
        if more.isEmpty then none
        else do
          let sub' ← insertDotted sub next v more
          return es.set k (.array true (items.dropLast ++ [.table origin sub']))
      | _ => none
    | some _ => none

/-- Change the table that a header path leads to. Missing tables on the way are implied; the way
through a growing array is through its last table. -/
def Entries.descend (es : Entries) (change : Entries → Option Entries) : List Key → Option Entries
  | [] => change es
  | k :: rest =>
    match es.get? k with
    | none => do
      let sub ← descend [] change rest
      return es ++ [(k, .table .implied sub)]
    | some (.table origin sub) =>
      if origin = .inline then none
      else do
        let sub' ← descend sub change rest
        return es.set k (.table origin sub')
    | some (.array true items) =>
      match items.getLast? with
      | some (.table origin sub) => do
        let sub' ← descend sub change rest
        return es.set k (.array true (items.dropLast ++ [.table origin sub']))
      | _ => none
    | some _ => none

/-- Open a table under its own header: it must be new or only implied so far. -/
def Entries.openTable (k : Key) (es : Entries) : Option Entries :=
  match es.get? k with
  | none => some (es ++ [(k, .table .header [])])
  | some (.table .implied sub) => some (es.set k (.table .header sub))
  | some _ => none

/-- Start the next table of a growing array. -/
def Entries.openItem (k : Key) (es : Entries) : Option Entries :=
  match es.get? k with
  | none => some (es ++ [(k, .array true [.table .header []])])
  | some (.array true items) => some (es.set k (.array true (items ++ [.table .header []])))
  | some _ => none

end Handheld.Toml
