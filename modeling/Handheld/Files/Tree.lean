import Handheld.Files.Path

/-!
# File trees

A tree without links: what stands at each location, a location being the names from the root down.
The root and the working directory always exist. `node?` is the view through which everything else
about a tree is said: `node?_put` and `node?_erase` give it after each change.
-/

namespace Handheld

abbrev Bytes := Array UInt8

/-- The names that lead from the root to an entry. -/
abbrev Location := List Name

inductive Node where
  | directory
  | file (data : Bytes)
deriving DecidableEq

/-- A file tree seen by a process whose working directory is `home`. -/
structure FileTree where
  home : Location
  entries : List (Location × Node)

namespace FileTree

/-- The directories on the way from the root down to `home`, and nothing else. -/
def empty (home : Location) : FileTree := ⟨home, []⟩

/-- A location on the way to the working directory, itself included. -/
def aboveHome (t : FileTree) (l : Location) : Bool := l.isPrefixOf t.home

def node? (t : FileTree) (l : Location) : Option Node :=
  if t.aboveHome l then some .directory else t.entries.lookup l

/-- Let `n` stand at `l` and nothing else there. -/
def put (t : FileTree) (l : Location) (n : Node) : FileTree :=
  { t with entries := (l, n) :: t.entries.filter (fun e => e.1 ≠ l) }

def erase (t : FileTree) (l : Location) : FileTree :=
  { t with entries := t.entries.filter (fun e => e.1 ≠ l) }

/-- Let nothing stand at `l` or below it. -/
def eraseBelow (t : FileTree) (l : Location) : FileTree :=
  { t with entries := t.entries.filter (fun e => !l.isPrefixOf e.1) }

def withoutFiles (t : FileTree) (out : Name → Bool) : FileTree :=
  { t with entries := t.entries.filter fun e => e.2 == .directory || !out (e.1.getLast?.getD []) }

def isDirectory (t : FileTree) (l : Location) : Bool := t.node? l == some .directory

/-- Everything below the working directory, by the names that lead to it from there. -/
def listing (t : FileTree) : List (Location × Node) :=
  t.entries.filterMap fun e =>
    if t.home.isPrefixOf e.1 then
      if e.1.length = t.home.length then none else some (e.1.drop t.home.length, e.2)
    else none

/-! ## The view after a change -/

@[simp] theorem aboveHome_put (t : FileTree) (l : Location) (n : Node) :
    (t.put l n).aboveHome = t.aboveHome := rfl

@[simp] theorem aboveHome_erase (t : FileTree) (l : Location) :
    (t.erase l).aboveHome = t.aboveHome := rfl

theorem lookup_filter_ne (es : List (Location × Node)) (l m : Location) :
    (es.filter (fun e => e.1 ≠ l)).lookup m = if m = l then none else es.lookup m := by
  induction es with
  | nil => simp
  | cons e es ih =>
    obtain ⟨k, n⟩ := e
    by_cases hk : k = l
    · subst hk
      rw [List.filter_cons_of_neg (by simp), ih, List.lookup_cons]
      by_cases hm : m = k
      · simp [hm]
      · simp [hm, beq_false_of_ne hm]
    · rw [List.filter_cons_of_pos (by simpa using hk), List.lookup_cons, List.lookup_cons, ih]
      by_cases hm : m = k
      · simp [hm, hk]
      · simp [beq_false_of_ne hm]

theorem node?_put (t : FileTree) (l : Location) (n : Node) (m : Location) :
    (t.put l n).node? m =
      if t.aboveHome m then some .directory else if m = l then some n else t.node? m := by
  simp only [node?, aboveHome_put]
  by_cases ha : t.aboveHome m
  · simp [ha]
  · by_cases hm : m = l
    · simp [hm, put]
    · simp only [ha, hm, if_false, put, List.lookup_cons, beq_false_of_ne hm]
      simpa [hm] using lookup_filter_ne t.entries l m

theorem node?_erase (t : FileTree) (l m : Location) :
    (t.erase l).node? m =
      if t.aboveHome m then some .directory else if m = l then none else t.node? m := by
  simp only [node?, aboveHome_erase]
  by_cases ha : t.aboveHome m
  · simp [ha]
  · simp only [ha, erase]
    simpa using lookup_filter_ne t.entries l m

end FileTree

end Handheld
