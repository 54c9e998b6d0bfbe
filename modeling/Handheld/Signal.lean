/-!
# Generated signals

A linear congruential generator, and the sequences it is made into.
-/

namespace Handheld

/-- A generator of pseudo-random words. -/
structure Lcg where
  state : UInt32
deriving DecidableEq

namespace Lcg

/-- The generator after one more word, which is its state. -/
def next (g : Lcg) : Lcg := ⟨g.state * 1664525 + 1013904223⟩

/-- The upper half of the current word, as a sample. -/
def sample (g : Lcg) : Int16 := (g.state >>> 16).toUInt16.toInt16

/-- The generator after each of the next `n` words, and where it ends up. -/
def run {α : Type} (pick : Lcg → α) : Nat → Lcg → Array α → Array α × Lcg
  | 0, g, made => (made, g)
  | n + 1, g, made => run pick n g.next (made.push (pick g.next))

theorem size_run {α : Type} (pick : Lcg → α) (n : Nat) (g : Lcg) (made : Array α) :
    (run pick n g made).1.size = made.size + n := by
  induction n generalizing g made with
  | zero => rfl
  | succ n ih =>
    rw [run, ih, Array.size_push]
    omega

end Lcg

end Handheld
