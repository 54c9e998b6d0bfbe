/-!
# Bounded queues

First in, first out, with room for a fixed number of items. What does not fit is dropped at the
door; what is inside is never lost.
-/

namespace Handheld

/-- A queue of at most `capacity` items, oldest first. -/
structure Ring (α : Type) where
  capacity : Nat
  items : List α
  fits : items.length ≤ capacity

namespace Ring

variable {α : Type}

def empty (capacity : Nat) : Ring α := ⟨capacity, [], Nat.zero_le _⟩

instance : Inhabited (Ring α) := ⟨empty 0⟩

def length (r : Ring α) : Nat := r.items.length

def room (r : Ring α) : Nat := r.capacity - r.length

/-- Append as many items as there is room for, and say how many that was. -/
def push (r : Ring α) (new : List α) : Nat × Ring α :=
  let accepted := new.take r.room
  (accepted.length,
    ⟨r.capacity, r.items ++ accepted, by
      have := r.fits
      simp only [List.length_append, accepted, List.length_take, room, length]
      omega⟩)

/-- Take at most `n` of the oldest items. -/
def pop (r : Ring α) (n : Nat) : List α × Ring α :=
  (r.items.take n, ⟨r.capacity, r.items.drop n, by
    have := r.fits
    simp only [List.length_drop]
    omega⟩)

def clear (r : Ring α) : Ring α := empty r.capacity

@[simp] theorem items_push (r : Ring α) (new : List α) :
    (r.push new).2.items = r.items ++ new.take r.room := rfl

@[simp] theorem items_pop (r : Ring α) (n : Nat) : (r.pop n).2.items = r.items.drop n := rfl

@[simp] theorem pop_append_items (r : Ring α) (n : Nat) :
    (r.pop n).1 ++ (r.pop n).2.items = r.items := List.take_append_drop n r.items

end Ring

end Handheld
