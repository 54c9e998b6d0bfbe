/-!
# Storage that is used over and over

A buffer of fixed size is written and read by ranges. What a write does not cover stays, so that a
reader must know how much of the buffer is new.
-/

namespace Handheld

/-- Storage for `size` items. It is never empty space: what was written last stands in it. -/
@[ext] structure Scratch (α : Type) (size : Nat) where
  items : List α
  full : items.length = size

namespace Scratch

variable {α : Type} {size : Nat}

/-- Storage that holds one item throughout. -/
def blank (a : α) (size : Nat) : Scratch α size := ⟨List.replicate size a, List.length_replicate⟩

/-- Write items from a position on; `none` where they would leave the storage. -/
def write? (s : Scratch α size) (start : Nat) (new : List α) : Option (Scratch α size) :=
  if h : start + new.length ≤ size then
    some ⟨s.items.take start ++ new ++ s.items.drop (start + new.length), by
      have := s.full
      simp only [List.length_append, List.length_take, List.length_drop]
      omega⟩
  else none

/-- The first `n` items; `none` where there are fewer. -/
def first? (s : Scratch α size) (n : Nat) : Option (List α) :=
  if n ≤ size then some (s.items.take n) else none

theorem take_of_first? {s : Scratch α size} {n : Nat} {read : List α} (h : s.first? n = some read) :
    s.items.take n = read := by
  unfold first? at h
  split at h
  case isTrue => exact Option.some.inj h
  case isFalse => cases h

theorem getElem?_of_first? {s : Scratch α size} {n i : Nat} {read : List α}
    (h : s.first? n = some read) (hi : i < n) : s.items[i]? = read[i]? := by
  rw [← take_of_first? h, List.getElem?_take_of_lt hi]

theorem first?_of_write? {s t : Scratch α size} {start : Nat} {new : List α}
    (h : s.write? start new = some t) :
    t.first? (start + new.length) = some (s.items.take start ++ new) := by
  unfold write? at h
  split at h
  case isTrue hfits =>
    cases h
    have hlength : (s.items.take start ++ new).length = start + new.length := by
      rw [List.length_append, List.length_take, s.full, Nat.min_eq_left (by omega)]
    rw [first?, if_pos hfits, List.take_append_of_le_length (Nat.le_of_eq hlength.symm),
      List.take_of_length_le (Nat.le_of_eq hlength)]
  case isFalse => cases h

theorem write?_of_le (s : Scratch α size) (start : Nat) (new : List α)
    (h : start + new.length ≤ size) : ∃ t, s.write? start new = some t := by
  rw [write?, dif_pos h]
  exact ⟨_, rfl⟩

theorem write?_whole (s : Scratch α size) {new : List α} (h : new.length = size) :
    s.write? 0 new = some ⟨new, h⟩ := by
  have hrest : s.items.drop (0 + new.length) = [] := by
    rw [List.drop_eq_nil_iff, s.full]
    omega
  rw [write?, dif_pos (by omega)]
  simp only [List.take_zero, List.nil_append, hrest, List.append_nil]

end Scratch

end Handheld
