import Handheld.Proofs.Save.Session
import Mathlib.Data.List.Induction

/-!
# The bytes that were marked as changed

Beside the image a store keeps a second buffer, into which each request copies no more than the range
that its machine changed. `secondary_holds_latest_changes` says what is in there whatever was done with
the store: as many bytes as the longest image had, each of them from the latest request that marked its
position, zero where none did. Only requests write to the buffer (`secondary_step`), and one of them
leaves everything that it does not mark (`secondary_request`).
-/

namespace Handheld

/-- A save write as its machine reports it. -/
structure SaveChange where
  image : Bytes
  offset : Nat
  length : Nat
deriving DecidableEq

namespace SaveChange

/-- The range that was changed holds a position. Its end is a word, and it is cut to the image. -/
def Covers (c : SaveChange) (i : Nat) : Prop :=
  c.offset ≤ i ∧ i < min (c.offset + c.length) SaveStore.maxOffset ∧ i < c.image.size

instance (c : SaveChange) (i : Nat) : Decidable (c.Covers i) := inferInstanceAs (Decidable (_ ∧ _ ∧ _))

/-- In an image that fits in memory the largest word is no position, and cutting the end to a word
loses nothing. -/
theorem covers_iff (c : SaveChange) (i : Nat) (h : c.image.size ≤ SaveStore.maxOffset) :
    c.Covers i ↔ c.offset ≤ i ∧ i < c.offset + c.length ∧ i < c.image.size := by
  unfold Covers
  omega

def longest (changes : List SaveChange) : Nat := (changes.map (·.image.size)).foldl max 0

def latest? (changes : List SaveChange) (i : Nat) : Option SaveChange :=
  changes.reverse.find? fun c => c.Covers i

/-- What the latest change made of a position; zero where there is none. -/
def latestByte (changes : List SaveChange) (i : Nat) : UInt8 :=
  match latest? changes i with
  | some c => c.image.getD i 0
  | none => 0

/-- The bytes of all positions that any of the images has. -/
def marked (changes : List SaveChange) : Bytes :=
  (Array.range (longest changes)).map (latestByte changes)

@[simp] theorem marked_nil : marked [] = #[] := by
  simp [marked, longest]

theorem longest_concat (changes : List SaveChange) (c : SaveChange) :
    longest (changes ++ [c]) = max (longest changes) c.image.size := by
  simp [longest]

theorem latestByte_concat (changes : List SaveChange) (c : SaveChange) (i : Nat) :
    latestByte (changes ++ [c]) i = if c.Covers i then c.image.getD i 0 else latestByte changes i := by
  unfold latestByte latest?
  rw [List.reverse_concat, List.find?_cons]
  by_cases h : c.Covers i <;> simp [h]

theorem marked_concat (changes : List SaveChange) (c : SaveChange) :
    marked (changes ++ [c]) =
      (Array.range (max (longest changes) c.image.size)).map fun i =>
        if c.Covers i then c.image.getD i 0 else latestByte changes i := by
  rw [marked, longest_concat, funext (latestByte_concat changes c)]

theorem size_le_longest {changes : List SaveChange} {c : SaveChange} (h : c ∈ changes) :
    c.image.size ≤ longest changes := by
  induction changes using List.reverseRecOn with
  | nil => cases h
  | append_singleton changes d ih =>
    rw [longest_concat]
    rcases List.mem_append.mp h with h | h
    · exact Nat.le_trans (ih h) (Nat.le_max_left _ _)
    · rw [List.mem_singleton.mp h]
      exact Nat.le_max_right _ _

theorem latestByte_of_longest_le {changes : List SaveChange} {i : Nat} (h : longest changes ≤ i) :
    latestByte changes i = 0 := by
  have hnone : latest? changes i = none := by
    refine List.find?_eq_none.mpr fun c hc hcovers => ?_
    have hsize := size_le_longest (List.mem_reverse.mp hc)
    have hlt : i < c.image.size := (of_decide_eq_true hcovers).2.2
    omega
  rw [latestByte, hnone]

@[simp] theorem size_marked (changes : List SaveChange) :
    (marked changes).size = longest changes := by
  simp [marked]

@[simp] theorem getD_marked (changes : List SaveChange) (i : Nat) :
    (marked changes).getD i 0 = latestByte changes i := by
  rcases Nat.lt_or_ge i (longest changes) with h | h
  · simp [marked, h]
  · simp [marked, Nat.not_lt.mpr h, latestByte_of_longest_le h]

end SaveChange

open SaveChange

namespace SaveStore

theorem secondary_request (s : SaveStore) (now : Nat) (image : Bytes) (offset length : Nat) :
    (s.request now image offset length).secondary =
      (Array.range (max s.secondary.size image.size)).map fun i =>
        if (⟨image, offset, length⟩ : SaveChange).Covers i then image.getD i 0
        else s.secondary.getD i 0 := by
  simp only [request, copies?_eq, Option.get_some]
  apply Array.ext
  · simp
  · intro i hi _
    have hgrown : (grow s.secondary image.size).getD i 0 = s.secondary.getD i 0 := by
      rw [size_overlay, size_grow] at hi
      simp [grow, hi]
    have hrange : (min (min offset maxOffset) image.size ≤ i ∧
        i < min (min (offset + length) maxOffset) image.size) ↔
        (⟨image, offset, length⟩ : SaveChange).Covers i := by
      simp only [Covers]
      omega
    simp only [overlay, Array.getElem_ofFn, Array.getElem_map, Array.getElem_range, hgrown,
      Bool.and_eq_true, decide_eq_true_eq, hrange]

theorem secondary_request_marked {s : SaveStore} {changes : List SaveChange}
    (h : s.secondary = marked changes) (now : Nat) (c : SaveChange) :
    (s.request now c.image c.offset c.length).secondary = marked (changes ++ [c]) := by
  rw [secondary_request, h, marked_concat]
  simp only [getD_marked, size_marked]

theorem secondary_attempt (s : SaveStore) (w : SaveWrite) (t : FileTree) :
    (s.attempt w t).store.secondary = s.secondary := by
  rcases s.attempt_cases w t with ⟨hstore, -⟩ | ⟨hstore, -⟩
  · rw [hstore]
    rfl
  · rw [hstore]

theorem secondary_checkFlush (s : SaveStore) (t : FileTree) :
    (s.checkFlush t).store.secondary = s.secondary := by
  rcases s.checkFlush_cases t with ⟨-, h⟩ | ⟨w, -, h⟩ <;> rw [h]
  exact s.secondary_attempt w t

theorem copySecondary_eq (s : SaveStore) (buffer : Bytes) :
    s.copySecondary buffer =
      if s.secondary.size ≤ buffer.size then
        (true, .ofFn fun i : Fin buffer.size =>
          if i < s.secondary.size then s.secondary.getD i 0 else buffer[i])
      else (false, buffer) := by
  unfold copySecondary
  rcases Nat.lt_or_ge buffer.size s.secondary.size with h | h
  · rw [if_pos h, if_neg (Nat.not_le.mpr h)]
  · rw [if_neg (Nat.not_lt.mpr h), if_pos h]
    congr 1
    apply Array.ext
    · simp only [Array.size_append, Array.size_extract, Array.size_ofFn]
      omega
    · intro i _ _
      simp only [Array.getElem_append, Array.getElem_ofFn, Array.getElem_extract]
      split
      · simp
      · next hi => simp [Nat.add_sub_cancel' (Nat.not_lt.mp hi)]

end SaveStore

namespace SaveSession

/-- The changes that were requested, oldest first. -/
def changes (events : List SaveEvent) : List SaveChange :=
  events.filterMap fun
    | .request image offset length => some ⟨image, offset, length⟩
    | _ => none

theorem secondary_finish (s : SaveSession) : s.finish.store.secondary = s.store.secondary := by
  unfold finish
  split
  · rfl
  · exact s.store.secondary_attempt _ s.files

theorem secondary_flush (s : SaveSession) : s.flush.2.store.secondary = s.store.secondary :=
  (s.finish.store.secondary_checkFlush s.finish.files).trans s.secondary_finish

theorem secondary_act (s : SaveSession) : s.act.store.secondary = s.store.secondary := by
  unfold act
  dsimp only
  split
  · rw [secondary_flush, secondary_finish]
  · exact s.secondary_finish

theorem secondary_stop (s : SaveSession) : s.stop.store.secondary = s.store.secondary := by
  have hlast : ∀ b : Bool, (if b then s.finish.flush.2 else s.finish).store.secondary =
      s.store.secondary := by
    intro b
    cases b
    · exact s.secondary_finish
    · exact s.finish.secondary_flush.trans s.secondary_finish
  exact hlast _

theorem secondary_step (s : SaveSession) (e : SaveEvent) :
    (s.step e).store.secondary =
      match e with
      | .request image offset length => (s.store.request s.now image offset length).secondary
      | _ => s.store.secondary := by
  cases e with
  | request image offset length => rfl
  | check => exact s.secondary_flush
  | setPath path => rfl
  | advance time => rfl
  | act => exact s.secondary_act
  | snapshot =>
    unfold step
    dsimp only
    split <;> rfl
  | finish => exact s.secondary_finish
  | stop => exact s.secondary_stop
  | disk files => rfl

theorem secondary_step_marked {s : SaveSession} {earlier : List SaveChange}
    (h : s.store.secondary = marked earlier) (e : SaveEvent) :
    (s.step e).store.secondary = marked (earlier ++ changes [e]) := by
  rw [secondary_step]
  cases e with
  | request image offset length =>
    exact SaveStore.secondary_request_marked h s.now ⟨image, offset, length⟩
  | _ => simpa [changes] using h

theorem secondary_run {s : SaveSession} {earlier : List SaveChange}
    (h : s.store.secondary = marked earlier) (events : List SaveEvent) :
    (s.run events).store.secondary = marked (earlier ++ changes events) := by
  induction events generalizing s earlier with
  | nil =>
    show s.store.secondary = marked (earlier ++ [])
    rw [List.append_nil, h]
  | cons e events ih =>
    have hchanges : changes (e :: events) = changes [e] ++ changes events :=
      List.filterMap_append (l := [e])
    rw [hchanges, ← List.append_assoc]
    exact ih (secondary_step_marked h e)

/-- Whatever was done with a store: the next request stays within the buffers, the second buffer is as
long as the longest image and has at each position the byte of the latest request that marked it, and
this is what is copied to the front of a buffer that is large enough. -/
theorem secondary_holds_latest_changes (path : Option Path) (debounce : Nat) (files : FileTree)
    (events : List SaveEvent) :
    let s := ((start path debounce files).run events).store
    let all := changes events
    (∀ image offset length, (s.copies? image offset length).isSome) ∧
      s.secondary = (Array.range (longest all)).map (latestByte all) ∧
      ∀ buffer : Bytes, s.copySecondary buffer =
        if longest all ≤ buffer.size then
          (true, .ofFn fun i : Fin buffer.size =>
            if i < longest all then latestByte all i else buffer[i])
        else (false, buffer) := by
  intro s all
  have hstart : (start path debounce files).store.secondary = marked [] := marked_nil.symm
  have hmarked : s.secondary = marked all := secondary_run hstart events
  refine ⟨s.isSome_copies?, hmarked, fun buffer => ?_⟩
  rw [SaveStore.copySecondary_eq, hmarked]
  simp only [size_marked, getD_marked]

end SaveSession

end Handheld
