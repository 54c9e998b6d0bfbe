import Handheld.Proofs.Registry.Consistent

/-!
# Who is heard of several instances

Where only the first instance is to be heard, the policy lets the one with id zero sound and, once there
are two, nobody else. Ids are given out anew but never change, so that exactly one instance is heard as
long as it is the only one or id zero is alive, and none otherwise (`one_heard_iff`).
-/

namespace Handheld

namespace Registry

variable {F M : Type} {r : Registry F M}

def heard (r : Registry F M) : List (Instance F M) :=
  r.instances.filter fun i => !i.thread.worker.audio.muted

/-! ## The mode stays -/

variable [Machine M] [Factory F M]

theorem mute_destroyEach (world : World) (instances : List (Instance F M)) :
    (destroyEach world instances).2.mute = world.mute := by
  induction instances generalizing world with
  | nil => rfl
  | cons i rest ih => exact ih { world with files := (lend world i).destroy.thread.worker.world.files }

theorem mute_moveFocus (r : Registry F M) (focus : Option Nat) :
    (r.moveFocus focus).world.mute = r.world.mute :=
  moveFocus_induction (P := fun s => s.world.mute = r.world.mute) rfl
    (fun s id h => (s.mute_update id _).trans h) (fun s id h => (s.mute_update id _).trans h) focus

theorem mode_attempt (r : Registry F M) (c : Change F) :
    (r.attempt c).2.world.mute.mode = r.world.mute.mode := by
  cases c with
  | create factory =>
    show (r.create factory).2.world.mute.mode = r.world.mute.mode
    rcases r.create_cases factory with ⟨id, -, hcreate⟩ | ⟨-, hcreate⟩ <;> rw [hcreate]
    rfl
  | destroy id =>
    show (r.destroy id).2.world.mute.mode = r.world.mute.mode
    rcases r.destroy_cases id with ⟨-, ended, files, hdestroy⟩ | ⟨-, hdestroy⟩
    · rw [hdestroy]
      show (if r.focused = some id then r.world.mute.setFocused none else r.world.mute).mode = _
      rw [apply_ite MuteState.mode]
      exact ite_self _
    · rw [hdestroy]
  | destroyAll =>
    show (destroyEach r.world r.instances).2.mute.mode = r.world.mute.mode
    rw [mute_destroyEach]
  | setFocus focus =>
    show (r.setFocus focus).2.world.mute.mode = r.world.mute.mode
    rcases r.setFocus_cases focus with ⟨-, hfocus⟩ | ⟨id, -, -, hfocus⟩
    · rw [hfocus]
      show (r.moveFocus focus).world.mute.mode = r.world.mute.mode
      rw [mute_moveFocus]
    · rw [hfocus]
  | operate id o => exact congrArg MuteState.mode (r.mute_update id _)
  | press id input => exact congrArg MuteState.mode (r.mute_update id _)
  | elapse time files => rfl

theorem mode_undergo (r : Registry F M) (changes : List (Change F)) :
    (r.undergo changes).world.mute.mode = r.world.mute.mode := by
  induction changes generalizing r with
  | nil => rfl
  | cons c changes ih => exact (ih (r.attempt c).2).trans (r.mode_attempt c)

/-! ## The first instance -/

omit [Machine M] [Factory F M] in
theorem Consistent.heard_of_one (h : r.Consistent) (hone : r.instances.length = 1) :
    r.heard = r.instances := by
  have hfew : r.world.mute.instances < 2 := by
    rw [h.counted, hone]
    exact Nat.one_lt_two
  refine List.filter_eq_self.mpr fun i hi => ?_
  rw [h.muted i hi, MuteState.isMuted_of_instances_lt_two hfew]
  rfl

omit [Machine M] [Factory F M] in
theorem Consistent.heard_of_several (h : r.Consistent) (hmode : r.world.mute.mode = .firstOnly)
    (hseveral : 2 ≤ r.instances.length) : r.heard = r.instances.filter fun i => i.id = 0 := by
  refine List.filter_congr fun i hi => ?_
  have hmany : ¬r.world.mute.instances < 2 := by
    rw [h.counted]
    exact Nat.not_lt.mpr hseveral
  rw [h.muted i hi, MuteState.isMuted, if_neg hmany, hmode]
  by_cases hid : i.id = 0
  · simp [hid]
  · simp [hid, Nat.pos_of_ne_zero hid]

omit [Machine M] [Factory F M] in
theorem Orderly.length_filter_id (h : r.Orderly) (id : Nat) :
    (r.instances.filter fun i => i.id = id).length = if id ∈ r.ids then 1 else 0 := by
  have hcount : (r.instances.filter fun i => i.id = id).length = r.ids.count id := by
    rw [← List.countP_eq_length_filter, ids, List.count, List.countP_map]
    rfl
  rw [hcount]
  exact h.nodup.count

/-- **One instance is heard** where only the first one is to be, whatever happened to the registry, if
there is no other or the one with id zero is alive; else, nobody is. -/
theorem one_heard_iff (config : Config) (files : FileTree) (firmwareDir : Option Path)
    (changes : List (Change F)) :
    let first : Config := { config with audio := { config.audio with multiInstance := .firstOnly } }
    let r : Registry F M := (new first files firmwareDir).undergo changes
    (r.heard.length = 1 ↔ r.instances.length = 1 ∨ 0 ∈ r.ids) ∧
      (r.heard.length ≠ 1 → r.heard = []) := by
  intro first r
  have h : r.Consistent := (consistent_new first files firmwareDir).undergo changes
  have hmode : r.world.mute.mode = .firstOnly := mode_undergo _ changes
  rcases Nat.lt_trichotomy r.instances.length 1 with hnone | hone | hseveral
  · have hempty : r.instances = [] := List.eq_nil_of_length_eq_zero (Nat.lt_one_iff.mp hnone)
    simp [heard, ids, hempty]
  · simp [h.heard_of_one hone, hone]
  · have hlength := h.length_filter_id 0
    rw [h.heard_of_several hmode hseveral, hlength]
    by_cases hzero : 0 ∈ r.ids
    · simp [hzero]
    · rw [if_neg hzero] at hlength
      simp [hzero, List.eq_nil_of_length_eq_zero hlength, Nat.ne_of_gt hseveral]

/-- Once the first of three instances is gone, two are alive and none is heard. -/
theorem nobody_heard_without_first :
    let start : Registry ScriptFactory ScriptMachine :=
      new { audio.multiInstance := .firstOnly } (.empty []) none
    let new : Change ScriptFactory := .create ⟨{}, false⟩
    let r := start.undergo [new, new, new, .destroy 0]
    r.ids = [1, 2] ∧ r.heard.length = 0 := by
  decide

end Registry

end Handheld
