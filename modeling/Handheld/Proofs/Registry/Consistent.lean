import Handheld.Machine.Script
import Handheld.Proofs.Instance.Courses
import Handheld.Registry
import Mathlib.Data.List.Nodup
import Mathlib.Order.Bounds.Defs

/-!
# A registry and what it shares

Instances come and go and the focus moves, while workers run and the world goes on. Through all of it the
ids that are alive, the count and the focus of the mute policy and the mute flag of each instance fit
together (`Consistent`). Everything but coming, going and the focus touches one instance, which obeys the
policy (`Consistent.update`); the others end by evaluating the policy for every instance, and so only what
the policy reads has to fit before (`Orderly.refreshMute`).
-/

namespace Handheld

namespace Registry

/-- What can happen to a registry. -/
inductive Change (F : Type) where
  | create (factory : F)
  | destroy (id : Nat)
  | destroyAll
  | setFocus (id : Option Nat)
  /-- Something is done with an instance, and its worker may go on with that. -/
  | operate (id : Nat) (o : Instance.Operation)
  | press (id : Nat) (input : InputState)
  /-- Time goes by, and somebody else changes files. -/
  | elapse (time : Nat) (files : FileTree)

variable {F M : Type}

/-- The ids ascend, none is beyond the limit, and the mute policy knows how many there are and which of
them has the focus. -/
structure Orderly (r : Registry F M) : Prop where
  ascending : r.ids.Pairwise (· < ·)
  bounded : ∀ id ∈ r.ids, id < instanceLimit
  counted : r.world.mute.instances = r.instances.length
  focus : ∀ id, r.focused = some id → id ∈ r.ids
  /-- Each instance plays its own sound. -/
  owner : ∀ i ∈ r.instances, i.thread.worker.audio.instanceId = i.id

/-- Besides, each instance is muted as the policy says. -/
structure Consistent (r : Registry F M) : Prop extends Orderly r where
  muted : ∀ i ∈ r.instances, i.thread.worker.audio.muted = r.world.mute.isMuted i.id

variable {r : Registry F M} {id : Nat}

/-! ## Ids -/

theorem mem_ids : id ∈ r.ids ↔ ∃ i ∈ r.instances, i.id = id := List.mem_map

theorem find?_eq_none_iff : r.find? id = none ↔ id ∉ r.ids := by
  simp [find?, mem_ids]

theorem isNone_find? : (r.find? id).isNone = true ↔ id ∉ r.ids := by
  rw [Option.isNone_iff_eq_none, find?_eq_none_iff]

theorem ids_refreshMute (r : Registry F M) : r.refreshMute.ids = r.ids :=
  List.map_map.trans (List.map_congr_left fun _ _ => rfl)

theorem ids_recount (r : Registry F M) : r.recount.ids = r.ids := ids_refreshMute _

theorem length_ids (r : Registry F M) : r.ids.length = r.instances.length := List.length_map _

theorem Orderly.nodup (h : r.Orderly) : r.ids.Nodup := h.ascending.imp Nat.ne_of_lt

/-- Among ids below the limit, one that is free leaves room for another. -/
theorem Orderly.length_lt (h : r.Orderly) (hid : id < instanceLimit) (hfree : id ∉ r.ids) :
    r.instances.length < instanceLimit := by
  have hsub : id :: r.ids ⊆ List.range instanceLimit := by
    intro j hj
    rcases List.mem_cons.mp hj with rfl | hj
    · exact List.mem_range.mpr hid
    · exact List.mem_range.mpr (h.bounded j hj)
  have hlength := (List.subperm_of_subset (List.nodup_cons.mpr ⟨hfree, h.nodup⟩) hsub).length_le
  rw [List.length_cons, length_ids, List.length_range] at hlength
  exact hlength

theorem Orderly.length_eq (h : r.Orderly) (hfull : ∀ j < instanceLimit, j ∈ r.ids) :
    r.instances.length = instanceLimit := by
  have hbelow := List.subperm_of_subset h.nodup fun j hj => List.mem_range.mpr (h.bounded j hj)
  have habove := List.subperm_of_subset List.nodup_range fun j hj => hfull j (List.mem_range.mp hj)
  rw [← length_ids, ← List.length_range (n := instanceLimit)]
  exact Nat.le_antisymm hbelow.length_le habove.length_le

theorem freeId?_eq_some (h : r.freeId? = some id) :
    id < instanceLimit ∧ IsLeast {j | j ∉ r.ids} id := by
  obtain ⟨hfree, hrange, hleast⟩ := List.find?_range_eq_some.mp h
  refine ⟨List.mem_range.mp hrange, isNone_find?.mp hfree, fun j hj => ?_⟩
  by_contra hlt
  have htaken := hleast j (Nat.lt_of_not_le hlt)
  rw [isNone_find?.mpr hj] at htaken
  cases htaken

theorem freeId?_eq_none (h : r.freeId? = none) : ∀ j < instanceLimit, j ∈ r.ids := by
  intro j hj
  by_contra hfree
  exact List.find?_eq_none.mp h j (List.mem_range.mpr hj) (isNone_find?.mpr hfree)

/-! ## The mute policy -/

/-- **Once the policy is evaluated**, only what it reads has to fit. -/
theorem Orderly.refreshMute (h : r.Orderly) : r.refreshMute.Consistent where
  ascending := r.ids_refreshMute ▸ h.ascending
  bounded := r.ids_refreshMute ▸ h.bounded
  counted := h.counted.trans (List.length_map _).symm
  focus := r.ids_refreshMute ▸ h.focus
  owner := by
    intro i hi
    obtain ⟨j, hj, rfl⟩ := List.mem_map.mp hi
    exact h.owner j hj
  muted := by
    intro i hi
    obtain ⟨j, hj, rfl⟩ := List.mem_map.mp hi
    exact congrArg r.world.mute.isMuted (h.owner j hj)

theorem mute_update (r : Registry F M) (id : Nat) (f : Instance F M → Instance F M) :
    (r.update id f).world.mute = r.world.mute := by
  unfold update act
  split <;> rfl

theorem ids_update (r : Registry F M) (id : Nat) (f : Instance F M → Instance F M) :
    (r.update id f).ids = r.ids := by
  unfold update act
  split
  · rfl
  · next i _ =>
    refine List.map_map.trans (List.map_congr_left fun j _ => ?_)
    show (if j.id = (f (lend r.world i)).id then f (lend r.world i) else j).id = j.id
    split
    · next hj => exact hj.symm
    · rfl

/-! ## Finding and changing one instance -/

theorem mem_of_find? {i : Instance F M} (h : r.find? id = some i) :
    i ∈ r.instances ∧ i.id = id := by
  refine ⟨List.mem_of_find?_eq_some h, ?_⟩
  have hid := List.find?_some h
  simpa using hid

theorem update_of_none (h : r.find? id = none) (f : Instance F M → Instance F M) :
    r.update id f = r := by
  rw [update, act, h]

theorem update_of_some {i : Instance F M} (h : r.find? id = some i)
    (f : Instance F M → Instance F M) : r.update id f = r.replace (f (lend r.world i)) := by
  rw [update, act, h]

theorem config_update (r : Registry F M) (id : Nat) (f : Instance F M → Instance F M) :
    (r.update id f).config = r.config := by
  cases h : r.find? id with
  | none => rw [update_of_none h]
  | some i => rw [update_of_some h, replace]

theorem mem_update {f : Instance F M → Instance F M} (hf : ∀ i, (f i).id = i.id)
    {j : Instance F M} (hj : j ∈ (r.update id f).instances) :
    (j ∈ r.instances ∧ j.id ≠ id) ∨ ∃ i ∈ r.instances, i.id = id ∧ j = f (lend r.world i) := by
  cases hfound : r.find? id with
  | none =>
    rw [update_of_none hfound] at hj
    exact .inl ⟨hj, fun hid => find?_eq_none_iff.mp hfound (mem_ids.mpr ⟨j, hj, hid⟩)⟩
  | some i =>
    obtain ⟨hi, hid⟩ := mem_of_find? hfound
    have hchanged : (f (lend r.world i)).id = id := (hf _).trans hid
    rw [update_of_some hfound] at hj
    obtain ⟨k, hk, rfl⟩ := List.mem_map.mp hj
    split
    · exact .inr ⟨i, hi, hid, rfl⟩
    · next hother => exact .inl ⟨hk, fun hsame => hother (hsame.trans hchanged.symm)⟩

theorem find?_map_instances {s : Registry F M} (g : Instance F M → Instance F M)
    (hs : s.instances = r.instances.map g) (hg : ∀ i, (g i).id = i.id) (id : Nat) :
    s.find? id = (r.find? id).map g := by
  rw [find?, hs, List.find?_map]
  refine congrArg (fun p => (r.instances.find? p).map g) (funext fun i => ?_)
  simp [hg]

theorem find?_update {f : Instance F M → Instance F M} (hf : ∀ i, (f i).id = i.id) (id j : Nat) :
    (r.update id f).find? j =
      if j = id then (r.find? id).map fun i => f (lend r.world i) else r.find? j := by
  cases hfound : r.find? id with
  | none =>
    rw [update_of_none hfound]
    split
    · next hj => rw [hj, hfound, Option.map_none]
    · rfl
  | some i =>
    have hid : (f (lend r.world i)).id = id := (hf _).trans (mem_of_find? hfound).2
    have hkeep : ∀ k : Instance F M,
        (if k.id = (f (lend r.world i)).id then f (lend r.world i) else k).id = k.id := by
      intro k
      split
      · next hk => exact hk.symm
      · rfl
    rw [update_of_some hfound, find?_map_instances (r := r) _ rfl hkeep]
    split
    · next hj =>
      rw [hj, hfound, Option.map_some, hid, if_pos (mem_of_find? hfound).2, Option.map_some]
    · next hj =>
      cases hk : r.find? j with
      | none => rfl
      | some k => rw [Option.map_some, hid, (mem_of_find? hk).2, if_neg hj]

theorem find?_refreshMute (r : Registry F M) (id : Nat) :
    r.refreshMute.find? id = (r.find? id).map fun i => (lend r.world i).refreshMute :=
  find?_map_instances (fun i => (lend r.world i).refreshMute) rfl (fun _ => rfl) id

/-! ## What obeys the policy -/

theorem Consistent.update (h : r.Consistent) (id : Nat) {f : Instance F M → Instance F M}
    (hf : ∀ i : Instance F M, i.thread.worker.Compliant (f i).thread.worker) :
    (r.update id f).Consistent := by
  have hids := r.ids_update id f
  have hmute := r.mute_update id f
  have hid : ∀ i, (f i).id = i.id := fun i => (hf i).id
  refine ⟨⟨hids ▸ h.ascending, hids ▸ h.bounded, ?_, ?_, ?_⟩, ?_⟩
  · rw [hmute, h.counted, ← length_ids, ← length_ids, hids]
  · intro focus hfocus
    rw [hids]
    exact h.focus focus ((congrArg MuteState.focused hmute).symm.trans hfocus)
  · intro j hj
    rcases mem_update hid hj with ⟨hj, -⟩ | ⟨i, hi, -, rfl⟩
    · exact h.owner j hj
    · have hcompliant := hf (lend r.world i)
      exact (hcompliant.owner.trans (h.owner i hi)).trans hcompliant.id.symm
  · intro j hj
    rw [hmute]
    rcases mem_update hid hj with ⟨hj, -⟩ | ⟨i, hi, -, rfl⟩
    · exact h.muted j hj
    · have hcompliant := hf (lend r.world i)
      rw [hid]
      show _ = r.world.mute.isMuted i.id
      rcases hcompliant.muted with hmuted | hmuted
      · exact hmuted.trans (h.muted i hi)
      · exact hmuted.trans (congrArg r.world.mute.isMuted (h.owner i hi))

/-! ## Coming and going -/

theorem mem_insert {i j : Instance F M} {instances : List (Instance F M)} :
    j ∈ insert i instances ↔ j = i ∨ j ∈ instances := by
  induction instances with
  | nil => simp [insert]
  | cons k rest ih =>
    unfold insert
    split
    · exact List.mem_cons
    · simp only [List.mem_cons, ih]
      exact or_left_comm

theorem pairwise_insert {i : Instance F M} {instances : List (Instance F M)}
    (hfree : ∀ j ∈ instances, j.id ≠ i.id)
    (h : instances.Pairwise fun j k => j.id < k.id) :
    (insert i instances).Pairwise fun j k => j.id < k.id := by
  induction instances with
  | nil => exact List.pairwise_singleton _ i
  | cons j rest ih =>
    obtain ⟨hj, hrest⟩ := List.pairwise_cons.mp h
    unfold insert
    split
    · next hlt =>
      refine List.pairwise_cons.mpr ⟨fun k hk => ?_, h⟩
      rcases List.mem_cons.mp hk with rfl | hk
      · exact hlt
      · exact Nat.lt_trans hlt (hj k hk)
    · next hge =>
      have hlt : j.id < i.id :=
        Nat.lt_of_le_of_ne (Nat.le_of_not_lt hge) (hfree j List.mem_cons_self)
      have hinserted := ih (fun k hk => hfree k (List.mem_cons_of_mem j hk)) hrest
      refine List.pairwise_cons.mpr ⟨fun k hk => ?_, hinserted⟩
      rcases mem_insert.mp hk with rfl | hk
      · exact hlt
      · exact hj k hk

theorem consistent_new (config : Config) (files : FileTree) (firmwareDir : Option Path) :
    (new config files firmwareDir : Registry F M).Consistent where
  ascending := .nil
  bounded := by simp [ids, new]
  counted := rfl
  focus := by simp [focused, new]
  owner := by simp [new]
  muted := by simp [new]

/-- When instances are counted and the policy evaluated, there are only ids, focus and owners to see to.
-/
theorem consistent_recount (hascending : r.ids.Pairwise (· < ·))
    (hbounded : ∀ id ∈ r.ids, id < instanceLimit) (hfocus : ∀ id, r.focused = some id → id ∈ r.ids)
    (howner : ∀ i ∈ r.instances, i.thread.worker.audio.instanceId = i.id) : r.recount.Consistent :=
  Orderly.refreshMute (r := { r with world.mute.instances := r.instances.length })
    ⟨hascending, hbounded, rfl, hfocus, howner⟩

def withNew (r : Registry F M) (id : Nat) (factory : F) : Registry F M :=
  { r with instances := insert (.new id r.config factory r.world (r.firmwareSave id)) r.instances }

theorem mem_ids_withNew {j : Nat} {factory : F} :
    j ∈ (r.withNew id factory).ids ↔ j = id ∨ j ∈ r.ids := by
  have hnew : (Instance.new (M := M) id r.config factory r.world (r.firmwareSave id)).id = id := rfl
  simp only [mem_ids, withNew, mem_insert, or_and_right, exists_or, exists_eq_left, hnew, eq_comm]

theorem create_cases (r : Registry F M) (factory : F) :
    (∃ id, r.freeId? = some id ∧ r.create factory = (.ok id, (r.withNew id factory).recount)) ∨
      r.freeId? = none ∧ r.create factory = (.error (.full instanceLimit), r) := by
  unfold create
  cases hfree : r.freeId? with
  | none => exact .inr ⟨rfl, rfl⟩
  | some id => exact .inl ⟨id, rfl, rfl⟩

theorem Orderly.create (h : r.Orderly) (hid : r.freeId? = some id) (factory : F) :
    (r.withNew id factory).recount.Consistent := by
  obtain ⟨hlimit, hfree, -⟩ := freeId?_eq_some hid
  refine consistent_recount ?_ ?_ ?_ ?_
  · have hnew : ∀ j ∈ r.instances, j.id ≠ id := fun j hj hsame => hfree (mem_ids.mpr ⟨j, hj, hsame⟩)
    exact List.pairwise_map.mpr (pairwise_insert hnew (List.pairwise_map.mp h.ascending))
  · intro j hj
    rcases mem_ids_withNew.mp hj with rfl | hj
    · exact hlimit
    · exact h.bounded j hj
  · exact fun j hj => mem_ids_withNew.mpr (.inr (h.focus j hj))
  · intro i hi
    rcases mem_insert.mp hi with rfl | hi
    · rfl
    · exact h.owner i hi

/-- The registry with an instance less, whose end has left these files. -/
def without (r : Registry F M) (id : Nat) (files : FileTree) : Registry F M :=
  let mute := if r.focused = some id then r.world.mute.setFocused none else r.world.mute
  { r with
    world := { r.world with files, mute }
    instances := r.instances.filter fun j => j.id ≠ id }

theorem mem_ids_without {j : Nat} {files : FileTree} :
    j ∈ (r.without id files).ids ↔ j ≠ id ∧ j ∈ r.ids := by
  simp only [mem_ids, without, List.mem_filter, decide_eq_true_eq]
  constructor
  · rintro ⟨i, ⟨hi, hne⟩, rfl⟩
    exact ⟨hne, i, hi, rfl⟩
  · rintro ⟨hne, i, hi, rfl⟩
    exact ⟨i, ⟨hi, hne⟩, rfl⟩

theorem focused_without (files : FileTree) :
    (r.without id files).focused = if r.focused = some id then none else r.focused := by
  show (if r.focused = some id then r.world.mute.setFocused none else r.world.mute).focused = _
  rw [apply_ite MuteState.focused]
  rfl

theorem Orderly.without (h : r.Orderly) (id : Nat) (files : FileTree) :
    (r.without id files).recount.Consistent := by
  refine consistent_recount ?_ ?_ ?_ ?_
  · exact List.pairwise_map.mpr ((List.pairwise_map.mp h.ascending).filter _)
  · exact fun j hj => h.bounded j (mem_ids_without.mp hj).2
  · intro j hj
    rw [focused_without] at hj
    split at hj
    · cases hj
    · next hother =>
      refine mem_ids_without.mpr ⟨?_, h.focus j hj⟩
      rintro rfl
      exact hother hj
  · exact fun i hi => h.owner i (List.mem_of_mem_filter hi)

variable [Machine M] [Factory F M]

theorem destroy_cases (r : Registry F M) (id : Nat) :
    (id ∈ r.ids ∧ ∃ ended files, r.destroy id = (.ok ended, (r.without id files).recount)) ∨
      id ∉ r.ids ∧ r.destroy id = (.error (.unknownInstance id), r) := by
  unfold destroy
  cases hfound : r.find? id with
  | none => exact .inr ⟨find?_eq_none_iff.mp hfound, rfl⟩
  | some i =>
    refine .inl ⟨?_, _, _, rfl⟩
    by_contra hgone
    rw [find?_eq_none_iff.mpr hgone] at hfound
    cases hfound

theorem consistent_destroyAll (r : Registry F M) : r.destroyAll.2.Consistent where
  ascending := .nil
  bounded := by simp [ids, destroyAll]
  counted := rfl
  focus := by simp [focused, destroyAll, MuteState.setFocused]
  owner := by simp [destroyAll]
  muted := by simp [destroyAll]

/-! ## The focus -/

theorem moveFocus_induction {P : Registry F M → Prop} (h : P r)
    (hlose : ∀ s id, P s → P (s.update id Instance.loseFocus))
    (hgain : ∀ s id, P s → P (s.update id Instance.gainFocus)) (focus : Option Nat) :
    P (r.moveFocus focus) := by
  unfold moveFocus
  split
  · exact h
  · cases r.focused with
    | none =>
      cases focus with
      | none => exact h
      | some new => exact hgain r new h
    | some old =>
      cases focus with
      | none => exact hlose r old h
      | some new => exact hgain _ new (hlose r old h)

theorem ids_moveFocus (r : Registry F M) (focus : Option Nat) : (r.moveFocus focus).ids = r.ids :=
  moveFocus_induction (P := fun s => s.ids = r.ids) rfl (fun s id h => (s.ids_update id _).trans h)
    (fun s id h => (s.ids_update id _).trans h) focus

theorem Consistent.moveFocus (h : r.Consistent) (focus : Option Nat) :
    (r.moveFocus focus).Consistent :=
  moveFocus_induction h (fun _ id h => h.update id fun i => i.goes_loseFocus.compliant)
    (fun _ id h => h.update id fun i => i.goes_gainFocus.compliant) focus

def refocus (r : Registry F M) (focus : Option Nat) : Registry F M :=
  { r.moveFocus focus with world.mute := (r.moveFocus focus).world.mute.setFocused focus }

theorem setFocus_cases (r : Registry F M) (focus : Option Nat) :
    ((∀ id, focus = some id → id ∈ r.ids) ∧
        r.setFocus focus = (.ok (), (r.refocus focus).refreshMute)) ∨
      ∃ id, focus = some id ∧ id ∉ r.ids ∧ r.setFocus focus = (.error (.unknownInstance id), r) := by
  unfold setFocus
  cases hunknown : focus.filter fun id => (r.find? id).isNone with
  | none =>
    refine .inl ⟨fun id hid => ?_, rfl⟩
    by_contra hgone
    exact Option.filter_eq_none_iff.mp hunknown id hid (isNone_find?.mpr hgone)
  | some id =>
    obtain ⟨hid, hgone⟩ := Option.filter_eq_some_iff.mp hunknown
    exact .inr ⟨id, hid, isNone_find?.mp hgone, rfl⟩

theorem focused_refocus {focus : Option Nat} (h : ∀ id, focus = some id → id < instanceLimit) :
    (r.refocus focus).focused = focus := by
  cases focus with
  | none => rfl
  | some id =>
    have hlow : id ≠ MuteState.unfocusable := fun hid => absurd (h id rfl) (by rw [hid]; decide)
    show Option.filter (· ≠ MuteState.unfocusable) (some id) = some id
    simp [Option.filter, hlow]

theorem Consistent.refocus (h : r.Consistent) {focus : Option Nat}
    (hlive : ∀ id, focus = some id → id ∈ r.ids) : (r.refocus focus).refreshMute.Consistent := by
  have hmoved := h.moveFocus focus
  have hfocused := focused_refocus (r := r) fun id hid => h.bounded id (hlive id hid)
  refine Orderly.refreshMute ⟨hmoved.ascending, hmoved.bounded, hmoved.counted, ?_, hmoved.owner⟩
  intro id hid
  show id ∈ (r.moveFocus focus).ids
  rw [ids_moveFocus]
  exact hlive id (hfocused.symm.trans hid)

/-! ## Everything that can happen -/

def refusal {α : Type} : Except RegistryError α → Option RegistryError
  | .ok _ => none
  | .error e => some e

/-- Let a change happen, unless it is refused. -/
def attempt (r : Registry F M) : Change F → Option RegistryError × Registry F M
  | .create factory => (r.create factory).map refusal fun s => s
  | .destroy id => (r.destroy id).map refusal fun s => s
  | .destroyAll => (none, r.destroyAll.2)
  | .setFocus focus => (r.setFocus focus).map refusal fun s => s
  | .operate id o => (none, r.update id (·.operate o))
  | .press id input => (none, r.update id (·.mapWorker (·.outside (.input input))))
  | .elapse time files => (none, { r with world.now := r.world.now + time, world.files := files })

def undergo (r : Registry F M) (changes : List (Change F)) : Registry F M :=
  changes.foldl (fun r c => (r.attempt c).2) r

/-- What becomes of ids and focus, and when a change is refused. -/
structure Serves (r : Registry F M) : Prop where
  create (factory : F) : match r.create factory with
    | (.ok id, s) => r.instances.length < instanceLimit ∧ IsLeast {j | j ∉ r.ids} id ∧
        ∀ j, j ∈ s.ids ↔ j = id ∨ j ∈ r.ids
    | (.error e, _) => r.instances.length = instanceLimit ∧ e = .full instanceLimit
  destroy (id : Nat) : match r.destroy id with
    | (.ok _, s) => id ∈ r.ids ∧ (∀ j, j ∈ s.ids ↔ j ≠ id ∧ j ∈ r.ids) ∧
        s.focused = if r.focused = some id then none else r.focused
    | (.error e, _) => id ∉ r.ids ∧ e = .unknownInstance id
  destroyAll : r.destroyAll.2.ids = [] ∧ r.destroyAll.2.focused = none
  setFocus (focus : Option Nat) : match r.setFocus focus with
    | (.ok (), s) => s.focused = focus ∧ s.ids = r.ids
    | (.error e, _) => ∃ id, focus = some id ∧ id ∉ r.ids ∧ e = .unknownInstance id
  /-- Nothing comes of a change that is refused. -/
  refused (c : Change F) : (r.attempt c).1 ≠ none → (r.attempt c).2 = r

theorem attempt_refused (c : Change F) (hrefused : (r.attempt c).1 ≠ none) :
    (r.attempt c).2 = r := by
  cases c with
  | create factory =>
    rcases r.create_cases factory with ⟨id, -, hcreate⟩ | ⟨-, hcreate⟩
    · simp [attempt, hcreate, refusal] at hrefused
    · simp [attempt, hcreate]
  | destroy id =>
    rcases r.destroy_cases id with ⟨-, ended, files, hdestroy⟩ | ⟨-, hdestroy⟩
    · simp [attempt, hdestroy, refusal] at hrefused
    · simp [attempt, hdestroy]
  | setFocus focus =>
    rcases r.setFocus_cases focus with ⟨-, hfocus⟩ | ⟨id, -, -, hfocus⟩
    · simp [attempt, hfocus, refusal] at hrefused
    · simp [attempt, hfocus]
  | destroyAll | operate id o | press id input | elapse time files => exact absurd rfl hrefused

theorem Orderly.serves (h : r.Orderly) : r.Serves where
  create factory := by
    rcases r.create_cases factory with ⟨id, hfree, hcreate⟩ | ⟨hfull, hcreate⟩
    · rw [hcreate]
      obtain ⟨hlimit, hleast⟩ := freeId?_eq_some hfree
      refine ⟨h.length_lt hlimit hleast.1, hleast, fun j => ?_⟩
      rw [ids_recount]
      exact mem_ids_withNew
    · rw [hcreate]
      exact ⟨h.length_eq (freeId?_eq_none hfull), rfl⟩
  destroy id := by
    rcases r.destroy_cases id with ⟨hlive, ended, files, hdestroy⟩ | ⟨hgone, hdestroy⟩
    · rw [hdestroy]
      refine ⟨hlive, fun j => ?_, focused_without files⟩
      rw [ids_recount]
      exact mem_ids_without
    · rw [hdestroy]
      exact ⟨hgone, rfl⟩
  destroyAll := ⟨rfl, rfl⟩
  setFocus focus := by
    rcases r.setFocus_cases focus with ⟨hknown, hfocus⟩ | ⟨id, hid, hgone, hfocus⟩
    · rw [hfocus]
      refine ⟨focused_refocus fun id hid => h.bounded id (hknown id hid), ?_⟩
      exact (ids_refreshMute _).trans (r.ids_moveFocus focus)
    · rw [hfocus]
      exact ⟨id, hid, hgone, rfl⟩
  refused := attempt_refused

/-! ## Runs -/

theorem Consistent.attempt (h : r.Consistent) (c : Change F) : (r.attempt c).2.Consistent := by
  cases c with
  | create factory =>
    show (r.create factory).2.Consistent
    rcases r.create_cases factory with ⟨id, hfree, hcreate⟩ | ⟨-, hcreate⟩
    · rw [hcreate]
      exact h.create hfree factory
    · rw [hcreate]
      exact h
  | destroy id =>
    show (r.destroy id).2.Consistent
    rcases r.destroy_cases id with ⟨-, ended, files, hdestroy⟩ | ⟨-, hdestroy⟩
    · rw [hdestroy]
      exact h.without id files
    · rw [hdestroy]
      exact h
  | destroyAll => exact r.consistent_destroyAll
  | setFocus focus =>
    show (r.setFocus focus).2.Consistent
    rcases r.setFocus_cases focus with ⟨hknown, hfocus⟩ | ⟨id, -, -, hfocus⟩
    · rw [hfocus]
      exact h.refocus hknown
    · rw [hfocus]
      exact h
  | operate id o => exact h.update id fun i => (i.goes_operate o).compliant
  | press id input => exact h.update id fun i => .of_eq rfl rfl rfl
  | elapse time files => exact ⟨⟨h.ascending, h.bounded, h.counted, h.focus, h.owner⟩, h.muted⟩

theorem Consistent.undergo (h : r.Consistent) (changes : List (Change F)) :
    (r.undergo changes).Consistent := by
  induction changes generalizing r with
  | nil => exact h
  | cons c changes ih => exact ih (h.attempt c)

/-- **Whatever happens to a registry**, ids, count, focus and mute flags fit together, a new instance gets
the least id that is free unless all are taken, and nothing comes of a change that is refused. -/
theorem instances_fit_together (config : Config) (files : FileTree) (firmwareDir : Option Path)
    (changes : List (Change F)) :
    let r : Registry F M := (new config files firmwareDir).undergo changes
    r.Consistent ∧ r.Serves := by
  intro r
  have hconsistent : r.Consistent := (consistent_new config files firmwareDir).undergo changes
  exact ⟨hconsistent, hconsistent.serves⟩

-- the focus goes with its instance, and the id is given out again
example :
    let start : Registry ScriptFactory ScriptMachine :=
      new { audio.multiInstance := .activeOnly } (.empty []) none
    let new : Change ScriptFactory := .create ⟨{}, false⟩
    let two := start.undergo [new, new, .setFocus (some 0)]
    let three := two.undergo [new, .destroy 0, .setFocus (some 0), new]
    two.instances.map (fun i => (i.id, i.thread.worker.audio.muted)) = [(0, false), (1, true)] ∧
      three.instances.map (fun i => (i.id, i.thread.worker.audio.muted)) =
        [(0, true), (1, true), (2, true)] := by
  decide

end Registry

end Handheld
