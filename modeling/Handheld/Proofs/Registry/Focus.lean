import Handheld.Proofs.Instance.Focus
import Handheld.Proofs.Registry.Consistent

/-!
# Pauses of instances that lose and gain the focus

While instances come and go, the focus moves and others give commands, each instance is kept
(`Instance.Kept`), and the flag of its focus pause is set where that is wanted and the instance had the
focus before and lost it (`Minds`). So the pauses of an instance are those of others and that of the focus,
as long as nobody else clears them (`pauses_follow_focus`). If others do, the flag may be set while its
pause is gone, and the release that goes with the focus takes a pause of somebody else
(`paused_after_focus_gain_iff`).
-/

namespace Handheld

open WorkerThread (keeper)

namespace Registry

/-- What can be done with a registry while its workers go on by themselves. -/
inductive Move (F : Type) where
  | change (c : Change F)
  /-- Commands are sent to an instance, whose worker goes on as it likes. -/
  | course (id : Nat) (course : List (Happening F))

variable {F M : Type} {r : Registry F M}

/-- Only some commands are given, no hotkey is pressed, and only the registry tells of the focus. -/
def Move.Within (others : Envelope → Prop) : Move F → Prop
  | .change (.operate _ o) => o.Within others
  | .change (.press _ input) => input.hotkeysDown = {}
  | .change _ => True
  | .course _ happenings => ∀ a ∈ happenings, WorkerThread.Common others a

/-! ## Instances that lose and gain the focus -/

/-- An instance that is kept, with its flag set if that is wanted, it had the focus and is without it. -/
structure Minds (others : Envelope → Prop) (setting : Bool) (had : List Nat) (focus : Option Nat)
    (i : Instance F M) : Prop where
  kept : i.Kept others
  wanted : i.pauseOnFocusLoss = setting
  flag : i.focusPaused = true ↔ setting = true ∧ i.id ∈ had ∧ focus ≠ some i.id

variable {others : Envelope → Prop} {setting : Bool} {had : List Nat} {focus : Option Nat}
  {i : Instance F M}

theorem Minds.elsewhere (h : Minds others setting had focus i) {now : Option Nat}
    (hfocus : focus ≠ some i.id) (hnow : now ≠ some i.id) : Minds others setting had now i where
  kept := h.kept
  wanted := h.wanted
  flag := by simpa [hfocus, hnow] using h.flag

theorem Minds.proceeds (h : Minds others setting had focus i) {j : Instance F M}
    (hij : i.Proceeds others j) (hid : j.id = i.id) : Minds others setting had focus j where
  kept := h.kept.proceeds hij
  wanted := hij.wanted.trans h.wanted
  flag := by rw [hij.flag, hid, h.flag]

theorem Minds.lend (h : Minds others setting had focus i) (world : World) :
    Minds others setting had focus (lend world i) := h.proceeds (i.proceeds_world h.kept.tame world) rfl

theorem minds_new {id : Nat} (hid : id ∉ had) (config : Config) (factory : F) (world : World)
    (firmwareSave : Option Path) : Minds others config.emu.pauseOnFocusLoss had focus
      (.new id config factory world firmwareSave : Instance F M) where
  kept := Instance.kept_new id config factory world firmwareSave
  wanted := rfl
  flag := ⟨nofun, fun h => absurd h.2.1 hid⟩

variable [Machine M] [Factory F M]

theorem Minds.loseFocus (h : Minds others setting had (some i.id) i) (haloof : Aloof others keeper)
    (hhad : i.id ∈ had) : Minds others setting had none i.loseFocus := by
  obtain ⟨hkept, hset⟩ := h.kept.loseFocus haloof
  have hunset : i.focusPaused = false := Bool.eq_false_iff.mpr fun hflag => (h.flag.mp hflag).2.2 rfl
  refine ⟨hkept, i.pauseOnFocusLoss_loseFocus.trans h.wanted, ?_⟩
  rw [hset, hunset, h.wanted, Bool.or_false, i.id_loseFocus]
  exact ⟨fun hsetting => ⟨hsetting, hhad, nofun⟩, And.left⟩

theorem Minds.gainFocus (h : Minds others setting had focus i) (haloof : Aloof others keeper) :
    Minds others setting had (some i.id) i.gainFocus := by
  obtain ⟨hkept, hunset⟩ := h.kept.gainFocus haloof
  refine ⟨hkept, i.pauseOnFocusLoss_gainFocus.trans h.wanted, ?_⟩
  rw [hunset, i.id_gainFocus]
  exact ⟨nofun, fun haway => absurd rfl haway.2.2⟩

omit [Machine M] [Factory F M] in
theorem minds_refreshMute (h : ∀ i ∈ r.instances, Minds others setting had focus i) :
    ∀ i ∈ r.refreshMute.instances, Minds others setting had focus i := by
  intro j hj
  obtain ⟨i, hi, rfl⟩ := List.mem_map.mp hj
  have hlent := (h i hi).lend r.world
  exact hlent.proceeds (Instance.proceeds_audio hlent.kept.tame _ rfl) rfl

omit [Machine M] [Factory F M] in
theorem minds_update {id : Nat} {now : Option Nat} {f : Instance F M → Instance F M}
    (hf : ∀ i, (f i).id = i.id) (h : ∀ i ∈ r.instances, Minds others setting had focus i)
    (hthere : ∀ i : Instance F M, i.id ≠ id → Minds others setting had focus i →
      Minds others setting had now i)
    (hhere : ∀ i : Instance F M, i.id = id → Minds others setting had focus i →
      Minds others setting had now (f i)) :
    ∀ j ∈ (r.update id f).instances, Minds others setting had now j := by
  intro j hj
  rcases mem_update hf hj with ⟨hj, hid⟩ | ⟨i, hi, hid, rfl⟩
  · exact hthere j hid (h j hj)
  · exact hhere (Registry.lend r.world i) hid ((h i hi).lend r.world)

theorem minds_withdraw {old : Nat} (h : ∀ i ∈ r.instances, Minds others setting had (some old) i)
    (hhad : old ∈ had) (haloof : Aloof others keeper) :
    ∀ i ∈ (r.update old Instance.loseFocus).instances, Minds others setting had none i := by
  refine minds_update Instance.id_loseFocus h ?_ ?_
  · intro i hid hi
    exact hi.elsewhere (fun hold => hid (Option.some.inj hold).symm) (Option.some_ne_none i.id).symm
  · rintro i rfl hi
    exact hi.loseFocus haloof hhad

theorem minds_grant (h : ∀ i ∈ r.instances, Minds others setting had none i)
    (haloof : Aloof others keeper) (new : Nat) :
    ∀ i ∈ (r.update new Instance.gainFocus).instances, Minds others setting had (some new) i := by
  refine minds_update Instance.id_gainFocus h ?_ ?_
  · intro i hid hi
    exact hi.elsewhere (Option.some_ne_none i.id).symm fun hnew => hid (Option.some.inj hnew).symm
  · rintro i rfl hi
    exact hi.gainFocus haloof

theorem minds_moveFocus (h : ∀ i ∈ r.instances, Minds others setting had r.focused i)
    (hhad : ∀ id, r.focused = some id → id ∈ had) (haloof : Aloof others keeper) (focus : Option Nat) :
    ∀ i ∈ (r.moveFocus focus).instances, Minds others setting had focus i := by
  unfold moveFocus
  split
  · next hsame => exact hsame ▸ h
  · cases hfocused : r.focused with
    | none =>
      rw [hfocused] at h
      cases focus with
      | none => exact h
      | some new => exact minds_grant h haloof new
    | some old =>
      rw [hfocused] at h
      have hlost := minds_withdraw h (hhad old hfocused) haloof
      cases focus with
      | none => exact hlost
      | some new => exact minds_grant hlost haloof new

/-! ## Runs -/

/-- Of the instances alive, those that have the focus or had it before. -/
def regulars (r : Registry F M) (had : List Nat) : List Nat :=
  r.ids.filter fun id => id ∈ had ∨ r.focused = some id

/-- Each instance minds the focus, which is with one of them. -/
structure Watched (others : Envelope → Prop) (setting : Bool) (had : List Nat) (r : Registry F M) :
    Prop where
  wanted : r.config.emu.pauseOnFocusLoss = setting
  bounded : ∀ id ∈ r.ids, id < instanceLimit
  focus : ∀ id, r.focused = some id → id ∈ r.ids ∧ id ∈ had
  alive : ∀ id ∈ had, id ∈ r.ids
  minds : ∀ i ∈ r.instances, Minds others setting had r.focused i

omit [Machine M] [Factory F M] in
theorem watched_regulars (hwanted : r.config.emu.pauseOnFocusLoss = setting)
    (hbounded : ∀ id ∈ r.ids, id < instanceLimit) (hfocus : ∀ id, r.focused = some id → id ∈ r.ids)
    (hminds : ∀ i ∈ r.instances, Minds others setting had r.focused i) :
    Watched others setting (r.regulars had) r where
  wanted := hwanted
  bounded := hbounded
  focus := fun id hid => ⟨hfocus id hid, List.mem_filter.mpr ⟨hfocus id hid, by simp [hid]⟩⟩
  alive := fun id hid => (List.mem_filter.mp hid).1
  minds := by
    intro i hi
    obtain ⟨hkept, hwanted, hflag⟩ := hminds i hi
    refine ⟨hkept, hwanted, hflag.trans ?_⟩
    have hlive : i.id ∈ r.ids := mem_ids.mpr ⟨i, hi, rfl⟩
    simp only [regulars, List.mem_filter, decide_eq_true_eq, hlive, true_and]
    tauto

def move (r : Registry F M) : Move F → Registry F M
  | .change c => (r.attempt c).2
  | .course id happenings => r.update id (·.undergo happenings)

omit [Machine M] [Factory F M] in
theorem Watched.update (h : Watched others setting had r) {id : Nat} {f : Instance F M → Instance F M}
    (hid : ∀ i, (f i).id = i.id) (hf : ∀ i : Instance F M, i.Kept others → i.Proceeds others (f i)) :
    Watched others setting ((r.update id f).regulars had) (r.update id f) := by
  have hfocused : (r.update id f).focused = r.focused := congrArg MuteState.focused (r.mute_update id f)
  have hids := r.ids_update id f
  refine watched_regulars (r.config_update id f ▸ h.wanted) (hids ▸ h.bounded) ?_ ?_
  · intro focus hfocus
    rw [hids]
    exact (h.focus focus (hfocused ▸ hfocus)).1
  · rw [hfocused]
    exact minds_update hid h.minds (fun i _ hi => hi) fun i _ hi => hi.proceeds (hf i hi.kept) (hid i)

omit [Machine M] [Factory F M] in
theorem Watched.again (h : Watched others setting had r) : Watched others setting (r.regulars had) r :=
  watched_regulars h.wanted h.bounded (fun id hid => (h.focus id hid).1) h.minds

omit [Machine M] [Factory F M] in
theorem Watched.create (h : Watched others setting had r) (factory : F) :
    Watched others setting ((r.create factory).2.regulars had) (r.create factory).2 := by
  rcases r.create_cases factory with ⟨id, hid, hcreate⟩ | ⟨-, hcreate⟩
  · obtain ⟨hlimit, hfree, -⟩ := freeId?_eq_some hid
    rw [hcreate]
    refine watched_regulars h.wanted ?_ ?_ (minds_refreshMute ?_)
    · intro j hj
      rw [ids_recount] at hj
      rcases mem_ids_withNew.mp hj with rfl | hj
      · exact hlimit
      · exact h.bounded j hj
    · intro j hj
      rw [ids_recount]
      exact mem_ids_withNew.mpr (.inr (h.focus j hj).1)
    · intro i hi
      rcases mem_insert.mp hi with rfl | hi
      · have hnew : id ∉ had := fun hhad => hfree (h.alive id hhad)
        exact h.wanted ▸ minds_new hnew r.config factory r.world (r.firmwareSave id)
      · exact h.minds i hi
  · rw [hcreate]
    exact h.again

theorem Watched.destroy (h : Watched others setting had r) (id : Nat) :
    Watched others setting ((r.destroy id).2.regulars had) (r.destroy id).2 := by
  rcases r.destroy_cases id with ⟨-, ended, files, hdestroy⟩ | ⟨-, hdestroy⟩
  · have hfocused : (r.without id files).recount.focused =
        if r.focused = some id then none else r.focused := focused_without files
    rw [hdestroy]
    refine watched_regulars h.wanted ?_ ?_ (minds_refreshMute ?_)
    · intro j hj
      rw [ids_recount] at hj
      exact h.bounded j (mem_ids_without.mp hj).2
    · intro j hj
      rw [hfocused] at hj
      split at hj
      · cases hj
      · next hother =>
        rw [ids_recount]
        exact mem_ids_without.mpr ⟨fun hsame => hother (hsame ▸ hj), (h.focus j hj).1⟩
    · intro i hi
      obtain ⟨hi, hne⟩ := List.mem_filter.mp hi
      rw [hfocused]
      split
      · next hhere =>
        refine (h.minds i hi).elsewhere (fun hsame => ?_) nofun
        rw [hhere] at hsame
        simp [Option.some.inj hsame] at hne
      · exact h.minds i hi
  · rw [hdestroy]
    exact h.again

theorem Watched.setFocus (h : Watched others setting had r) (haloof : Aloof others keeper)
    (focus : Option Nat) :
    Watched others setting ((r.setFocus focus).2.regulars had) (r.setFocus focus).2 := by
  rcases r.setFocus_cases focus with ⟨hlive, hfocus⟩ | ⟨id, -, -, hfocus⟩
  · have hfocused := focused_refocus (r := r) fun id hid => h.bounded id (hlive id hid)
    have hids : (r.refocus focus).refreshMute.ids = r.ids :=
      (ids_refreshMute _).trans (r.ids_moveFocus focus)
    have hconfig : (r.moveFocus focus).config = r.config :=
      moveFocus_induction (P := fun s => s.config = r.config) rfl
        (fun s id h => (s.config_update id _).trans h) (fun s id h => (s.config_update id _).trans h) focus
    rw [hfocus]
    refine watched_regulars (hconfig ▸ h.wanted) (hids ▸ h.bounded) ?_ (minds_refreshMute ?_)
    · intro id hid
      rw [hids]
      exact hlive id (hfocused.symm.trans hid)
    · have hmoved := minds_moveFocus h.minds (fun id hid => (h.focus id hid).2) haloof focus
      exact hfocused.symm ▸ hmoved
  · rw [hfocus]
    exact h.again

/-- **Each move leaves** every instance to mind the focus. -/
theorem Watched.move (h : Watched others setting had r) (haloof : Aloof others keeper) {m : Move F}
    (hm : m.Within others) : Watched others setting ((r.move m).regulars had) (r.move m) := by
  cases m with
  | course id happenings =>
    exact h.update (fun i => i.id_undergo happenings) fun i hi => i.proceeds_undergo hi.tame haloof hm
  | change c =>
    cases c with
    | create factory => exact h.create factory
    | destroy id => exact h.destroy id
    | destroyAll =>
      exact watched_regulars h.wanted (by simp [ids, Registry.move, attempt, destroyAll])
        (by simp [focused, Registry.move, attempt, destroyAll, MuteState.setFocused])
        (by simp [Registry.move, attempt, destroyAll])
    | setFocus focus => exact h.setFocus haloof focus
    | operate id o =>
      exact h.update (fun i => (i.goes_operate o).compliant.id) fun i hi =>
        i.proceeds_operate hi.tame haloof hm
    | press id input =>
      have hpress : ∀ a ∈ [Happening.outside (.input input)], WorkerThread.Common (F := F) others a := by
        refine List.forall_mem_singleton.mpr fun pressed hpressed => ?_
        obtain rfl := Outside.input.inj hpressed
        exact hm
      exact h.update (fun _ => rfl) fun i hi => i.proceeds_undergo hi.tame haloof hpress
    | elapse time files =>
      exact watched_regulars h.wanted h.bounded (fun id hid => (h.focus id hid).1) h.minds

def moved (r : Registry F M) (moves : List (Move F)) : Registry F M := moves.foldl move r

/-- The instances alive after some moves that have had the focus, given those that had it before. -/
def hadFocus (r : Registry F M) (had : List Nat) : List (Move F) → List Nat
  | [] => had
  | m :: moves => (r.move m).hadFocus ((r.move m).regulars had) moves

theorem Watched.moved (h : Watched others setting had r) (haloof : Aloof others keeper)
    {moves : List (Move F)} (hmoves : ∀ m ∈ moves, m.Within others) :
    Watched others setting (r.hadFocus had moves) (r.moved moves) := by
  induction moves generalizing r had with
  | nil => exact h
  | cons m moves ih =>
    obtain ⟨hm, hrest⟩ := List.forall_mem_cons.mp hmoves
    exact ih (h.move haloof hm) hrest

omit [Machine M] [Factory F M] in
theorem watched_new (config : Config) (files : FileTree) (firmwareDir : Option Path) :
    Watched others config.emu.pauseOnFocusLoss [] (new config files firmwareDir : Registry F M) where
  wanted := rfl
  bounded := by simp [ids, new]
  focus := by simp [focused, new]
  alive := by simp
  minds := by simp [new]

/-! ## The pauses of an instance -/

/-- An instance that is not to be paused with the focus, and is not. -/
structure Heedless (i : Instance F M) : Prop where
  unwanted : i.pauseOnFocusLoss = false
  unset : i.focusPaused = false

/-- The depth of the pauses of an instance, as everybody sees it. -/
def depth? (r : Registry F M) (id : Nat) : Option Nat := (r.find? id).map (·.shown.depth)

omit [Machine M] [Factory F M] in
theorem depth?_update {s : Registry F M} {f : Instance F M → Instance F M} (id : Nat)
    (hf : ∀ i, (f i).id = i.id) (hheedless : ∀ i, Heedless i → f i = i)
    (h : (∀ i ∈ s.instances, Heedless i) ∧ s.depth? = r.depth?) :
    (∀ i ∈ (s.update id f).instances, Heedless i) ∧ (s.update id f).depth? = r.depth? := by
  obtain ⟨hs, hdepth⟩ := h
  have hlend : ∀ i ∈ s.instances, f (lend s.world i) = lend s.world i := fun i hi =>
    hheedless _ ⟨(hs i hi).unwanted, (hs i hi).unset⟩
  refine ⟨fun j hj => ?_, ?_⟩
  · rcases mem_update hf hj with ⟨hj, -⟩ | ⟨i, hi, -, rfl⟩
    · exact hs j hj
    · rw [hlend i hi]
      exact ⟨(hs i hi).unwanted, (hs i hi).unset⟩
  · rw [← hdepth]
    funext j
    rw [depth?, depth?, find?_update hf]
    split
    · next hj =>
      rw [hj]
      cases hi : s.find? id with
      | none => rfl
      | some i =>
        rw [Option.map_some, hlend i (mem_of_find? hi).1]
        rfl
    · rfl

/-- Where it is not wanted, the focus moves without changing any pauses. -/
theorem depth?_setFocus (h : ∀ i ∈ r.instances, Heedless i) (focus : Option Nat) :
    (r.setFocus focus).2.depth? = r.depth? := by
  rcases r.setFocus_cases focus with ⟨-, hfocus⟩ | ⟨id, -, -, hfocus⟩
  · have hmoved : (∀ i ∈ (r.moveFocus focus).instances, Heedless i) ∧
        (r.moveFocus focus).depth? = r.depth? :=
      moveFocus_induction (P := fun s => (∀ i ∈ s.instances, Heedless i) ∧ s.depth? = r.depth?) ⟨h, rfl⟩
        (fun s id => depth?_update id Instance.id_loseFocus fun i hi => by
          simp [Instance.loseFocus, hi.unwanted])
        (fun s id => depth?_update id Instance.id_gainFocus fun i hi => by
          simp [Instance.gainFocus, hi.unset])
        focus
    rw [hfocus, ← hmoved.2]
    funext j
    rw [depth?, find?_refreshMute, Option.map_map]
    rfl
  · rw [hfocus]

/-- **The pauses of an instance**, while others release no more than is theirs and clear none, are those of
others and one more for the focus; that one is there if it is wanted, and the instance had the focus and is
without it. -/
theorem pauses_follow_focus (config : Config) (files : FileTree) (firmwareDir : Option Path)
    {moves : List (Move F)} (hmoves : ∀ m ∈ moves, m.Within Envelope.Gentle) :
    let start : Registry F M := new config files firmwareDir
    let r := start.moved moves
    (∀ i ∈ r.instances,
      (r.focused = some i.id → i.focusPaused = false) ∧
        (i.focusPaused = true ↔ config.emu.pauseOnFocusLoss = true ∧
          i.id ∈ start.hadFocus [] moves ∧ r.focused ≠ some i.id) ∧
        (Fair i.journal → i.shown.depth + orders .unpause i.journal =
          orders .pause i.journal + i.focusPaused.toNat)) ∧
      (config.emu.pauseOnFocusLoss = false → ∀ focus, (r.setFocus focus).2.depth? = r.depth?) := by
  intro start r
  have h : Watched Envelope.Gentle config.emu.pauseOnFocusLoss (start.hadFocus [] moves) r :=
    (watched_new config files firmwareDir).moved aloof_gentle hmoves
  refine ⟨fun i hi => ?_, fun hunwanted focus => depth?_setFocus (fun i hi => ?_) focus⟩
  · obtain ⟨hkept, -, hflag⟩ := h.minds i hi
    refine ⟨fun hfocused => Bool.eq_false_iff.mpr fun hset => (hflag.mp hset).2.2 hfocused, hflag, ?_⟩
    intro hfair
    obtain ⟨n, horders, htally⟩ := hkept.log.exact hfair
    rw [hkept.depth]
    change tally i.journal = _ at htally
    change orders .unpause i.journal + n = orders .pause i.journal at horders
    rw [htally, ← horders]
    show n + i.focusPaused.toNat + _ = _
    omega
  · obtain ⟨-, hwanted, hflag⟩ := h.minds i hi
    refine ⟨hwanted.trans hunwanted, Bool.eq_false_iff.mpr fun hset => ?_⟩
    have hset := (hflag.mp hset).1
    rw [hunwanted] at hset
    cases hset

/-- An instance loses the focus while somebody else has paused it. -/
theorem pauses_follow_focus_twice :
    let start : Registry ScriptFactory ScriptMachine :=
      new { emu.pauseOnFocusLoss := true } (.empty []) none
    let moves : List (Move ScriptFactory) := [.change (.create ⟨{}, false⟩), .change (.create ⟨{}, false⟩),
      .change (.setFocus (some 0)), .change (.operate 0 (.ask .pause)), .change (.setFocus (some 1))]
    let r := start.moved moves
    (∀ m ∈ moves, m.Within Envelope.Gentle) ∧ ∃ i ∈ r.instances, i.id = 0 ∧ i.focusPaused = true ∧
      i.id ∈ start.hadFocus [] moves ∧ orders .pause i.journal = 1 ∧ orders .unpause i.journal = 0 ∧
      i.shown.depth = 2 := by
  intro start moves r
  have hmoves : ∀ m ∈ moves, m.Within Envelope.Gentle := by
    simp [moves, Move.Within, Instance.Operation.Within, Envelope.Gentle, keeper, WorkerThread.director]
  have hends : (r.find? 0).map (fun i => (i.focusPaused, decide (Fair i.journal),
      orders .pause i.journal, orders .unpause i.journal)) = some (true, true, 1, 0) := by
    decide +kernel
  obtain ⟨i, hi, hends⟩ := Option.map_eq_some_iff.mp hends
  obtain ⟨hflag, hfair, hpauses, hreleases⟩ : i.focusPaused = true ∧ decide (Fair i.journal) = true ∧
      orders .pause i.journal = 1 ∧ orders .unpause i.journal = 0 := by simpa using hends
  obtain ⟨hmem, hid⟩ := mem_of_find? hi
  obtain ⟨-, haway, hdepth⟩ :=
    (pauses_follow_focus { emu.pauseOnFocusLoss := true } (.empty []) none hmoves).1 i hmem
  have hdepth := hdepth (of_decide_eq_true hfair)
  rw [hpauses, hreleases, hflag] at hdepth
  exact ⟨hmoves, i, hmem, hid, hflag, (haway.mp hflag).2.1, hpauses, hreleases, hdepth⟩

/-! ## Pauses of somebody else -/

theorem find?_setFocus {id : Nat} (hlive : id ∈ r.ids) (hfocus : r.focused ≠ some id) :
    ∃ before after, (r.setFocus (some id)).2.find? id =
      (r.find? id).map fun i => (lend after (lend before i).gainFocus).refreshMute := by
  obtain ⟨before, hmoved⟩ : ∃ before, (r.moveFocus (some id)).find? id =
      (r.find? id).map fun i => (lend before i).gainFocus := by
    unfold moveFocus
    rw [if_neg hfocus]
    cases hfocused : r.focused with
    | none =>
      refine ⟨r.world, ?_⟩
      rw [find?_update Instance.id_gainFocus, if_pos rfl]
    | some old =>
      have hother : id ≠ old := fun hsame => hfocus (hsame ▸ hfocused)
      refine ⟨(r.update old Instance.loseFocus).world, ?_⟩
      dsimp only
      rw [find?_update Instance.id_gainFocus, if_pos rfl,
        find?_update Instance.id_loseFocus, if_neg hother]
  rcases r.setFocus_cases (some id) with ⟨-, hset⟩ | ⟨other, hother, hgone, -⟩
  · refine ⟨before, (r.refocus (some id)).world, ?_⟩
    rw [hset, find?_refreshMute]
    show Option.map _ ((r.moveFocus (some id)).find? id) = _
    rw [hmoved, Option.map_map]
    rfl
  · obtain rfl := Option.some.inj hother
    exact absurd hlive hgone

/-- **An instance that gains the focus** keeps the pauses of others, unless the flag is set while its own
pause is gone: then one of theirs is released, and if it was the only one, the instance is not paused any
more. -/
theorem paused_after_focus_gain_iff (config : Config) (files : FileTree) (firmwareDir : Option Path)
    {moves : List (Move F)} (hmoves : ∀ m ∈ moves, m.Within Envelope.Ordinary) {id : Nat} {i : Instance F M}
    (hi : ((new config files firmwareDir).moved moves).find? id = some i)
    (hfocus : ((new config files firmwareDir : Registry F M).moved moves).focused ≠ some id) :
    ∃ j l, (((new config files firmwareDir).moved moves).setFocus (some id)).2.find? id = some j ∧
      i.Gained j l ∧ (0 < l.asked → l.lost = 0 →
        (j.Paused ↔ ¬(i.focusPaused = true ∧ l.own = 0 ∧ l.held = 1))) := by
  have h := (watched_new (F := F) (M := M) config files firmwareDir).moved aloof_ordinary hmoves
  obtain ⟨hmem, hid⟩ := mem_of_find? hi
  obtain ⟨before, after, hset⟩ := find?_setFocus (mem_ids.mpr ⟨i, hmem, hid⟩) hfocus
  have hlent := ((h.minds i hmem).lend before).kept
  obtain ⟨l, hgained⟩ := hlent.gained aloof_ordinary
  have hgained : i.Gained (lend after (lend before i).gainFocus).refreshMute l :=
    ⟨hgained.told, hgained.bounded, hgained.depth, hgained.paused⟩
  rw [hi] at hset
  exact ⟨_, l, hset, hgained, hgained.paused_iff⟩

/-- Somebody else pauses an instance that is paused by the focus, and the focus comes back. -/
theorem paused_after_focus_gain_twice :
    let start : Registry ScriptFactory ScriptMachine :=
      new { emu.pauseOnFocusLoss := true } (.empty []) none
    let moves : List (Move ScriptFactory) := [.change (.create ⟨{}, false⟩), .change (.create ⟨{}, false⟩),
      .change (.setFocus (some 0)), .change (.setFocus (some 1)), .change (.operate 0 (.ask .pause))]
    let r := start.moved moves
    (∀ m ∈ moves, m.Within Envelope.Ordinary) ∧ r.focused ≠ some 0 ∧ ∃ i j l, r.find? 0 = some i ∧
      (r.setFocus (some 0)).2.find? 0 = some j ∧ i.Gained j l ∧ i.focusPaused = true ∧
      j.shown.depth = 1 ∧ (0 < l.asked → l.lost = 0 → ¬(l.own = 0 ∧ l.held = 1)) := by
  intro start moves r
  have hmoves : ∀ m ∈ moves, m.Within Envelope.Ordinary := by
    simp [moves, Move.Within, Instance.Operation.Within, Envelope.Ordinary, keeper, WorkerThread.director]
  have hfocus : r.focused ≠ some 0 := by decide +kernel
  have hbefore : (r.find? 0).map (·.focusPaused) = some true := by decide +kernel
  have hafter : (r.setFocus (some 0)).2.depth? 0 = some 1 := by decide +kernel
  obtain ⟨i, hi, hset⟩ := Option.map_eq_some_iff.mp hbefore
  obtain ⟨j, l, hj, hgained, hiff⟩ := paused_after_focus_gain_iff { emu.pauseOnFocusLoss := true }
    (.empty []) none hmoves hi hfocus
  have hdepth : j.shown.depth = 1 := by
    change ((r.setFocus (some 0)).2.find? 0).map _ = _ at hafter
    have hj : (r.setFocus (some 0)).2.find? 0 = some j := hj
    rw [hj] at hafter
    exact Option.some.inj hafter
  refine ⟨hmoves, hfocus, i, j, l, hi, hj, hgained, hset, hdepth, fun hasked hlost hdrifted => ?_⟩
  exact (hiff hasked hlost).mp (hgained.paused (by omega)) ⟨hset, hdrifted⟩

/-- Somebody else runs an instance that is paused by the focus and pauses it again; then the focus comes
back. -/
theorem focus_gain_ends_pause :
    let start : Registry ScriptFactory ScriptMachine :=
      new { emu.pauseOnFocusLoss := true } (.empty []) none
    let create : Move ScriptFactory := .change (.create ⟨{}, false⟩)
    let focus : Nat → Move ScriptFactory := fun id => .change (.setFocus (some id))
    let ask : Command → Move ScriptFactory := fun c => .change (.operate 0 (.ask c))
    let r := start.moved [create, create, ask .bootFirmware, ask .run, focus 0, focus 1, ask .run,
      ask .pause]
    ((r.find? 0).map fun i => (tally i.journal, i.shown.status, i.shown.depth)) =
        some ({ asked := 1, held := 1 }, .paused, 1) ∧
      (((r.move (focus 0)).find? 0).map fun i => (i.shown.status, i.shown.depth)) =
        some (.running, 0) := by
  decide +kernel

end Registry

end Handheld
