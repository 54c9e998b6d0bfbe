import Handheld.Proofs.Worker.SaveLog

/-!
# Whose file a cartridge image goes to

An image that is pending goes to wherever the cartridge save points when it is written, which need
not be where it pointed when the image was requested (`cart_writes_in_place_iff`). Both can be read
off the journal. An image stays pending across a change of the path when the write before the change
fails, when what was to be booted or inserted fails after a request, and at every undo of a savestate
load; where commands are `Tidy`, none is ever misplaced.
-/

namespace Handheld

/-! ## Reading the journal -/

/-- Where the cartridge save points after these events, newest first, if it was `start` before. -/
def pathAfter (start : Option Path) : List Event → Option Path
  | [] => start
  | .pointed path :: _ => path
  | _ :: earlier => pathAfter start earlier

/-- An image with the path that was in effect when it was requested. -/
structure CartRequest where
  path : Option Path
  image : Bytes
deriving DecidableEq

/-- The latest image requested of the cartridge save among these events, newest first. -/
def latestRequest? (start : Option Path) : List Event → Option CartRequest
  | [] => none
  | .requested _ (.saveCart image _ _) :: earlier => some ⟨pathAfter start earlier, image⟩
  | _ :: earlier => latestRequest? start earlier

/-- Something holds of every write of the cartridge save and what was in the journal before it. -/
def EveryWrite (Q : SaveWrite → List Event → Prop) (journal : List Event) : Prop :=
  ∀ later write earlier, journal = later ++ .wrote .cart write :: earlier → Q write earlier

/-- The image requested last is written, to the path that was in effect at the request. -/
def InPlace (start : Option Path) (write : SaveWrite) (earlier : List Event) : Prop :=
  latestRequest? start earlier = some ⟨some write.path, write.image⟩

instance (start : Option Path) (write : SaveWrite) (earlier : List Event) :
    Decidable (InPlace start write earlier) := inferInstanceAs (Decidable (_ = _))

theorem everyWrite_cons {Q : SaveWrite → List Event → Prop} {e : Event} {journal : List Event} :
    EveryWrite Q (e :: journal) ↔
      (∀ write, e = .wrote .cart write → Q write journal) ∧ EveryWrite Q journal := by
  constructor
  · intro h
    refine ⟨fun write he => h [] write journal (by rw [he]; rfl), fun later write earlier hj => ?_⟩
    exact h (e :: later) write earlier (by rw [hj, List.cons_append])
  · rintro ⟨hnewest, hrest⟩ later write earlier hj
    cases later with
    | nil =>
      obtain ⟨he, rfl⟩ := List.cons.inj hj
      exact hnewest write he
    | cons e' later =>
      obtain ⟨-, htail⟩ := List.cons.inj hj
      exact hrest later write earlier htail

theorem EveryWrite.mono {Q R : SaveWrite → List Event → Prop} {journal : List Event}
    (h : EveryWrite Q journal) (hQR : ∀ write earlier, Q write earlier → R write earlier) :
    EveryWrite R journal :=
  fun later write earlier hj => hQR write earlier (h later write earlier hj)

theorem pathAfter_of_elsewhere (start : Option Path) {e : Event} (h : e.Elsewhere)
    (journal : List Event) : pathAfter start (e :: journal) = pathAfter start journal := by
  cases e with
  | pointed path => exact h.elim
  | _ => rfl

theorem latestRequest?_of_elsewhere (start : Option Path) {e : Event} (h : e.Elsewhere)
    (journal : List Event) : latestRequest? start (e :: journal) = latestRequest? start journal := by
  cases e with
  | requested boot q =>
    cases q with
    | saveCart image offset length => exact h.elim
    | _ => rfl
  | _ => rfl

/-! ## The journal knows the store -/

/-- The journal tells where the save points and which image is pending, and every write so far put
the latest image where the save pointed; where the changes are tidy, that is where it pointed at the
request. -/
structure Ledger (tidy : Prop) (start : Option Path) (l : SaveLog) : Prop where
  path : pathAfter start l.journal = l.store.path
  pending : l.store.pending = true → ∃ r, latestRequest? start l.journal = some r ∧
    r.image = l.store.image ∧ (tidy → r.path = l.store.path)
  writes : EveryWrite (fun write earlier => ∃ r, latestRequest? start earlier = some r ∧
    r.image = write.image ∧ pathAfter start earlier = some write.path ∧
      (tidy → r.path = some write.path)) l.journal

theorem ledger_empty (tidy : Prop) (start : Option Path) : Ledger tidy start ⟨.empty start, []⟩ where
  path := rfl
  pending := fun h => by cases h
  writes := fun later write earlier h => by cases later <;> cases h

theorem Ledger.step {tidy : Prop} {start : Option Path} {l k : SaveLog} (h : Ledger tidy start l)
    (hstep : SaveLog.Step tidy l k) : Ledger tidy start k := by
  cases hstep with
  | @other s journal e he =>
    refine ⟨?_, fun hp => ?_, everyWrite_cons.mpr ⟨fun write hw => ?_, h.writes⟩⟩
    · rw [pathAfter_of_elsewhere start he]
      exact h.path
    · rw [latestRequest?_of_elsewhere start he]
      exact h.pending hp
    · subst hw
      exact he.elim
  | @request s journal boot now image offset length =>
    refine ⟨h.path, fun _ => ?_, everyWrite_cons.mpr ⟨fun write hw => (by cases hw), h.writes⟩⟩
    exact ⟨_, rfl, (s.image_request now image offset length).symm, fun _ => h.path⟩
  | @write s journal write hwrite =>
    obtain ⟨hpending, hpath, himage, hversion⟩ := SaveStore.nextWrite_eq_some hwrite
    obtain ⟨r, hr, hrimage, hrpath⟩ := h.pending hpending
    refine ⟨h.path, fun hp => ?_, everyWrite_cons.mpr ⟨fun w hw => ?_, h.writes⟩⟩
    · -- the version written is the latest one
      have hdone : (s.commit write).pending = false := by simp [SaveStore.commit, hversion]
      rw [hdone] at hp
      cases hp
    · cases hw
      exact ⟨r, hr, hrimage.trans himage.symm, h.path.trans hpath, fun ht => (hrpath ht).trans hpath⟩
  | @point s journal path hpoint =>
    refine ⟨rfl, fun hp => ?_, everyWrite_cons.mpr ⟨fun write hw => (by cases hw), h.writes⟩⟩
    obtain ⟨r, hr, hrimage, hrpath⟩ := h.pending hp
    exact ⟨r, hr, hrimage, fun ht => (hrpath ht).trans (hpoint ht hp)⟩

theorem Ledger.steps {tidy : Prop} {start : Option Path} {l k : SaveLog} (h : Ledger tidy start l)
    (hsteps : Relation.ReflTransGen (SaveLog.Step tidy) l k) : Ledger tidy start k := by
  induction hsteps with
  | refl => exact h
  | tail _ hstep ih => exact ih.step hstep

namespace Worker

variable {F M : Type} [Machine M] [Factory F M]

/-- **Where cartridge images go.** Along every run of a worker, each write of the cartridge save holds
the image requested last, and is in the path that was in effect at that request exactly if the save
is still, or again, pointed there when it is written. Where every command that is carried out is tidy,
all writes are in place. -/
theorem cart_writes_in_place_iff (id : Nat) (factory : F) (world : World)
    (cartSave firmwareSave : Option Path) (audio : Pipeline) (mic : MicInput) (acts : List (Act F)) :
    let w : Worker F M := .new id factory world cartSave firmwareSave audio mic
    EveryWrite
      (fun write earlier => ∃ r, latestRequest? cartSave earlier = some r ∧ r.image = write.image ∧
        (InPlace cartSave write earlier ↔ pathAfter cartSave earlier = r.path))
      (w.run acts).journal ∧
    (w.Along TidyStep acts → EveryWrite (InPlace cartSave) (w.run acts).journal) := by
  intro w
  have h : Ledger (w.Along TidyStep acts) cartSave (w.run acts).saveLog :=
    (ledger_empty _ cartSave).steps (w.moves_run acts fun ht => ht)
  refine ⟨h.writes.mono fun write earlier hw => ?_,
    fun ht => h.writes.mono fun write earlier hw => ?_⟩
  · obtain ⟨r, hr, himage, hpath, -⟩ := hw
    refine ⟨r, hr, himage, ?_⟩
    rw [InPlace, hr, hpath, ← himage]
    constructor
    · intro heq
      rw [Option.some.inj heq]
    · intro heq
      rw [heq]
  · obtain ⟨r, hr, himage, -, hrpath⟩ := hw
    rw [InPlace, hr, ← himage, ← hrpath ht]

/-- What a first cartridge saves is written when it is taken out. -/
theorem cart_write_in_place_at_ejection :
    let w : Worker ScriptFactory ScriptMachine :=
      rehearsal { saveEvery := 1 } ⟨[], [([['a']], .file #[])]⟩
    let acts : List (Act ScriptFactory) :=
      [.take ⟨.bootRom [⟨['a']⟩], none⟩, .take ⟨.run, none⟩, .frame [], .take ⟨.ejectCart, none⟩]
    EveryWrite (InPlace none) (w.run acts).journal ∧ (w.run acts).cart.flushCount = 1 := by
  intro w acts
  have hboot : w.TidyStep (.take ⟨.bootRom [⟨['a']⟩], none⟩) := by
    intro e he _
    cases he
    exact ⟨by decide, by decide⟩
  have hrun : ∀ v : Worker ScriptFactory ScriptMachine, v.TidyStep (.take ⟨.run, none⟩) := by
    intro v e he _
    cases he
    trivial
  have heject : (w.run (acts.take 3)).TidyStep (.take ⟨.ejectCart, none⟩) := by
    intro e he _
    cases he
    show (useIfAny _ _ _).flushCart.1 = true
    decide
  have htidy : w.Along TidyStep acts :=
    along_cons.mpr ⟨hboot, along_cons.mpr ⟨hrun _, along_cons.mpr ⟨nofun,
      along_cons.mpr ⟨heject, along_nil _ _⟩⟩⟩⟩
  exact ⟨(cart_writes_in_place_iff 0 _ _ none none _ _ acts).2 htidy, by decide⟩

/-- A second cartridge saves, an undo goes back to the file of the first without a write, and the
image of the second ends up there. -/
theorem cart_write_misplaced_by_undo :
    let w : Worker ScriptFactory ScriptMachine :=
      rehearsal { saveEvery := 1 } ⟨[], [([['a']], .file #[]), ([['b']], .file #[])]⟩
    let v := w.passes
      [[⟨.bootRom [⟨['a']⟩], none⟩, ⟨.run, none⟩, ⟨.saveState ⟨['s']⟩, none⟩,
        ⟨.loadState ⟨['s']⟩, none⟩, ⟨.insertCart [⟨['b']⟩], none⟩],
      [⟨.undoLoad, none⟩, ⟨.ejectCart, none⟩]]
    ¬EveryWrite (InPlace none) v.journal := by
  intro w v h
  let write : SaveWrite := ⟨⟨"a.sav".toList⟩, Array.replicate 16 1, 1⟩
  have hjournal : v.journal = v.journal.take 1 ++ .wrote .cart write :: v.journal.drop 2 := by decide
  have hplace : ¬InPlace none write (v.journal.drop 2) := by decide
  exact hplace (h _ write _ hjournal)

end Worker

end Handheld
