import Handheld.Proofs.Worker.Lifetimes
import Handheld.Proofs.Worker.Undoing

/-!
# What becomes of a backup

A backup holds a state of the machine, and the path that the cartridge save had then. An undo that succeeds
points the save back there if there was a path. If there was none, the save stays where it points by then,
which may be the file of a cartridge that was inserted since (`undo_restores_path_iff`).

A backup stays with its machine until another load, or an undo, and an undo uses it up whether the machine
takes the state or refuses it (`backup_lasts_until_undo_iff`). That nothing else takes it away is read off
the standing: to keep and to forget take a license, and a start, which clears it, brings another machine
(`Standing.backup_eq_steps`).
-/

namespace Handheld

namespace Standing

variable {may : License → Prop} {s t : Standing} {boot : Nat}

theorem Ordered.callsTo_ne_nil (h : s.Ordered) (hboot : s.boot = some boot) :
    callsTo boot s.journal ≠ [] := by
  obtain ⟨later, hlater, -⟩ := (h.lived boot (.inl hboot)).started
  rw [hlater]
  exact List.append_ne_nil_of_right_ne_nil _ (List.cons_ne_nil _ _)

theorem boot_eq_steps (hcalled : callsTo boot s.journal ≠ [])
    (hsteps : Relation.ReflTransGen (Step may) s t) (hboot : t.boot = some boot) : s.boot = some boot := by
  by_contra hgone
  obtain ⟨hstays, -⟩ := (⟨hcalled, hgone⟩ : s.Gone boot).steps hsteps
  exact hstays.boot hboot

theorem backup_eq_steps (hkeep : ¬may .keep) (hforget : ¬may .forget)
    (hcalled : callsTo boot s.journal ≠ []) (hsteps : Relation.ReflTransGen (Step may) s t)
    (hboot : t.boot = some boot) : t.backup = s.backup := by
  induction hsteps using Relation.ReflTransGen.head_induction_on with
  | refl => rfl
  | @head s u hstep hrest ih =>
    have hlater : callsTo boot u.journal ≠ [] := by
      obtain ⟨added, hadded⟩ := hstep.journal
      rw [hadded, callsTo_append]
      exact List.append_ne_nil_of_right_ne_nil _ hcalled
    refine (ih hlater).trans ?_
    have hthere : u.boot = some boot := boot_eq_steps hlater hrest hboot
    cases hstep with
    | start hfresh =>
      -- a machine that starts was never called
      obtain rfl := Option.some.inj hthere
      exact absurd hfresh.callsTo_eq_nil hcalled
    | keep _ hmay => exact absurd hmay hkeep
    | forget hmay => exact absurd hmay hforget
    | _ => rfl

end Standing

namespace Worker

variable {F M : Type} [Machine M] [Factory F M] {v w : Worker F M}

/-! ## The path -/

theorem path_undo {u : Envelope} (hu : u.command = .undoLoad) (h : v.outcome u = .ok ()) {b : Backup}
    (hb : v.backup = some b) : (v.handle u).cart.path = b.savePath.or v.cart.path := by
  obtain ⟨hawake, hdone⟩ := undoLoad_of_ok hu h
  let taken := v.note (.taken u)
  have hgiven : ∀ cleared : Worker F M, cleared.cart = v.cart →
      (cleared.giveState b.data).1.cart.path = v.cart.path :=
    fun cleared hcart => (cleared.path_giveState b.data).trans (congrArg SaveStore.path hcart)
  have hpath : taken.undoLoad.1.cart.path = b.savePath.or v.cart.path := by
    rcases taken.undoLoad_cases with ⟨e, herr, -⟩ | ⟨c, hc, ⟨heq, hnone⟩ | ⟨heq, hsome⟩⟩
    · exact absurd ((congrArg Prod.snd herr).symm.trans hdone) nofun
    · obtain rfl := Option.some.inj (hc.symm.trans hb)
      rw [heq, hnone ((congrArg Prod.snd heq).symm.trans hdone)]
      exact hgiven _ rfl
    · obtain rfl := Option.some.inj (hc.symm.trans hb)
      obtain ⟨p, hp⟩ := Option.isSome_iff_exists.mp hsome
      rw [heq, hp]
      rfl
  obtain ⟨_, _, _, hrest⟩ := taken.undoLoad.1.settle_respond_eq u.caller (v.outcome u)
  rw [handle_undo hu hawake, hrest]
  exact hpath

/-- **Where an undo leaves the cartridge save.** Along every run of a worker, an undo that succeeds hands
the installed machine the state that it handed out at the start of the latest load that was carried out
while active, and points the cartridge save to the path that it had then, if there was one; if there was
none, the save stays where it is. So it is back where it was exactly if there was a path then, or there is
none now. -/
theorem undo_restores_path_iff (id : Nat) (factory : F) (world : World)
    (cartSave firmwareSave : Option Path) (audio : Pipeline) (mic : MicInput) (acts : List (Act F))
    (u : Envelope) (hu : u.command = .undoLoad) :
    let w : Worker F M := .new id factory world cartSave firmwareSave audio mic
    let v := w.run acts
    v.outcome u = .ok () →
      ∃ early e late boot data, w.Origin acts early e late boot data ∧
        v.installedBoot = some boot ∧
        calls (v.handle u).journal = (boot, .loadState data) :: calls v.journal ∧
        (v.handle u).cart.path = (w.run early).cart.path.or v.cart.path ∧
        ((v.handle u).cart.path = (w.run early).cart.path ↔
          (w.run early).cart.path.isSome = true ∨ v.cart.path = none) := by
  intro w v h
  have hw : w.standing.Numbered := numbered_new id factory world cartSave firmwareSave audio mic
  obtain ⟨boot, b, hboot, hb, hcalls⟩ := calls_undo hu h
  obtain ⟨early, e, late, horigin, hbefore⟩ := origin_of_backup hw rfl acts hb hboot
  have hpath := path_undo hu h hb
  rw [hbefore] at hpath
  refine ⟨early, e, late, boot, b.data, horigin, hboot, hcalls, hpath, ?_⟩
  rw [hpath]
  cases (w.run early).cart.path with
  | none => simp
  | some p => simp

/-- The save of a booted cartridge, after another was inserted: the undo goes back to it. -/
theorem undo_restores_path_of_booted :
    let files := (((FileTree.empty []).plant (.ofString "a.nds") (.file (bytesOf ['1']))).plant
      (.ofString "b.nds") (.file (bytesOf ['2']))).plant (.ofString "x") (.file (bytesOf ['x']))
    let w := rehearsal {} files
    let acts : List (Act ScriptFactory) :=
      [.take ⟨.bootRom [.ofString "a.nds"], none⟩, .take ⟨.run, none⟩,
        .take ⟨.loadState (.ofString "x"), none⟩, .take ⟨.insertCart [.ofString "b.nds"], none⟩]
    let v := w.run acts
    v.outcome ⟨.undoLoad, none⟩ = .ok () ∧ v.cart.path = some (.ofString "b.sav") ∧
      ∃ early e late boot data, w.Origin acts early e late boot data ∧
        (v.handle ⟨.undoLoad, none⟩).cart.path = (w.run early).cart.path := by
  intro files w acts v
  have h : v.outcome ⟨.undoLoad, none⟩ = .ok () := by decide +kernel
  have hpaths : v.cart.path = some (.ofString "b.sav") ∧
      (v.handle ⟨.undoLoad, none⟩).cart.path = some (.ofString "a.sav") ∧
      Path.ofString "a.sav" ≠ .ofString "b.sav" := by decide +kernel
  have hw : w = .new 0 ⟨{}, false⟩ ⟨files, {}, 0⟩ none none (.new 0 {} {} {})
      (.new files .silence none) := rfl
  have hv : v = w.run acts := rfl
  -- from here on nothing is to be computed
  clear_value v w acts files
  subst hv hw
  obtain ⟨early, e, late, boot, data, horigin, -, -, hpath, hiff⟩ :=
    undo_restores_path_iff 0 (⟨{}, false⟩ : ScriptFactory) ⟨files, {}, 0⟩ none none
      (.new 0 {} {} {}) (.new files .silence none) acts ⟨.undoLoad, none⟩ rfl h
  refine ⟨h, hpaths.1, early, e, late, boot, data, horigin, hiff.mpr (.inl ?_)⟩
  rw [hpaths.1, hpaths.2.1] at hpath
  by_contra hnone
  rw [Option.not_isSome_iff_eq_none.mp hnone] at hpath
  exact hpaths.2.2 (Option.some.inj hpath)

/-- A machine without a cartridge, into which one was inserted after the load: its state is from before
that, and the save still points to the file of the cartridge. -/
theorem undo_leaves_path_of_inserted :
    let files := ((FileTree.empty []).plant (.ofString "b.nds") (.file (bytesOf ['2']))).plant
      (.ofString "x") (.file (bytesOf ['x']))
    let w := rehearsal {} files
    let early : List (Act ScriptFactory) := [.take ⟨.bootFirmware, none⟩, .take ⟨.run, none⟩]
    let load : Envelope := ⟨.loadState (.ofString "x"), none⟩
    let v := w.run (early ++ [.take load, .take ⟨.insertCart [.ofString "b.nds"], none⟩])
    let before := bytesOf "boot:firmware".toList
    (w.run early).Snapshot load 0 before ∧ (w.run early).cart.path = none ∧
      v.outcome ⟨.undoLoad, none⟩ = .ok () ∧
      calls (v.handle ⟨.undoLoad, none⟩).journal = (0, .loadState before) :: calls v.journal ∧
      (v.handle ⟨.undoLoad, none⟩).cart.path = some (.ofString "b.sav") := by
  intro files w early load v before
  refine ⟨⟨[(0, .loadState (bytesOf ['x']))], by decide +kernel⟩, ?_⟩
  decide +kernel

/-! ## How long it lasts -/

omit [Factory F M] in
/-- What refuses an undo that is carried out is the machine, or the want of one or of a backup. -/
theorem undoLoad_ne_exiting (w : Worker F M) : w.undoLoad.2 ≠ .error .exiting := by
  have hgiven : ∀ (v : Worker F M) (data : Bytes), (v.giveState data).2 ≠ .error .exiting := by
    intro v data
    unfold giveState
    split
    · nofun
    · split <;> nofun
  unfold undoLoad
  split
  · nofun
  · nofun
  · next b _ _ =>
    have hrefused := hgiven { w with backup := none } b.data
    split
    · next v e hv => rwa [hv] at hrefused
    · split <;> nofun

/-- While a machine is installed, nothing is left after an undo that is carried out. -/
theorem backup_undo {u : Envelope} (hu : u.command = .undoLoad) (hawake : v.status ≠ .exiting)
    {boot : Nat} (hboot : v.installedBoot = some boot) : (v.handle u).backup = none := by
  obtain ⟨i, hi, -⟩ := Option.map_eq_some_iff.mp hboot
  let taken := v.note (.taken u)
  have hused : taken.undoLoad.1.backup = none := by
    rcases taken.undoLoad_cases with ⟨e, heq, hnone | hnone⟩ | ⟨b, -, ⟨heq, -⟩ | ⟨heq, -⟩⟩
    · exact absurd (hnone.symm.trans hi) nofun
    · rw [heq]
      exact hnone
    all_goals
      rw [heq]
      exact backup_giveState _ _
  obtain ⟨_, _, _, hrest⟩ := taken.undoLoad.1.settle_respond_eq u.caller (v.outcome u)
  rw [handle_undo hu hawake, hrest]
  exact hused

theorem calls_undo_of_none {u : Envelope} (hu : u.command = .undoLoad) (hb : v.backup = none) :
    calls (v.handle u).journal = calls v.journal := by
  let taken := v.note (.taken u)
  by_cases hexiting : v.status = .exiting
  · have hanswered : calls (taken.respond u.caller (.error .exiting)).journal = calls taken.journal :=
      calls_of_adds (adds_respond _ _ _ fun d shown boot call => nofun)
    rw [handle_of_exiting hexiting]
    exact hanswered
  · rw [handle_undo hu hexiting, calls_settle_respond]
    show calls taken.undoLoad.1.journal = _
    rcases taken.undoLoad_cases with ⟨e, heq, -⟩ | ⟨b, hsome, -⟩
    · rw [heq]
      rfl
    · exact absurd (hb.symm.trans hsome) nofun

/-- An undo that is refused leaves the backup only to a worker that does not carry it out. -/
theorem backup_undo_of_error {u : Envelope} (hu : u.command = .undoLoad) {err : WorkerError}
    (h : v.outcome u = .error err) {boot : Nat} (hboot : v.installedBoot = some boot) {b : Backup}
    (hb : v.backup = some b) : (v.handle u).backup = some b ↔ err = .exiting := by
  by_cases hexiting : v.status = .exiting
  · rw [outcome, if_pos hexiting] at h
    obtain rfl := Except.error.inj h
    refine iff_of_true ?_ rfl
    rw [handle_of_exiting hexiting]
    cases u.caller <;> exact hb
  · refine iff_of_false ?_ ?_
    · rw [backup_undo hu hexiting hboot]
      simp
    · rintro rfl
      rw [outcome, if_neg hexiting, hu] at h
      exact undoLoad_ne_exiting _ h

theorem backup_run_of_none (hv : v.standing.Numbered) (hnone : v.backup = none) {acts : List (Act F)}
    (hloads : v.Along (fun y a => ¬y.Loads a) acts) : (v.run acts).backup = none := by
  let may : License → Prop := (· ≠ .keep)
  have hrun : Shifts may v (v.run acts) := by
    refine v.shifts_run fun early a late hacts l hl => ?_
    rintro rfl
    exact hloads early a late hacts hl.1
  by_contra hsome
  obtain ⟨b, hb⟩ := Option.ne_none_iff_exists'.mp hsome
  have hbefore : v.backup = some b := (Standing.backup_steps (fun hmay => hmay rfl) (hrun hv) hb).1
  exact absurd (hnone.symm.trans hbefore) nofun

theorem installedBoot_of_run (hv : v.standing.Numbered) {boot : Nat}
    (hcalled : callsTo boot v.journal ≠ []) {acts : List (Act F)}
    (hboot : (v.run acts).installedBoot = some boot) : v.installedBoot = some boot := by
  have hrun : Shifts (fun _ => True) v (v.run acts) := v.shifts_run fun _ _ _ _ _ _ => trivial
  exact Standing.boot_eq_steps hcalled (hrun hv) hboot

/-- **How long a backup lasts.** Take any run of a worker, with any factory and any machines, at whose end a
state is kept and a machine is installed. An undo that comes to an error then leaves that state in place
exactly if it is refused because the worker is exiting: what a machine refuses is gone. Let the run go on
in any way in which no load is carried out, to where the same machine is still installed and the worker is
not exiting. An undo then makes one call, and hands the machine that state, exactly if no undo was carried
out on the way, refused or not. -/
theorem backup_lasts_until_undo_iff (id : Nat) (factory : F) (world : World)
    (cartSave firmwareSave : Option Path) (audio : Pipeline) (mic : MicInput) (acts : List (Act F))
    (b : Backup) (boot : Nat) :
    let w : Worker F M := .new id factory world cartSave firmwareSave audio mic
    let v := w.run acts
    v.backup = some b → v.installedBoot = some boot →
    (∀ u err, u.command = .undoLoad → v.outcome u = .error err →
      ((v.handle u).backup = some b ↔ err = .exiting)) ∧
    ∀ late u, u.command = .undoLoad → v.Along (fun y a => ¬y.Loads a) late →
      let x := v.run late
      x.installedBoot = some boot → x.status ≠ .exiting →
      (calls (x.handle u).journal = (boot, .loadState b.data) :: calls x.journal ↔
        v.Along (fun y a => ¬y.Undoes a) late) := by
  intro w v hb hboot
  have hw : w.standing.Numbered := numbered_new id factory world cartSave firmwareSave audio mic
  have hordered : w.standing.Ordered := ordered_new id factory world cartSave firmwareSave audio mic
  have hv : v.standing.Numbered := numbered_run hw acts
  have hcalled : callsTo boot v.journal ≠ [] := by
    have hrun : Shifts (fun _ => True) w v := w.shifts_run fun _ _ _ _ _ _ => trivial
    exact (hordered.steps hw (hrun hw)).callsTo_ne_nil hboot
  refine ⟨fun u err hu h => backup_undo_of_error hu h hboot hb, fun late u hu hloads => ?_⟩
  intro x hsame hawake
  constructor
  · -- an undo on the way finds the machine there, and leaves nothing
    rintro hcalls early a rest rfl ⟨hy, caller, rfl⟩
    let undo : Envelope := ⟨.undoLoad, caller⟩
    let y := v.run early
    have hx : x = (y.handle undo).run rest := v.run_append early (.take undo :: rest)
    have hynumbered : y.standing.Numbered := numbered_run hv early
    have hthere : y.installedBoot = some boot := by
      obtain ⟨later, hlater⟩ := callsTo_run hv early boot
      have hycalled : callsTo boot y.journal ≠ [] := by
        rw [hlater]
        exact List.append_ne_nil_of_right_ne_nil _ hcalled
      have hafter : (y.run (.take undo :: rest)).installedBoot = some boot := hx ▸ hsame
      exact installedBoot_of_run hynumbered hycalled hafter
    have hused : (y.handle undo).backup = none := backup_undo rfl hy hthere
    have hnone : x.backup = none := by
      rw [hx]
      exact backup_run_of_none (numbered_run hynumbered [.take undo]) hused (along_cons.mp hloads.after).2
    rw [calls_undo_of_none hu hnone] at hcalls
    exact List.cons_ne_self _ _ hcalls.symm
  · intro hundoes
    let may : License → Prop := fun l => l ≠ .keep ∧ l ≠ .forget
    have hlate : Shifts may v x := by
      refine v.shifts_run fun early a rest hacts l hl => ⟨?_, ?_⟩
      · rintro rfl
        exact hloads early a rest hacts hl.1
      · rintro rfl
        exact hundoes early a rest hacts hl
    have hkept : x.backup = v.backup :=
      Standing.backup_eq_steps (fun hmay => hmay.1 rfl) (fun hmay => hmay.2 rfl) hcalled (hlate hv) hsame
    exact calls_undo_of_backup hu hawake hsame (hkept.trans hb)

end Worker

/-! ## A machine that refuses -/

/-- A machine that refuses every other state it is given. -/
structure FickleMachine where
  state : Bytes := #[7]
  /-- The next state it is given is refused. -/
  refuses : Bool := false

structure FickleFactory where

namespace FickleMachine

instance : Machine FickleMachine where
  start m := { machine := m, answer := () }
  stop m := { machine := m, answer := () }
  reset m := { machine := m, answer := () }
  runFrame m _ := { machine := m, answer := () }
  outputLength _ := 0
  readOutput m _ := { machine := m, answer := [] }
  hearMic m _ := { machine := m, answer := () }
  saveState m := { machine := m, answer := .ok m.state }
  loadState m data :=
    if m.refuses then
      { machine := { m with refuses := false }, answer := .error (.invalidState "not now") }
    else { machine := { state := data, refuses := true }, answer := .ok () }
  insertCart m _ := { machine := m, answer := .ok () }
  ejectCart m := { machine := m, answer := () }
  importSave m _ := { machine := m, answer := .ok () }
  setCheats m _ := { machine := m, answer := () }

instance : Factory FickleFactory FickleMachine where
  bootRom f _ := { factory := f, machine := .ok {} }
  bootFirmware f := { factory := f, machine := .ok {} }

end FickleMachine

namespace Worker

/-- A reset and a frame leave the kept state in place. An undo that the machine refuses does not. -/
theorem backup_lasts_until_undo_of_fickle :
    let files := (FileTree.empty []).plant (.ofString "x") (.file (bytesOf ['x']))
    let w : Worker FickleFactory FickleMachine :=
      .new 0 ⟨⟩ ⟨files, {}, 0⟩ none none (.new 0 {} {} {}) (.new files .silence none)
    let v := w.run [.take ⟨.bootFirmware, none⟩, .take ⟨.run, none⟩,
      .take ⟨.loadState (.ofString "x"), none⟩]
    let undo : Envelope := ⟨.undoLoad, none⟩
    let x := v.run [.take ⟨.reset, none⟩, .frame []]
    v.backup = some ⟨#[7], none⟩ ∧
      v.outcome undo = .error (.machine (.invalidState "not now")) ∧
      (v.handle undo).backup ≠ some ⟨#[7], none⟩ ∧
      calls (x.handle undo).journal = (0, .loadState #[7]) :: calls x.journal := by
  intro files w v undo x
  have hv : v.backup = some ⟨#[7], none⟩ ∧ v.installedBoot = some 0 := by decide +kernel
  have houtcome : v.outcome undo = .error (.machine (.invalidState "not now")) := by decide +kernel
  have hx : x.installedBoot = some 0 ∧ x.status ≠ .exiting := by decide +kernel
  have hneither : ∀ a ∈ ([.take ⟨.reset, none⟩, .frame []] : List (Act FickleFactory)),
      (∀ path caller, a ≠ .take ⟨.loadState path, caller⟩) ∧
        ∀ caller, a ≠ .take ⟨.undoLoad, caller⟩ := by
    simp
  obtain ⟨hrefused, hlasts⟩ := backup_lasts_until_undo_iff 0 (⟨⟩ : FickleFactory) ⟨files, {}, 0⟩ none none
    (.new 0 {} {} {}) (.new files .silence none)
    [.take ⟨.bootFirmware, none⟩, .take ⟨.run, none⟩, .take ⟨.loadState (.ofString "x"), none⟩]
    ⟨#[7], none⟩ 0 hv.1 hv.2
  refine ⟨hv.1, houtcome, fun hkept => ?_, ?_⟩
  · exact absurd ((hrefused undo _ rfl houtcome).mp hkept) nofun
  · refine (hlasts [.take ⟨.reset, none⟩, .frame []] undo rfl ?_ hx.1 hx.2).mpr ?_
    · rintro early a late hacts ⟨-, path, caller, rfl⟩
      exact (hneither _ (by rw [hacts]; simp)).1 path caller rfl
    · rintro early a late hacts ⟨-, caller, rfl⟩
      exact (hneither _ (by rw [hacts]; simp)).2 caller rfl

/-- What a machine refuses once cannot be given to it again: the next undo finds nothing. -/
theorem refused_undo_forgets :
    let files := (FileTree.empty []).plant (.ofString "x") (.file (bytesOf ['x']))
    let w : Worker FickleFactory FickleMachine :=
      .new 0 ⟨⟩ ⟨files, {}, 0⟩ none none (.new 0 {} {} {}) (.new files .silence none)
    let v := w.run [.take ⟨.bootFirmware, none⟩, .take ⟨.run, none⟩,
      .take ⟨.loadState (.ofString "x"), none⟩]
    let undo : Envelope := ⟨.undoLoad, none⟩
    let x := v.handle undo
    v.backup = some ⟨#[7], none⟩ ∧
      v.outcome undo = .error (.machine (.invalidState "not now")) ∧
      x.installedBoot = v.installedBoot ∧ x.outcome undo = .error .nothingToUndo ∧
      calls (x.handle undo).journal = calls x.journal := by
  decide +kernel

end Worker

end Handheld
