import Handheld.Proofs.Worker.Callers
import Handheld.Proofs.Worker.Shifting
import Mathlib.Data.List.Induction

/-!
# Undoing a savestate load

What an undo hands the machine is the state that it handed out before the latest load that was carried
out while active (`undo_restores_latest_active_load_iff`). A load while emulation is not active neither
keeps a state nor drops the one that is kept, so that an undo after it goes back further than that load.
`Origin` says where a kept state comes from; nothing but a load while active, a boot and an undo changes
it (`Standing.backup_steps`).
-/

namespace Handheld

namespace Standing

variable {may : License → Prop} {s t : Standing}

theorem backup_steps (hkeep : ¬may .keep) (hsteps : Relation.ReflTransGen (Step may) s t) {b : Backup}
    (h : t.backup = some b) : s.backup = some b ∧ ∀ boot, t.boot = some boot → s.boot = some boot := by
  induction hsteps with
  | refl => exact ⟨h, fun _ hboot => hboot⟩
  | tail _ hstep ih =>
    cases hstep with
    | start => cases h
    | forget => cases h
    | keep _ hmay => exact absurd hmay hkeep
    | vacate =>
      obtain ⟨hbackup, -⟩ := ih h
      exact ⟨hbackup, nofun⟩
    | enter | ask | call | request | raise | lower | publish | queue | answer | tell => exact ih h

end Standing

namespace Worker

variable {F M : Type} {v w : Worker F M}

variable [Machine M]

theorem adds_giveState {P : Event → Prop} (w : Worker F M) (data : Bytes)
    (hcall : ∀ boot, P (.called boot (.loadState data))) (hrequest : ∀ boot q, P (.requested boot q)) :
    Adds P w (w.giveState data).1 := by
  unfold giveState
  split
  · exact .of_eq rfl
  · next i _ =>
    have hused : Adds P w (w.use i (fun _ => .loadState data) (Machine.loadState · data)).2 :=
      w.adds_use i _ _ (hcall i.boot) (hrequest i.boot)
    split
    · next v hv => rwa [hv] at hused
    · next v hv => rwa [hv] at hused

theorem backup_giveState (w : Worker F M) (data : Bytes) :
    (w.giveState data).1.backup = w.backup := by
  unfold giveState
  split
  · rfl
  · next i _ =>
    obtain ⟨_, _, _, _, _, h⟩ := w.use_eq i (fun _ => .loadState data) (Machine.loadState · data)
    have hused : (w.use i (fun _ => .loadState data) (Machine.loadState · data)).2.backup = w.backup := by
      rw [h]
    split
    · next v hv => rwa [hv] at hused
    · next v hv => rwa [hv] at hused

theorem calls_giveState {i : Installed M} (hi : w.machine = some i) (data : Bytes) :
    calls (w.giveState data).1.journal = (i.boot, .loadState data) :: calls w.journal := by
  have hused := w.calls_use i (fun _ => .loadState data) (Machine.loadState · data)
  unfold giveState
  rw [hi]
  dsimp only
  split
  · next v hv => rwa [hv] at hused
  · next v hv => rwa [hv] at hused

theorem takeBackup_of_backup {i : Installed M} {b : Backup} (h : (w.takeBackup i).backup = some b) :
    calls (w.takeBackup i).journal = (i.boot, .saveState (.ok b.data)) :: calls w.journal ∧
      b.savePath = w.cart.path := by
  have htaken : calls (w.takeState i).2.journal =
      (i.boot, .saveState (w.takeState i).1) :: calls w.journal :=
    w.calls_use i Call.saveState Machine.saveState
  have hpath : (w.takeState i).2.cart.path = w.cart.path := w.path_use i Call.saveState Machine.saveState
  unfold takeBackup at h ⊢
  split at h
  · next data v hv =>
    rw [hv] at htaken hpath
    obtain rfl := Option.some.inj h
    exact ⟨htaken, hpath⟩
  · cases h

/-- While active, a load first sees to the backup, and keeps no other one after that. -/
theorem shifts_takeBackup_loadState {may : License → Prop} {i : Installed M} (hi : w.machine = some i)
    (hactive : w.active = true) (path : Path) :
    Shifts may (w.takeBackup i) (w.loadState path).1 := by
  unfold loadState
  split
  · next hnone =>
    rw [hi] at hnone
    cases hnone
  · next j hj =>
    obtain rfl := Option.some.inj (hi.symm.trans hj)
    rw [if_pos hactive]
    dsimp only
    split
    · exact .of_eq rfl
    · exact shifts_giveState _ _

variable [Factory F M]

/-! ## Loads -/

/-- Taking a command begins with the machine of a boot handing out this state. -/
def Snapshot (w : Worker F M) (e : Envelope) (boot : Nat) (data : Bytes) : Prop :=
  ∃ later, calls (w.handle e).journal = later ++ (boot, .saveState (.ok data)) :: calls w.journal

/-- Of the loads that a run carries out, this one comes last. -/
def LatestLoad (w : Worker F M) (acts early : List (Act F)) (e : Envelope) : Prop :=
  ∃ late, acts = early ++ .take e :: late ∧ (w.run early).Loads (.take e) ∧
    ((w.run early).handle e).Along (fun v a => ¬v.Loads a) late

/-- A state that the machine of a boot handed out before a load while active, with no other load while
active since. -/
structure Origin (w : Worker F M) (acts early : List (Act F)) (e : Envelope) (late : List (Act F))
    (boot : Nat) (data : Bytes) : Prop where
  acts : acts = early ++ .take e :: late
  loads : (w.run early).Loads (.take e)
  active : (w.run early).active = true
  snapshot : (w.run early).Snapshot e boot data
  since : ((w.run early).handle e).Along (fun v a => v.Loads a → v.active = false) late

theorem snapshot_of_load {e : Envelope} (hw : w.standing.Numbered) (hload : w.Loads (.take e))
    (hactive : w.active = true) {b : Backup} {boot : Nat} (hb : (w.handle e).backup = some b)
    (hboot : (w.handle e).installedBoot = some boot) :
    w.Snapshot e boot b.data ∧ b.savePath = w.cart.path := by
  obtain ⟨hawake, path, caller, he⟩ := hload
  obtain rfl := Act.take.inj he
  let e : Envelope := ⟨.loadState path, caller⟩
  let taken := w.note (.taken e)
  -- what comes after the backup keeps none
  let may : License → Prop := (· ≠ .keep)
  have hmay : ¬may .keep := fun h => h rfl
  have hnote : Shifts may w taken := w.shifts_note trivial
  have htaken : taken.standing.Numbered := hw.steps (hnote hw)
  have hhandle : w.handle e =
      (taken.loadState path).1.settle.respond caller (w.outcome e) := handle_of_awake hawake nofun
  have hreply : Shifts may (taken.loadState path).1 (w.handle e) := by
    rw [hhandle]
    exact (shifts_settle _ nofun).trans (shifts_respond _ nofun _ _)
  cases hi : w.machine with
  | none =>
    have hnone : taken.loadState path = (taken, .error (.machine .noMachine)) := by
      simp [loadState, show taken.machine = none from hi]
    rw [hnone] at hreply
    have hinstalled : taken.installedBoot = some boot :=
      (Standing.backup_steps hmay (hreply htaken) hb).2 boot hboot
    have huninstalled : taken.installedBoot = none := congrArg (Option.map Installed.boot) hi
    rw [huninstalled] at hinstalled
    cases hinstalled
  | some i =>
    have hmachine : taken.machine = some i := hi
    let kept := taken.takeBackup i
    have hbackup : Shifts (fun _ => True) taken kept := shifts_takeBackup hmachine trivial
    have hkept : kept.standing.Numbered := htaken.steps (hbackup htaken)
    have hrest : Shifts may kept (w.handle e) :=
      (shifts_takeBackup_loadState hmachine hactive path).trans hreply
    obtain ⟨hdata, hinstalled⟩ := Standing.backup_steps hmay (hrest hkept) hb
    have hsame : boot = i.boot := by
      have hbefore : kept.installedBoot = some i.boot :=
        (fails_takeBackup hmachine).boot.trans (congrArg (Option.map Installed.boot) hmachine)
      exact Option.some.inj ((hinstalled boot hboot).symm.trans hbefore)
    obtain ⟨added, hjournal⟩ := Standing.journal_steps (hrest hkept)
    change (w.handle e).journal = added ++ kept.journal at hjournal
    obtain ⟨hcalls, hpath⟩ := takeBackup_of_backup hdata
    refine ⟨⟨calls added, ?_⟩, hpath⟩
    rw [hjournal, calls_append, hcalls, hsame]
    rfl

theorem not_snapshot_of_inactive {e : Envelope} (hload : w.Loads (.take e)) (hactive : w.active = false)
    (boot : Nat) (data : Bytes) : ¬w.Snapshot e boot data := by
  rintro ⟨later, hcalls⟩
  obtain ⟨hawake, path, caller, he⟩ := hload
  obtain rfl := Act.take.inj he
  let e : Envelope := ⟨.loadState path, caller⟩
  let taken := w.note (.taken e)
  let P : Event → Prop := fun event => ∀ b answer, event ≠ .called b (.saveState answer)
  have hload : Adds P taken (taken.loadState path).1 := by
    have hinactive : taken.active = false := hactive
    unfold loadState
    split
    · exact .of_eq rfl
    · rw [hinactive]
      dsimp only
      split
      · exact .of_eq rfl
      · exact adds_giveState _ _ (fun b b' answer => nofun) fun b q b' answer => nofun
  have hanswered : ∀ (d : Caller) (r : Reply) (shown : Shown), P (.answered d r shown) :=
    fun d r shown b answer => nofun
  have hhandle : w.handle e =
      (taken.loadState path).1.settle.respond caller (w.outcome e) := handle_of_awake hawake nofun
  have hadds : Adds P taken (w.handle e) := by
    rw [hhandle]
    exact hload.trans ((adds_settle _ (hanswered · ·)).trans (adds_respond _ _ _ (hanswered · _)))
  obtain ⟨added, hjournal, hadded⟩ := hadds
  have hmem : (boot, .saveState (.ok data)) ∈ calls added := by
    have hsplit : calls added ++ calls w.journal =
        (later ++ [(boot, .saveState (.ok data))]) ++ calls w.journal := by
      rw [List.append_assoc, List.singleton_append, ← hcalls, hjournal, calls_append]
      rfl
    rw [List.append_cancel_right hsplit]
    simp
  exact hadded _ (mem_calls.mp hmem) boot (.ok data) rfl

theorem eq_of_latestLoad {acts early early' late : List (Act F)} {e e' : Envelope}
    (h : w.LatestLoad acts early' e') (hacts : acts = early ++ .take e :: late)
    (hload : (w.run early).Loads (.take e)) :
    (early' = early ∧ e' = e) ∨
    ∃ between late', late = between ++ .take e' :: late' ∧ early' = early ++ .take e :: between := by
  obtain ⟨late', hacts', -, hquiet⟩ := h
  rcases List.append_eq_append_iff.mp (hacts.symm.trans hacts') with
    ⟨more, hearly, hlate⟩ | ⟨more, hearly, hlate⟩
  · cases more with
    | nil =>
      obtain ⟨he, -⟩ := List.cons.inj hlate
      exact .inl ⟨by simpa using hearly, (Act.take.inj he).symm⟩
    | cons a between =>
      obtain ⟨rfl, hrest⟩ := List.cons.inj hlate
      exact .inr ⟨between, late', hrest, hearly⟩
  · cases more with
    | nil =>
      obtain ⟨he, -⟩ := List.cons.inj hlate
      exact .inl ⟨by simpa using hearly.symm, Act.take.inj he⟩
    | cons a between =>
      -- then this load comes after the latest one
      obtain ⟨rfl, hrest⟩ := List.cons.inj hlate
      refine absurd ?_ (hquiet between (.take e) late hrest)
      rw [hearly, run_append] at hload
      exact hload

/-! ## Runs -/

/-- Whatever is kept comes from a load while active, with the path of then, and from the machine that is
still installed. -/
theorem origin_of_backup (hw : w.standing.Numbered) (hnone : w.backup = none) (acts : List (Act F))
    {b : Backup} {boot : Nat} (hb : (w.run acts).backup = some b)
    (hboot : (w.run acts).installedBoot = some boot) :
    ∃ early e late, w.Origin acts early e late boot b.data ∧
      b.savePath = (w.run early).cart.path := by
  induction acts using List.reverseRecOn generalizing boot with
  | nil => cases hnone.symm.trans hb
  | append_singleton acts a ih =>
    rw [run_concat] at hb hboot
    let v := w.run acts
    have hv : v.standing.Numbered := numbered_run hw acts
    by_cases hload : v.Loads a ∧ v.active = true
    · obtain ⟨hload, hactive⟩ := hload
      obtain ⟨e, rfl⟩ : ∃ e, a = .take e := by
        obtain ⟨-, path, caller, rfl⟩ := hload
        exact ⟨_, rfl⟩
      obtain ⟨hsnapshot, hpath⟩ := snapshot_of_load hv hload hactive hb hboot
      exact ⟨acts, e, [], ⟨rfl, hload, hactive, hsnapshot, along_nil _ _⟩, hpath⟩
    · obtain ⟨hbackup, hinstalled⟩ := Standing.backup_steps hload (v.shifts_step a hv) hb
      obtain ⟨early, e, late, horigin, hpath⟩ := ih hbackup (hinstalled boot hboot)
      refine ⟨early, e, late ++ [a],
        ⟨?_, horigin.loads, horigin.active, horigin.snapshot, ?_⟩, hpath⟩
      · rw [horigin.acts]
        simp
      · have hafter : ((w.run early).handle e).run late = v := by
          show (w.run early).run (.take e :: late) = w.run acts
          rw [← run_append, ← horigin.acts]
        refine horigin.since.concat fun hloads => ?_
        rw [hafter] at hloads ⊢
        exact eq_false_of_ne_true fun hactive => hload ⟨hloads, hactive⟩

theorem handle_undo {u : Envelope} (hu : u.command = .undoLoad) (hawake : v.status ≠ .exiting) :
    v.handle u = (v.note (.taken u)).undoLoad.1.settle.respond u.caller (v.outcome u) := by
  rw [handle_of_awake hawake (by simp [hu]), hu]
  rfl

theorem calls_undo_of_backup {u : Envelope} (hu : u.command = .undoLoad) (hawake : v.status ≠ .exiting)
    {boot : Nat} {b : Backup} (hboot : v.installedBoot = some boot) (hb : v.backup = some b) :
    calls (v.handle u).journal = (boot, .loadState b.data) :: calls v.journal := by
  obtain ⟨i, hi, rfl⟩ := Option.map_eq_some_iff.mp hboot
  let taken := v.note (.taken u)
  let cleared : Worker F M := { taken with backup := none }
  have hgiven : calls (cleared.giveState b.data).1.journal =
      (i.boot, .loadState b.data) :: calls v.journal := calls_giveState (w := cleared) hi b.data
  rw [handle_undo hu hawake, calls_settle_respond]
  rcases taken.undoLoad_cases with ⟨e, -, hnone | hnone⟩ | ⟨c, hc, heq⟩
  · exact absurd (hnone.symm.trans hi) nofun
  · exact absurd (hnone.symm.trans hb) nofun
  · obtain rfl := Option.some.inj (hc.symm.trans hb)
    rcases heq with ⟨heq, -⟩ | ⟨heq, -⟩
    · rw [heq]
      exact hgiven
    · rw [heq]
      exact hgiven

theorem undoLoad_of_ok {u : Envelope} (hu : u.command = .undoLoad) (h : v.outcome u = .ok ()) :
    v.status ≠ .exiting ∧ (v.note (.taken u)).undoLoad.2 = .ok () := by
  by_cases hexiting : v.status = .exiting
  · rw [outcome, if_pos hexiting] at h
    cases h
  · rw [outcome, if_neg hexiting, hu] at h
    exact ⟨hexiting, h⟩

theorem calls_undo {u : Envelope} (hu : u.command = .undoLoad) (h : v.outcome u = .ok ()) :
    ∃ boot b, v.installedBoot = some boot ∧ v.backup = some b ∧
      calls (v.handle u).journal = (boot, .loadState b.data) :: calls v.journal := by
  obtain ⟨hawake, hdone⟩ := undoLoad_of_ok hu h
  unfold undoLoad at hdone
  split at hdone
  · cases hdone
  · cases hdone
  · next i b hi hb =>
    have hboot : v.installedBoot = some i.boot := congrArg (Option.map Installed.boot) hi
    exact ⟨i.boot, b, hboot, hb, calls_undo_of_backup hu hawake hboot hb⟩

/-- **What an undo restores.** Along every run of a worker, an undo that succeeds makes one call: it hands
the installed machine the state that this machine handed out at the start of a savestate load, the latest
one that was carried out while active. That is the state from before the latest load of all exactly if no
load was carried out since then: one while not active keeps no state, and leaves what was kept before. -/
theorem undo_restores_latest_active_load_iff (id : Nat) (factory : F) (world : World)
    (cartSave firmwareSave : Option Path) (audio : Pipeline) (mic : MicInput) (acts : List (Act F))
    (u : Envelope) (hu : u.command = .undoLoad) :
    let w : Worker F M := .new id factory world cartSave firmwareSave audio mic
    let v := w.run acts
    v.outcome u = .ok () →
      ∃ early e late boot data, w.Origin acts early e late boot data ∧
        v.installedBoot = some boot ∧
        calls (v.handle u).journal = (boot, .loadState data) :: calls v.journal ∧
        ((∃ early' e', w.LatestLoad acts early' e' ∧ (w.run early').Snapshot e' boot data) ↔
          w.LatestLoad acts early e) := by
  intro w v h
  have hw : w.standing.Numbered := numbered_new id factory world cartSave firmwareSave audio mic
  obtain ⟨boot, b, hboot, hb, hcalls⟩ := calls_undo hu h
  obtain ⟨early, e, late, horigin, -⟩ := origin_of_backup hw rfl acts hb hboot
  refine ⟨early, e, late, boot, b.data, horigin, hboot, hcalls, ?_, fun hlatest => ?_⟩
  · rintro ⟨early', e', hlatest, hsnapshot⟩
    rcases eq_of_latestLoad hlatest horigin.acts horigin.loads with
      ⟨rfl, rfl⟩ | ⟨between, late', hlate, hearly⟩
    · exact hlatest
    · -- the latest load came while not active, so that it has the machine hand out nothing
      obtain ⟨-, -, hload, -⟩ := hlatest
      have hafter : w.run early' = ((w.run early).handle e).run between := by
        rw [hearly, run_append]
        rfl
      rw [hafter] at hload hsnapshot
      have hactive := horigin.since between (.take e') late' hlate hload
      exact absurd hsnapshot (not_snapshot_of_inactive hload hactive boot b.data)
  · exact ⟨early, e, hlatest, horigin.snapshot⟩

/-- A load while running, undone: the machine gets back what it had before. -/
theorem undo_restores_load_while_running :
    let files := ((FileTree.empty []).plant (.ofString "a.nds") (.file (bytesOf ['1']))).plant
      (.ofString "x") (.file (bytesOf ['x']))
    let w := rehearsal {} files
    let before := bytesOf "boot:a.nds".toList
    let load : Envelope := ⟨.loadState (.ofString "x"), none⟩
    let acts : List (Act ScriptFactory) :=
      [.take ⟨.bootRom [.ofString "a.nds"], none⟩, .take ⟨.run, none⟩, .take load]
    (w.run acts).outcome ⟨.undoLoad, none⟩ = .ok () ∧
      ∃ early e late, w.Origin acts early e late 0 before ∧ w.LatestLoad acts early e := by
  intro files w before load acts
  let early : List (Act ScriptFactory) :=
    [.take ⟨.bootRom [.ofString "a.nds"], none⟩, .take ⟨.run, none⟩]
  have houtcome : (w.run acts).outcome ⟨.undoLoad, none⟩ = .ok () := by decide +kernel
  obtain ⟨early', e', late', boot, data, horigin, -, hcalls, hiff⟩ :=
    undo_restores_latest_active_load_iff 0 (⟨{}, false⟩ : ScriptFactory) ⟨files, {}, 0⟩ none none
      (.new 0 {} {} {}) (.new files .silence none) acts ⟨.undoLoad, none⟩ rfl houtcome
  have hundone : calls ((w.run acts).handle ⟨.undoLoad, none⟩).journal =
      (0, .loadState before) :: calls (w.run acts).journal := by decide +kernel
  obtain ⟨rfl, hdata⟩ := Prod.mk.inj (List.cons.inj (hcalls.symm.trans hundone)).1
  obtain rfl := Call.loadState.inj hdata
  have hlatest : w.LatestLoad acts early load :=
    ⟨[], rfl, ⟨by decide +kernel, _, _, rfl⟩, along_nil _ _⟩
  have hsnapshot : (w.run early).Snapshot load 0 before :=
    ⟨[(0, .loadState (bytesOf ['x']))], by decide +kernel⟩
  exact ⟨houtcome, early', e', late', horigin, hiff.mp ⟨early, load, hlatest, hsnapshot⟩⟩

/-- A load while running, a stop and another load: the undo succeeds, and what the machine gets back is
from before the first of the two. -/
theorem undo_restores_older_load :
    let files := (((FileTree.empty []).plant (.ofString "a.nds") (.file (bytesOf ['1']))).plant
      (.ofString "x") (.file (bytesOf ['x']))).plant (.ofString "y") (.file (bytesOf ['y']))
    let w := rehearsal {} files
    let before := bytesOf "boot:a.nds".toList
    let early : List (Act ScriptFactory) :=
      [.take ⟨.bootRom [.ofString "a.nds"], none⟩, .take ⟨.run, none⟩,
        .take ⟨.loadState (.ofString "x"), none⟩, .take ⟨.stop false, none⟩]
    let load : Envelope := ⟨.loadState (.ofString "y"), none⟩
    let v := w.run (early ++ [.take load])
    v.outcome ⟨.undoLoad, none⟩ = .ok () ∧
      calls (v.handle ⟨.undoLoad, none⟩).journal = (0, .loadState before) :: calls v.journal ∧
      w.LatestLoad (early ++ [.take load]) early load ∧
      ¬(w.run early).Snapshot load 0 before := by
  intro files w before early load v
  have hload : (w.run early).Loads (.take load) := ⟨by decide +kernel, _, _, rfl⟩
  refine ⟨by decide +kernel, by decide +kernel, ⟨[], rfl, hload, along_nil _ _⟩, ?_⟩
  exact not_snapshot_of_inactive hload (by decide +kernel) 0 before

end Worker

end Handheld
