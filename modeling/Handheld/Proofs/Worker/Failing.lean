import Handheld.Proofs.Worker.Batching
import Handheld.Proofs.Worker.Exiting
import Handheld.Proofs.Worker.SaveLog

/-!
# Commands that fail

A command that fails leaves behind the machine that was installed, the control and the path of the
cartridge save (`failed_command_spares`). Some fail after they have pointed the save elsewhere and
called the machine: what such a command does to the machine is to make the one call that is refused
(`Spares`), and the path is set back at the end of those that have changed it.
-/

namespace Handheld

def Call.Refusable : Call → Prop
  | .saveState _ => True
  | .loadState _ => True
  | .insertCart _ => True
  | .importSave _ => True
  | _ => False

/-- Of all calls, only one that can be refused, on the machine of a boot. -/
def Event.Spares (boot : Option Nat) : Event → Prop
  | .called b call => boot = some b ∧ call.Refusable
  | _ => True

namespace Worker

variable {F M : Type} {u v w : Worker F M} {err : WorkerError}

def installedBoot (w : Worker F M) : Option Nat := w.machine.map Installed.boot

/-- The installed machine is still the same, and was neither started nor stopped nor reset. -/
structure Spares (w v : Worker F M) : Prop where
  boot : v.installedBoot = w.installedBoot
  adds : Adds (Event.Spares w.installedBoot) w v

theorem Spares.trans (huv : Spares u v) (hvw : Spares v w) : Spares u w where
  boot := hvw.boot.trans huv.boot
  adds := huv.adds.trans (by rw [← huv.boot]; exact hvw.adds)

theorem Spares.of_eq (hmachine : v.machine = w.machine) (hjournal : v.journal = w.journal) :
    Spares w v where
  boot := congrArg (Option.map Installed.boot) hmachine
  adds := .of_eq hjournal

theorem spares_note (w : Worker F M) {e : Event} (h : e.Spares w.installedBoot) :
    Spares w (w.note e) where
  boot := rfl
  adds := w.adds_note h

theorem spares_receiveAll (w : Worker F M) (boot : Nat) (requests : List Request) :
    Spares w (w.receiveAll boot requests) where
  boot := by
    obtain ⟨cart, firmware, stopRequested, journal, h⟩ := w.receiveAll_eq boot requests
    rw [h]
    rfl
  adds := by
    refine ⟨_, w.journal_receiveAll boot requests, fun e he => ?_⟩
    obtain ⟨q, -, rfl⟩ := List.mem_map.mp (List.mem_reverse.mp he)
    trivial

theorem spares_use {α : Type} {i : Installed M} (hi : w.machine = some i) (call : α → Call)
    (hcall : ∀ answer, (call answer).Refusable) (act : M → Outcome M α) :
    Spares w (w.use i call act).2 := by
  have hboot : w.installedBoot = some i.boot := congrArg (Option.map Installed.boot) hi
  let used : Worker F M := { w with machine := some { i with machine := (act i.machine).machine } }
  have hused : Spares w used := ⟨hboot.symm, .of_eq rfl⟩
  have hnote : Spares used (used.note (.called i.boot (call (act i.machine).answer))) :=
    used.spares_note ⟨rfl, hcall _⟩
  exact (hused.trans hnote).trans (spares_receiveAll _ i.boot (act i.machine).requests)

theorem spares_setCartPath (w : Worker F M) (path : Option Path) : Spares w (w.setCartPath path) := by
  have hnote : Spares w (w.note (.pointed path)) := w.spares_note trivial
  exact hnote.trans (.of_eq rfl rfl)

theorem spares_retarget (w : Worker F M) (path : Option Path) : Spares w (w.retarget path) where
  boot := congrArg (Option.map Installed.boot) (w.machine_retarget path)
  adds := by
    have hwrite : Adds (Event.Spares w.installedBoot) w w.flushCart.2 :=
      w.adds_noteWrite .cart _ fun _ => trivial
    exact hwrite.trans (adds_note _ trivial)

/-- A failure: besides, the control and the path of the cartridge save are what they were. -/
structure Fails (w v : Worker F M) : Prop extends Spares w v where
  control : v.control = w.control
  path : v.cart.path = w.cart.path

theorem Fails.trans (huv : Fails u v) (hvw : Fails v w) : Fails u w where
  toSpares := huv.toSpares.trans hvw.toSpares
  control := hvw.control.trans huv.control
  path := hvw.path.trans huv.path

theorem Fails.refl (w : Worker F M) : Fails w w := ⟨.of_eq rfl rfl, rfl, rfl⟩

theorem fails_note (w : Worker F M) {e : Event} (h : e.Spares w.installedBoot) : Fails w (w.note e) :=
  ⟨w.spares_note h, rfl, rfl⟩

theorem fails_respond (w : Worker F M) (c : Option Caller) (r : Reply) : Fails w (w.respond c r) := by
  cases c with
  | none => exact .refl w
  | some c => exact w.fails_note trivial

theorem fails_settle (w : Worker F M) : Fails w w.settle := by
  obtain ⟨waiting, shown, journal, h⟩ := w.settle_eq
  have hadds : Adds (Event.Spares w.installedBoot) w w.settle := w.adds_settle fun _ _ _ => trivial
  refine ⟨⟨?_, hadds⟩, w.control_settle, ?_⟩
  · rw [h]
    rfl
  · rw [h]

/-! ## Calls that are refused -/

theorem fails_use {α : Type} {i : Installed M} (hi : w.machine = some i) (call : α → Call)
    (hcall : ∀ answer, (call answer).Refusable) (act : M → Outcome M α) :
    Fails w (w.use i call act).2 :=
  ⟨spares_use hi call hcall act, (w.aside_use i call act).control, w.path_use i call act⟩

theorem fails_writeFile (w : Worker F M) (path : Path) (data : Bytes) :
    Fails w (w.writeFile path data).1 := by
  have hfiles : ∀ files, Fails w { w with world.files := files } :=
    fun files => ⟨.of_eq rfl rfl, rfl, rfl⟩
  unfold writeFile
  split
  · exact hfiles _
  · split <;> exact hfiles _

variable [Machine M]

theorem fails_takeState {i : Installed M} (hi : w.machine = some i) : Fails w (w.takeState i).2 :=
  fails_use hi Call.saveState (fun _ => trivial) Machine.saveState

theorem fails_saveState (w : Worker F M) (path : Path) : Fails w (w.saveState path).1 := by
  unfold saveState
  split
  · exact .refl w
  · next i hi =>
    have htaken : Fails w (w.takeState i).2 := fails_takeState hi
    split
    · next v hv => rwa [hv] at htaken
    · next data v hv =>
      rw [hv] at htaken
      exact htaken.trans (v.fails_writeFile path data)

theorem fails_giveState (w : Worker F M) (data : Bytes) : Fails w (w.giveState data).1 := by
  unfold giveState
  split
  · exact .refl w
  · next i hi =>
    have hused : Fails w (w.use i (fun _ => .loadState data) (Machine.loadState · data)).2 :=
      fails_use hi (fun _ => .loadState data) (fun _ => trivial) _
    split
    · next v hv => rwa [hv] at hused
    · next v hv => rwa [hv] at hused

theorem fails_takeBackup {i : Installed M} (hi : w.machine = some i) : Fails w (w.takeBackup i) := by
  have htaken : Fails w (w.takeState i).2 := fails_takeState hi
  have hbackup : ∀ (v : Worker F M) backup, Fails v { v with backup } :=
    fun v backup => ⟨.of_eq rfl rfl, rfl, rfl⟩
  unfold takeBackup
  split
  · next data v hv =>
    rw [hv] at htaken
    exact htaken.trans (hbackup v _)
  · next v hv =>
    rw [hv] at htaken
    exact htaken.trans (hbackup v _)

theorem fails_loadState (w : Worker F M) (path : Path) : Fails w (w.loadState path).1 := by
  unfold loadState
  split
  · exact .refl w
  · next i hi =>
    have hbackup : Fails w (if w.active then w.takeBackup i else w) := by
      split
      · exact fails_takeBackup hi
      · exact .refl w
    dsimp only
    split
    · exact hbackup
    · exact hbackup.trans (fails_giveState _ _)

theorem fails_importSave (w : Worker F M) (path : Path) : Fails w (w.importSave path).1 := by
  unfold importSave
  split
  · exact .refl w
  · next i hi =>
    split
    · exact .refl w
    · next data _ =>
      have hused : Fails w (w.use i (fun _ => .importSave data) (Machine.importSave · data)).2 :=
        fails_use hi (fun _ => .importSave data) (fun _ => trivial) _
      split
      · next v hv => rwa [hv] at hused
      · next v hv => rwa [hv] at hused

/-! ## Commands that change the path -/

theorem fails_undoLoad (w : Worker F M) (h : w.undoLoad.2 = .error err) : Fails w w.undoLoad.1 := by
  rcases w.undoLoad_cases with ⟨e, heq, -⟩ | ⟨b, -, ⟨heq, -⟩ | ⟨heq, -⟩⟩
  · rw [heq]
    exact .refl w
  · let cleared : Worker F M := { w with backup := none }
    have hcleared : Fails w cleared := ⟨.of_eq rfl rfl, rfl, rfl⟩
    rw [heq]
    exact hcleared.trans (cleared.fails_giveState b.data)
  · -- the path follows only when the machine has taken the backup
    rw [heq] at h
    cases h

theorem insertCart_of_error {paths : List Path} (h : (w.insertCart paths).2 = .error err) :
    (w.insertCart paths).1 = w ∨
    ∃ i rom, w.machine = some i ∧ (w.insertCart paths).1 =
      ((w.retarget (some (cartSavePath rom.path w.id))).use i (fun _ => .insertCart rom)
        (Machine.insertCart · rom)).2.setCartPath w.cart.path := by
  unfold insertCart at h ⊢
  split
  · exact .inl rfl
  · next i hi =>
    rw [hi] at h
    split
    · exact .inl rfl
    · next rom hrom =>
      rw [hrom] at h
      refine .inr ⟨i, rom, hi, ?_⟩
      dsimp only at h ⊢
      split
      · next v hv =>
        rw [hv] at h
        cases h
      · next e v hv => rw [hv]

theorem fails_insertCart (w : Worker F M) (paths : List Path)
    (h : (w.insertCart paths).2 = .error err) : Fails w (w.insertCart paths).1 := by
  rcases insertCart_of_error h with heq | ⟨i, rom, hi, heq⟩
  · rw [heq]
    exact .refl w
  · have hcontrol := (w.aside_insertCart paths).control
    let aimed := w.retarget (some (cartSavePath rom.path w.id))
    have haimed : aimed.machine = some i := (w.machine_retarget _).trans hi
    have hused : Spares w (aimed.use i (fun _ => .insertCart rom) (Machine.insertCart · rom)).2 :=
      (w.spares_retarget _).trans
        (spares_use haimed (fun _ => .insertCart rom) (fun _ => trivial) _)
    rw [heq] at hcontrol ⊢
    exact ⟨hused.trans (spares_setCartPath _ _), hcontrol, rfl⟩

variable [Factory F M]

theorem boot_of_error {rom : Option Rom} {savePath : Option Path}
    (h : (w.boot rom savePath).2 = .error err) : (w.boot rom savePath).1 =
      (w.asked rom savePath (askFactory w.factory rom)).setCartPath w.cart.path := by
  rw [boot_eq] at h ⊢
  split
  · next m hm =>
    rw [hm] at h
    cases h
  · rfl

theorem fails_boot (w : Worker F M) (rom : Option Rom) (savePath : Option Path)
    (h : (w.boot rom savePath).2 = .error err) : Fails w (w.boot rom savePath).1 := by
  have hcontrol := (w.aside_boot rom savePath).control
  let b : Boot F M := askFactory w.factory rom
  let told : Worker F M :=
    { (w.retarget savePath).note (.asked w.boots rom) with
      boots := w.boots + 1, factory := b.factory }
  have htold : Spares w told := by
    have hnote : Spares w ((w.retarget savePath).note (.asked w.boots rom)) :=
      (w.spares_retarget savePath).trans (spares_note _ trivial)
    exact hnote.trans (.of_eq rfl rfl)
  have hasked : Spares w (w.asked rom savePath b) :=
    htold.trans (told.spares_receiveAll w.boots b.requests)
  rw [boot_of_error h] at hcontrol ⊢
  exact ⟨hasked.trans (spares_setCartPath _ _), hcontrol, rfl⟩

theorem fails_bootRom (w : Worker F M) (paths : List Path) (h : (w.bootRom paths).2 = .error err) :
    Fails w (w.bootRom paths).1 := by
  unfold bootRom at h ⊢
  split
  · exact .refl w
  · next rom hrom =>
    rw [hrom] at h
    exact w.fails_boot _ _ h

/-! ## Any command -/

theorem fails_apply (w : Worker F M) (c : Command) (h : (w.apply c).2 = .error err) :
    Fails w (w.apply c).1 := by
  cases c with
  | reset =>
    show Fails w w.reset.1
    change w.reset.2 = .error err at h
    unfold reset at h ⊢
    split
    · exact .refl w
    · next i hi =>
      rw [hi] at h
      cases h
  | bootRom paths => exact w.fails_bootRom paths h
  | bootFirmware => exact w.fails_boot none none h
  | insertCart paths => exact w.fails_insertCart paths h
  | saveState path => exact w.fails_saveState path
  | loadState path => exact w.fails_loadState path
  | undoLoad => exact w.fails_undoLoad h
  | importSave path => exact w.fails_importSave path
  | _ => cases h

/-- What a command comes to when it is taken from the mailbox. -/
def outcome (w : Worker F M) (e : Envelope) : Reply :=
  if w.status = .exiting then .error .exiting else ((w.note (.taken e)).apply e.command).2

theorem handle_of_error {e : Envelope} (h : w.outcome e = .error err) :
    ∃ v : Worker F M, Fails w v ∧ w.handle e = v.respond e.caller (.error err) := by
  have htaken : Fails w (w.note (.taken e)) := w.fails_note trivial
  unfold outcome at h
  by_cases hexiting : w.status = .exiting
  · rw [if_pos hexiting] at h
    cases h
    exact ⟨_, htaken, handle_of_exiting hexiting e⟩
  · rw [if_neg hexiting] at h
    have hstep : e.command ≠ .frameStep := by
      intro hstep
      rw [hstep] at h
      cases h
    let applied := ((w.note (.taken e)).apply e.command).1
    have happlied : Fails w applied := htaken.trans (fails_apply _ _ h)
    refine ⟨applied.settle, happlied.trans applied.fails_settle, ?_⟩
    have hawake : (w.note (.taken e)).status ≠ .exiting := hexiting
    unfold handle serve
    dsimp only
    rw [if_neg hawake, if_neg hstep, h]

/-- **A command that fails spares what is there.** Whatever the worker, its machine, its factory and its
files are like, a command that comes to an error leaves the same machine installed and makes no call on
it but one that can be refused; status, pauses, activity, sound, messages and the path of the cartridge
save are what they were; and the error is the last thing entered, for the caller if there is one. -/
theorem failed_command_spares (w : Worker F M) (e : Envelope) (err : WorkerError)
    (h : w.outcome e = .error err) :
    let v := w.handle e
    v.machine.map Installed.boot = w.machine.map Installed.boot ∧
    Adds (fun event => ∀ boot call, event = .called boot call →
      w.machine.map Installed.boot = some boot ∧ call.Refusable) w v ∧
    v.control = w.control ∧ v.cart.path = w.cart.path ∧
    ∀ c, e.caller = some c → ∃ shown, v.journal.head? = some (.answered c (.error err) shown) := by
  intro v
  obtain ⟨u, hu, hv⟩ := handle_of_error h
  have hfails : Fails w v := by
    show Fails w (w.handle e)
    rw [hv]
    exact hu.trans (u.fails_respond _ _)
  obtain ⟨added, hjournal, hadded⟩ := hfails.adds
  refine ⟨hfails.boot, ⟨added, hjournal, ?_⟩, hfails.control, hfails.path, fun c hc => ?_⟩
  · rintro event hevent boot call rfl
    exact hadded _ hevent
  · refine ⟨u.shown, ?_⟩
    show (w.handle e).journal.head? = _
    rw [hv, hc]
    rfl

/-- The boot of what is no ROM fails after the save has been written and pointed to the file of that
ROM: the machine runs on, and saves to its own file. -/
theorem failed_boot_spares :
    let files := (((FileTree.empty []).plant (.ofString "a.nds") (.file (bytesOf ['1']))).plant
      (.ofString "b.nds") (.file (bytesOf ['B', 'A', 'D'])))
    let w := (rehearsal { saveEvery := 1 } files).run
      [.take ⟨.bootRom [.ofString "a.nds"], none⟩, .take ⟨.run, none⟩, .frame []]
    let e : Envelope := ⟨.bootRom [.ofString "b.nds"], some 1⟩
    let v := w.handle e
    w.cart.pending = true ∧ v.cart.pending = false ∧ v.control = w.control ∧
    v.machine.map Installed.boot = some 0 ∧ v.cart.path = some (.ofString "a.sav") ∧
    replyTo? 1 v.journal = some (.error (.machine (.boot "b.nds is not a valid ROM"))) := by
  intro files w e
  have h : w.outcome e = .error (.machine (.boot "b.nds is not a valid ROM")) := by decide +kernel
  have hw : w.cart.pending = true ∧ w.machine.map Installed.boot = some 0 ∧
      w.cart.path = some (.ofString "a.sav") := by decide +kernel
  have hv : (w.handle e).cart.pending = false ∧ replyTo? 1 (w.handle e).journal =
      some (.error (.machine (.boot "b.nds is not a valid ROM"))) := by decide +kernel
  obtain ⟨hboot, -, hcontrol, hpath, -⟩ := failed_command_spares w e _ h
  exact ⟨hw.1, hv.1, hcontrol, hboot.trans hw.2.1, hpath.trans hw.2.2, hv.2⟩

end Worker

end Handheld
