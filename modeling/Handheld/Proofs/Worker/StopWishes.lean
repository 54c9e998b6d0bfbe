import Handheld.Proofs.Worker.Shifting

/-!
# Whose wish to be stopped is taken

All machines of a worker share one flag by which they ask to be stopped, and a poll takes it whoever has
raised it. Machines that are replaced, or that never come to start, leave it as it is, so that the machine
that is stopped may be another one (`stop_taken_for_installed_iff`). Who has raised the flag can be read off
the journal (`Standing.wishes_steps`), and so can whether the machine of a boot is still the installed one
(`Standing.Newest.installed_iff`).
-/

namespace Handheld

/-! ## Reading the journal -/

/-- The boots whose machines were started. -/
def starts (events : List Event) : List Nat :=
  events.filterMap fun e =>
    match e with
    | .called boot .start => some boot
    | _ => none

/-- The boots whose machines asked to be stopped. -/
def wishes (events : List Event) : List Nat :=
  events.filterMap fun e =>
    match e with
    | .requested boot .stop => some boot
    | _ => none

/-- The machine of a later boot has started, or that of this boot has not. -/
def Outlived (journal : List Event) (boot : Nat) : Prop :=
  (∃ later ∈ starts journal, boot < later) ∨ boot ∉ starts journal

instance (journal : List Event) (boot : Nat) : Decidable (Outlived journal boot) :=
  inferInstanceAs (Decidable (_ ∨ _))

/-- There are wishes, and they are all of machines that are not there any more. -/
def LeftOver (journal : List Event) (wishes : List Nat) : Prop :=
  wishes ≠ [] ∧ ∀ boot ∈ wishes, Outlived journal boot

instance (journal : List Event) (wishes : List Nat) : Decidable (LeftOver journal wishes) :=
  inferInstanceAs (Decidable (_ ∧ _))

theorem mem_starts {events : List Event} {boot : Nat} :
    boot ∈ starts events ↔ .called boot .start ∈ events := by
  constructor
  · intro h
    obtain ⟨e, he, hstart⟩ := List.mem_filterMap.mp h
    split at hstart
    · obtain rfl := Option.some.inj hstart
      exact he
    · cases hstart
  · intro h
    exact List.mem_filterMap.mpr ⟨_, h, rfl⟩

theorem wishes_append (early late : List Event) :
    wishes (early ++ late) = wishes early ++ wishes late := List.filterMap_append

namespace Standing

variable {may : License → Prop} {s t : Standing}

theorem wishes_step (hraise : ¬may .raise) (hlower : ¬may .lower) (hstep : Step may s t) :
    ∃ added, t.journal = added ++ s.journal ∧
      (t.stopRequested = true ↔ s.stopRequested = true ∨ wishes added ≠ []) := by
  have hnothing : s.stopRequested = true ↔ s.stopRequested = true ∨ wishes [] ≠ [] := by
    simp [wishes]
  cases hstep with
  | @enter e he =>
    refine ⟨[e], rfl, ?_⟩
    cases e with
    | requested => exact he.elim
    | _ => exact hnothing
  | @request b q =>
    refine ⟨[.requested b q], rfl, ?_⟩
    cases q <;> simp [wishes]
  | raise hmay => exact absurd hmay hraise
  | lower hmay => exact absurd hmay hlower
  | ask | start | call | answer | tell => exact ⟨[_], rfl, hnothing⟩
  | _ => exact ⟨[], rfl, hnothing⟩

theorem wishes_steps (hraise : ¬may .raise) (hlower : ¬may .lower)
    (hsteps : Relation.ReflTransGen (Step may) s t) :
    ∃ added, t.journal = added ++ s.journal ∧
      (t.stopRequested = true ↔ s.stopRequested = true ∨ wishes added ≠ []) := by
  induction hsteps with
  | refl => exact ⟨[], rfl, by simp [wishes]⟩
  | tail _ hstep ih =>
    obtain ⟨early, hearly, hbefore⟩ := ih
    obtain ⟨late, hlate, hafter⟩ := wishes_step hraise hlower hstep
    refine ⟨late ++ early, by rw [hlate, hearly, List.append_assoc], ?_⟩
    rw [hafter, hbefore, wishes_append, ne_eq (_ ++ _), List.append_eq_nil_iff, not_and_or, or_assoc,
      or_comm (a := wishes early ≠ [])]

/-- The installed machine is the latest one that has started. -/
structure Newest (s : Standing) : Prop where
  started : ∀ b, s.boot = some b → b ∈ starts s.journal
  newest : ∀ b ∈ starts s.journal, ∃ c, s.boot = some c ∧ b ≤ c

theorem Newest.enter (h : Newest s) {e : Event} (he : ∀ b, e ≠ .called b .start) :
    Newest (s.enter e) where
  started := fun b hb => mem_starts.mpr (List.mem_cons_of_mem e (mem_starts.mp (h.started b hb)))
  newest := fun b hb => by
    rcases List.mem_cons.mp (mem_starts.mp hb) with heq | hmem
    · exact absurd heq.symm (he b)
    · exact h.newest b (mem_starts.mpr hmem)

theorem Newest.step (h : Newest s) (hnumbered : Numbered s) (hvacate : ¬may .vacate)
    (hstep : Step may s t) : Newest t := by
  cases hstep with
  | enter he =>
    refine h.enter ?_
    rintro b rfl
    exact he
  | ask rom =>
    have hentered : Newest (s.enter (.asked s.boots rom)) := h.enter nofun
    exact ⟨hentered.started, hentered.newest⟩
  | @start b hfresh =>
    refine ⟨fun c hc => ?_, fun c hc => ⟨b, rfl, ?_⟩⟩
    · obtain rfl := Option.some.inj hc
      exact mem_starts.mpr List.mem_cons_self
    · rcases List.mem_cons.mp (mem_starts.mp hc) with heq | hmem
      · exact Nat.le_of_eq (Event.called.inj heq).1
      · have hlt : c < s.boots := hnumbered.called c _ hmem
        rw [hfresh.boots] at hlt
        exact Nat.lt_succ_iff.mp hlt
  | call hb hcall =>
    refine h.enter fun b heq => ?_
    exact hcall (Event.called.inj heq).2
  | @request b q =>
    have hentered : Newest (s.enter (.requested b q)) := h.enter nofun
    exact ⟨hentered.started, hentered.newest⟩
  | vacate hmay => exact absurd hmay hvacate
  | answer | tell => exact h.enter nofun
  | forget | keep | raise | lower | publish | queue => exact ⟨h.started, h.newest⟩

theorem Newest.steps (h : Newest s) (hnumbered : Numbered s) (hvacate : ¬may .vacate)
    (hsteps : Relation.ReflTransGen (Step may) s t) : Newest t := by
  induction hsteps with
  | refl => exact h
  | tail hsteps hstep ih => exact ih.step (hnumbered.steps hsteps) hvacate hstep

theorem Newest.installed_iff (h : Newest s) (b : Nat) : s.boot = some b ↔ ¬Outlived s.journal b := by
  constructor
  · rintro hb (⟨later, hlater, hlt⟩ | hnever)
    · obtain ⟨c, hc, hle⟩ := h.newest later hlater
      obtain rfl := Option.some.inj (hb.symm.trans hc)
      omega
    · exact hnever (h.started b hb)
  · intro hthere
    have hstarted : b ∈ starts s.journal := by
      by_contra hnever
      exact hthere (.inr hnever)
    obtain ⟨c, hc, hle⟩ := h.newest b hstarted
    rcases Nat.eq_or_lt_of_le hle with rfl | hlt
    · exact hc
    · exact absurd (.inl ⟨c, h.started c hc, hlt⟩) hthere

/-- Wishes are left over unless one of them is the installed machine's. -/
theorem Newest.leftOver_iff (h : Newest s) (wishes : List Nat) :
    (wishes ≠ [] → ∃ boot ∈ wishes, s.boot = some boot) ↔ ¬LeftOver s.journal wishes := by
  constructor
  · rintro hinstalled ⟨hsome, houtlived⟩
    obtain ⟨boot, hboot, hthere⟩ := hinstalled hsome
    exact (h.installed_iff boot).mp hthere (houtlived boot hboot)
  · intro hleft hsome
    have hthere : ∃ boot ∈ wishes, ¬Outlived s.journal boot := by
      by_contra hnone
      push Not at hnone
      exact hleft ⟨hsome, hnone⟩
    obtain ⟨boot, hboot, hmine⟩ := hthere
    exact ⟨boot, hboot, (h.installed_iff boot).mpr hmine⟩

end Standing

namespace Worker

variable {F M : Type} [Machine M] {w : Worker F M}

theorem stopRequested_poll (w : Worker F M) : w.poll.stopRequested = false := by
  show w.pollHotkeys.takeStop.stopRequested = false
  unfold takeStop
  split
  · rw [stopRequested_settle]
    rfl
  · next h => simpa using h

/-- Only machines raise the flag, and nobody takes it or a machine. -/
def LeavesFlag (l : License) : Prop := l ≠ .raise ∧ l ≠ .lower ∧ l ≠ .vacate

variable [Factory F M]

theorem newest_run (hw : w.standing.Numbered) (h : w.standing.Newest) {acts : List (Act F)}
    (hacts : .shutdown ∉ acts) : (w.run acts).standing.Newest := by
  let may : License → Prop := (· ≠ .vacate)
  have hrun : Shifts may w (w.run acts) := by
    refine w.shifts_run fun early a late heq l hl => ?_
    rintro rfl
    have ha : a = .shutdown := hl
    rw [heq, ha] at hacts
    simp at hacts
  exact h.steps hw (fun hmay => hmay rfl) (hrun hw)

omit [Machine M] [Factory F M] in
theorem newest_new (id : Nat) (factory : F) (world : World) (cartSave firmwareSave : Option Path)
    (audio : Pipeline) (mic : MicInput) :
    (new id factory world cartSave firmwareSave audio mic : Worker F M).standing.Newest where
  started := nofun
  newest := nofun

theorem stopRequested_run {acts : List (Act F)} (hw : w.stopRequested = false)
    (hacts : acts = [] ∨ ∃ early, acts = early ++ [.poll]) : (w.run acts).stopRequested = false := by
  rcases hacts with rfl | ⟨early, rfl⟩
  · exact hw
  · rw [run_concat]
    exact stopRequested_poll _

theorem shifts_to_poll (w : Worker F M) {acts : List (Act F)}
    (hacts : ∀ a ∈ acts, a ≠ .poll ∧ ¬a.Raises) (hshutdown : .shutdown ∉ acts) :
    Shifts LeavesFlag w (w.run acts).pollHotkeys := by
  have hrun : Shifts LeavesFlag w (w.run acts) := by
    refine w.shifts_run fun early a late heq l hl => ?_
    have ha : a ∈ acts := by
      rw [heq]
      simp
    refine ⟨?_, ?_, ?_⟩
    · rintro rfl
      exact (hacts a ha).2 hl
    · rintro rfl
      exact (hacts a ha).1 hl
    · rintro rfl
      have hend : a = .shutdown := hl
      exact hshutdown (hend ▸ ha)
  exact hrun.trans ((w.run acts).shifts_pollHotkeys ⟨nofun, nofun, nofun⟩ ⟨nofun, nofun, nofun⟩)

/-- **Whose wish to be stopped is taken.** Take a run of a worker that is not shut down, and in it the
stretch from one poll, or from the start, to the next; nobody but machines raises the flag there. That poll
halts the worker, after the hotkeys, exactly if some machine has asked to be stopped in this stretch. One of
them is the machine that is installed now unless all of these wishes are left over: each of a machine that
has been replaced by a later boot, or that never started. -/
theorem stop_taken_for_installed_iff (id : Nat) (factory : F) (world : World)
    (cartSave firmwareSave : Option Path) (audio : Pipeline) (mic : MicInput)
    (before since : List (Act F)) (hbefore : before = [] ∨ ∃ early, before = early ++ [.poll])
    (hsince : ∀ a ∈ since, a ≠ .poll ∧ ¬a.Raises) (hshutdown : .shutdown ∉ before ++ since) :
    let w : Worker F M := .new id factory world cartSave firmwareSave audio mic
    let polled := w.run before
    let v := (polled.run since).pollHotkeys
    ∃ added, v.journal = added ++ polled.journal ∧
      (polled.run since).poll.control = (if wishes added = [] then v.control else v.control.halt) ∧
      ((wishes added ≠ [] → ∃ boot ∈ wishes added, v.installedBoot = some boot) ↔
        ¬LeftOver v.journal (wishes added)) := by
  intro w polled v
  have hw : w.standing.Numbered := numbered_new id factory world cartSave firmwareSave audio mic
  have hpolled : polled.standing.Numbered := numbered_run hw before
  have hlowered : polled.stopRequested = false := stopRequested_run rfl hbefore
  have hshifts : Shifts LeavesFlag polled v :=
    polled.shifts_to_poll hsince fun h => hshutdown (List.mem_append_right before h)
  obtain ⟨added, hjournal, hflag⟩ :=
    Standing.wishes_steps (fun h => h.1 rfl) (fun h => h.2.1 rfl) (hshifts hpolled)
  have hraised : v.stopRequested = true ↔ wishes added ≠ [] := by
    refine hflag.trans (or_iff_right ?_)
    exact fun h => by simp [standing, hlowered] at h
  have hnewest : v.standing.Newest := by
    have hstart : w.standing.Newest :=
      newest_new id factory world cartSave firmwareSave audio mic
    have hbegun : polled.standing.Newest :=
      newest_run hw hstart fun h => hshutdown (List.mem_append_left since h)
    exact hbegun.steps hpolled (fun h => h.2.2 rfl) (hshifts hpolled)
  refine ⟨added, hjournal, ?_, hnewest.leftOver_iff (wishes added)⟩
  show v.takeStop.control = _
  rw [control_takeStop]
  by_cases hnone : wishes added = []
  · rw [if_pos hnone, if_neg fun h => hraised.mp h hnone]
  · rw [if_neg hnone, if_pos (hraised.mpr hnone)]

/-- A machine asks to be stopped in its first frame, and is. -/
theorem stop_taken_for_machine_that_asked :
    let w : Worker ScriptFactory ScriptMachine := rehearsal { stopAt := 1 } (.empty [])
    let ran := w.run [.take ⟨.bootFirmware, none⟩, .take ⟨.run, none⟩, .frame []]
    let v := ran.pollHotkeys
    ran.poll.control = v.control.halt ∧
      ∃ boot ∈ wishes v.journal, v.installedBoot = some boot := by
  intro w ran v
  obtain ⟨added, hjournal, hpoll, hiff⟩ := stop_taken_for_installed_iff 0
    (⟨{ stopAt := 1 }, false⟩ : ScriptFactory) ⟨.empty [], {}, 0⟩ none none (.new 0 {} {} {})
    (.new (.empty []) .silence none) []
    [.take ⟨.bootFirmware, none⟩, .take ⟨.run, none⟩, .frame []] (.inl rfl)
    (by simp [Act.Raises]) (by simp)
  change v.journal = added ++ [] at hjournal
  rw [List.append_nil] at hjournal
  rw [← hjournal] at hpoll hiff
  have hwish : wishes v.journal ≠ [] := by decide
  have hmine : ¬LeftOver v.journal (wishes v.journal) := by decide
  exact ⟨hpoll.trans (if_neg hwish), hiff.mpr hmine hwish⟩

/-- A machine asks to be stopped in its first frame and is replaced right after that: the next poll stops
the machine that has taken its place, and that has asked for nothing. -/
theorem stop_taken_for_replaced_machine :
    let w : Worker ScriptFactory ScriptMachine := rehearsal { stopAt := 1 } (.empty [])
    let v := w.passes [[⟨.bootFirmware, none⟩, ⟨.run, none⟩], [⟨.bootFirmware, none⟩, ⟨.run, none⟩]]
    v.installedBoot = some 1 ∧ wishes v.journal = [0] ∧ v.status = .running ∧ v.active = true ∧
      v.poll.status = .paused ∧ v.poll.active = false := by
  decide

end Worker

end Handheld
