import Handheld.Proofs.Worker.Lockstep

/-!
# Who waits

Whether anybody waits for the commands of a run matters in one place: at the end of a frame that was
stepped to, a worker goes on stepping while more than one caller waits
(`independent_of_callers_iff`). Everything else that two workers do is the same (`Same`), whoever waits
for it, and their journals differ in callers and replies only (`deeds`).
-/

namespace Handheld

/-- An event, whoever waits; a reply is none. -/
def Event.unaddressed : Event → Option Event
  | .taken e => some (.taken ⟨e.command, none⟩)
  | .answered _ _ _ => none
  | e => some e

/-- What was done, whoever waits. -/
def deeds (events : List Event) : List Event := events.filterMap Event.unaddressed

/-- The calls among events, each with the boot of its machine. -/
def calls (events : List Event) : List (Nat × Call) :=
  events.filterMap fun e =>
    match e with
    | .called boot call => some (boot, call)
    | _ => none

theorem calls_append (early late : List Event) : calls (early ++ late) = calls early ++ calls late :=
  List.filterMap_append

theorem mem_calls {events : List Event} {boot : Nat} {call : Call} :
    (boot, call) ∈ calls events ↔ .called boot call ∈ events := by
  refine ⟨fun h => ?_, fun h => List.mem_filterMap.mpr ⟨_, h, rfl⟩⟩
  obtain ⟨e, he, hcall⟩ := List.mem_filterMap.mp h
  cases e with
  | called b c =>
    obtain ⟨rfl, rfl⟩ := Prod.mk.inj (Option.some.inj hcall)
    exact he
  | _ => cases hcall

theorem calls_deeds (events : List Event) : calls (deeds events) = calls events := by
  unfold calls deeds
  rw [List.filterMap_filterMap]
  congr 1
  funext e
  cases e <;> rfl

theorem deeds_append (early late : List Event) : deeds (early ++ late) = deeds early ++ deeds late :=
  List.filterMap_append

theorem deeds_cons {early late : List Event} {e f : Event} (h : deeds early = deeds late)
    (hef : e.unaddressed = f.unaddressed) : deeds (e :: early) = deeds (f :: late) := by
  rw [deeds, deeds, List.filterMap_cons, List.filterMap_cons, hef]
  cases f.unaddressed with
  | none => exact h
  | some f => exact congrArg _ h

namespace Worker

variable {F M : Type} {u v w : Worker F M}

/-- The same but for callers and replies. -/
def Same (w v : Worker F M) : Prop :=
  ∃ waiting journal, v = w.recast waiting journal ∧ deeds journal = deeds w.journal

theorem Same.refl (w : Worker F M) : Same w w := ⟨w.waiting, w.journal, rfl, rfl⟩

theorem inStep_same : InStep (Same (F := F) (M := M)) where
  recast := fun ⟨waiting, journal, hv, _⟩ => ⟨waiting, journal, hv⟩
  free := by
    rintro w v w' v' waiting ⟨_, journal, rfl, hdeeds⟩ hunsaved hv
    exact ⟨waiting, journal, hv, by rw [hunsaved.journal, hdeeds]⟩
  note := by
    rintro w v e ⟨waiting, journal, rfl, hdeeds⟩ -
    exact ⟨waiting, e :: journal, rfl, deeds_cons hdeeds rfl⟩
  receive := by
    rintro w v ⟨waiting, journal, rfl, hdeeds⟩ boot q
    refine ⟨waiting, _, w.recast_receive waiting journal boot q, ?_⟩
    have hjournal : (receive boot w q).journal = .requested boot q :: w.journal := by cases q <;> rfl
    rw [hjournal]
    exact deeds_cons hdeeds rfl
  flush := by
    rintro w v ⟨waiting, journal, rfl, hdeeds⟩ kind
    refine ⟨waiting, _, w.recast_flush waiting journal kind, ?_⟩
    rw [journal_flush, deeds_append, deeds_append, hdeeds]

theorem aiming_same : InStep.Aiming (Same (F := F) (M := M)) where
  toInStep := inStep_same
  point := by
    rintro w v ⟨waiting, journal, rfl, hdeeds⟩ path
    exact ⟨waiting, .pointed path :: journal, rfl, deeds_cons hdeeds rfl⟩
  disk := by
    rintro w v ⟨waiting, journal, rfl, hdeeds⟩ files
    exact ⟨waiting, journal, rfl, hdeeds⟩

theorem framing_same : InStep.Framing (Same (F := F) (M := M)) where
  toInStep := inStep_same
  call := by
    rintro w v c ⟨waiting, journal, rfl, hdeeds⟩ boot -
    exact ⟨waiting, .called boot c :: journal, rfl, deeds_cons hdeeds rfl⟩

theorem replying_same : InStep.Replying (Same (F := F) (M := M)) where
  toInStep := inStep_same
  answer_left := fun ⟨waiting, journal, hv, hdeeds⟩ _ _ => ⟨waiting, journal, hv, hdeeds⟩
  answer_right := by
    rintro w v ⟨waiting, journal, rfl, hdeeds⟩ c r
    exact ⟨waiting, _ :: journal, rfl, hdeeds⟩
  taken := by
    rintro w v e f ⟨waiting, journal, rfl, hdeeds⟩ hcommand
    exact ⟨waiting, .taken f :: journal, rfl, deeds_cons hdeeds (by simp [Event.unaddressed, hcommand])⟩

theorem Same.calls (h : Same w v) : calls v.journal = calls w.journal := by
  obtain ⟨waiting, journal, rfl, hdeeds⟩ := h
  show Handheld.calls journal = _
  rw [← calls_deeds, hdeeds, calls_deeds]

variable [Machine M] [Factory F M]

/-- At the end of each frame that is stepped to, both runs go on stepping, or neither does. -/
def EndsAlike (w : Worker F M) (acts others : List (Act F)) : Prop :=
  ∀ n meanwhile, acts[n]? = some (.frame meanwhile) → (w.run (acts.take n)).status = .frameStep →
    ((w.run (acts.take n)).waiting.length ≤ 1 ↔ (w.run (others.take n)).waiting.length ≤ 1)

omit [Factory F M] in
theorem status_frameWith_of_step (h : w.status = .frameStep) (meanwhile : List (Outside F)) :
    (w.frameWith meanwhile).status = if w.waiting.length ≤ 1 then .paused else .frameStep := by
  obtain ⟨hkeeps, hstatus⟩ := w.keeps_framed meanwhile
  have hruns : w.status.runsFrame = true := by rw [h]; rfl
  rw [frameWith_framed, if_pos hruns, settleFrame_of_step (hstatus.trans h), hkeeps.waiting]
  cases w.waiting.head? <;> rfl

theorem run_take_succ (w : Worker F M) {acts : List (Act F)} {n : Nat} {a : Act F}
    (h : acts[n]? = some a) : w.run (acts.take (n + 1)) = (w.run (acts.take n)).step a := by
  rw [List.take_add_one, h]
  exact w.run_concat _ a

omit [Machine M] [Factory F M] in
theorem getElem?_of_unaddressed {acts others : List (Act F)}
    (h : acts.map Act.unaddressed = others.map Act.unaddressed) (n : Nat) :
    (acts[n]?).map Act.unaddressed = (others[n]?).map Act.unaddressed := by
  rw [← List.getElem?_map, h, List.getElem?_map]

theorem same_run (w : Worker F M) {acts others : List (Act F)}
    (hsame : acts.map Act.unaddressed = others.map Act.unaddressed) (hends : w.EndsAlike acts others)
    (n : Nat) : Same (w.run (acts.take n)) (w.run (others.take n)) := by
  induction n with
  | zero => exact .refl w
  | succ n ih =>
    have hn := getElem?_of_unaddressed hsame n
    cases ha : acts[n]? with
    | none =>
      -- both runs are over
      rw [ha] at hn
      have hb : others[n]? = none := Option.map_eq_none_iff.mp hn.symm
      rw [List.take_add_one, List.take_add_one, ha, hb, Option.toList_none, List.append_nil,
        List.append_nil]
      exact ih
    | some a =>
      rw [ha] at hn
      obtain ⟨b, hb, hab⟩ := Option.map_eq_some_iff.mp hn.symm
      rw [run_take_succ w ha, run_take_succ w hb]
      refine InStep.step aiming_same framing_same replying_same ih hab.symm fun meanwhile hframe => ?_
      rw [hframe] at ha
      exact hends n meanwhile ha

/-- **Whether a caller waits matters for steps only.** Take two runs of a worker that differ in nothing but
who waits for which command. At every point their control, the number of their frames and the calls on
their machines are the same, if and only if at the end of every frame that was stepped to both go on
stepping or neither does: a step goes on while more than one caller waits, so that steps which nobody
waits for do not count. In that case all else is the same as well, but for callers and replies. -/
theorem independent_of_callers_iff (w : Worker F M) (acts others : List (Act F))
    (hsame : acts.map Act.unaddressed = others.map Act.unaddressed) :
    ((∀ n, let v := w.run (acts.take n)
        let u := w.run (others.take n)
        u.control = v.control ∧ u.frames = v.frames ∧
          Handheld.calls u.journal = Handheld.calls v.journal) ↔
      w.EndsAlike acts others) ∧
    (w.EndsAlike acts others → ∀ n, Same (w.run (acts.take n)) (w.run (others.take n))) := by
  refine ⟨⟨fun hagree n meanwhile ha hstep => ?_, fun hends n => ?_⟩, fun hends => same_run w hsame hends⟩
  · obtain ⟨b, hb, hframe⟩ := Option.map_eq_some_iff.mp
      ((getElem?_of_unaddressed hsame n).symm.trans (by rw [ha]; rfl))
    obtain rfl : .frame meanwhile = b := Act.eq_of_unaddressed nofun hframe.symm
    have hother : (w.run (others.take n)).status = .frameStep :=
      (congrArg Control.status (hagree n).1).trans hstep
    -- the frame tells the two apart, where one goes on stepping and the other pauses
    have hafter := congrArg Control.status (hagree (n + 1)).1
    rw [run_take_succ w ha, run_take_succ w hb] at hafter
    change ((w.run (others.take n)).frameWith meanwhile).status =
      ((w.run (acts.take n)).frameWith meanwhile).status at hafter
    rw [status_frameWith_of_step hstep, status_frameWith_of_step hother] at hafter
    split_ifs at hafter with hothers hacts hacts
    · exact iff_of_true hacts hothers
    · exact iff_of_false hacts hothers
  · have h := same_run w hsame hends n
    refine ⟨inStep_same.control_eq h, ?_, h.calls⟩
    obtain ⟨waiting, journal, hv, -⟩ := h
    rw [hv]
    rfl

/-- One step runs one frame, whether anybody waits for it or not. -/
theorem independent_of_callers_of_one_step :
    let w := (rehearsal {} (.empty [])).run [.take ⟨.bootFirmware, none⟩, .take ⟨.run, none⟩]
    let acts : Option Caller → List (Act ScriptFactory) := fun c =>
      [.take ⟨.frameStep, c⟩, .frame [], .frame []]
    (w.run (acts (some 1))).frames = 1 ∧
      (w.run (acts none)).frames = (w.run (acts (some 1))).frames := by
  intro w acts
  have hends : w.EndsAlike (acts (some 1)) (acts none) := by
    intro n meanwhile ha hstep
    match n with
    | 0 => cases ha
    | 1 => decide
    | 2 => exact absurd hstep (by decide)
    | n + 3 => cases ha
  obtain ⟨hiff, -⟩ := independent_of_callers_iff w (acts (some 1)) (acts none) rfl
  exact ⟨by decide, (hiff.mpr hends 3).2.1⟩

/-- Two steps in one batch run two frames if their callers wait, and one frame if nobody does. -/
theorem steps_dropped_without_callers :
    let w := (rehearsal {} (.empty [])).run [.take ⟨.bootFirmware, none⟩, .take ⟨.run, none⟩]
    let acts : Option Caller → Option Caller → List (Act ScriptFactory) := fun c d =>
      [.take ⟨.frameStep, c⟩, .take ⟨.frameStep, d⟩, .frame [], .frame []]
    (acts (some 1) (some 2)).map Act.unaddressed = (acts none none).map Act.unaddressed ∧
      (w.run (acts (some 1) (some 2))).frames = 2 ∧ (w.run (acts none none)).frames = 1 := by
  exact ⟨rfl, by decide, by decide⟩

end Worker

end Handheld
