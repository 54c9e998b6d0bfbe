import Handheld.Proofs.Files.Replace
import Handheld.Proofs.Save.Session
import Mathlib.Data.List.Forall2

/-!
# Which requests reach the disk

While a thread attends to a store, a request is written exactly when no other one follows it for the
debounce time (`writes_quiet_requests`). `quiet` reads these requests off a timed list, with no
reference to a store. The invariant `Serving` splits the list at its last request: what comes before
is settled, and the last one is written or still pending. The thread leaves no write due
(`Serving.act`), so at every look at the clock the writes are those of the quiet requests so far.
-/

namespace Handheld

/-! ## Timed requests -/

/-- What happens to a store while nobody asks for a write. -/
inductive Traffic where
  | request (image : Bytes) (offset length : Nat)
  | wait (time : Nat)

namespace Traffic

def event : Traffic → SaveEvent
  | request image offset length => .request image offset length
  | wait time => .advance time

/-- The requests with their times, when the clock shows `now` before the first of them. -/
def timed (now : Nat) : List Traffic → List SaveRequest
  | [] => []
  | request image _ _ :: rest => ⟨now, image⟩ :: timed now rest
  | wait time :: rest => timed (now + time) rest

def endTime (now : Nat) : List Traffic → Nat
  | [] => now
  | request _ _ _ :: rest => endTime now rest
  | wait time :: rest => endTime (now + time) rest

end Traffic

/-- The time of the next request, or the final time if there is none. -/
def nextTime (final : Nat) : List SaveRequest → Nat
  | [] => final
  | r :: _ => r.time

/-- The requests that are followed by at least the debounce time without another one. -/
def quiet (debounce final : Nat) : List SaveRequest → List SaveRequest
  | [] => []
  | r :: rest =>
    if debounce ≤ nextTime final rest - r.time then r :: quiet debounce final rest
    else quiet debounce final rest

theorem nextTime_append (final : Nat) (rs : List SaveRequest) (r : SaveRequest) :
    nextTime final (rs ++ [r]) = nextTime r.time rs := by
  cases rs <;> rfl

theorem quiet_append (debounce final : Nat) (rs : List SaveRequest) (r : SaveRequest) :
    quiet debounce final (rs ++ [r]) =
      quiet debounce r.time rs ++ if debounce ≤ final - r.time then [r] else [] := by
  induction rs with
  | nil => rfl
  | cons a rs ih =>
    rw [List.cons_append, quiet, quiet, nextTime_append, ih]
    split_ifs <;> rfl

theorem quiet_of_burst {debounce final : Nat} {rs : List SaveRequest} {r : SaveRequest}
    (hlast : rs.getLast? = some r) (hfinal : debounce ≤ final - r.time)
    (h : rs.IsChain fun a b => b.time - a.time < debounce) : quiet debounce final rs = [r] := by
  induction h with
  | nil => cases hlast
  | singleton a =>
    cases hlast
    exact if_pos hfinal
  | @cons_cons a b rs hab _ ih =>
    have hgap : ¬debounce ≤ b.time - a.time := Nat.not_le.mpr hab
    rw [quiet, nextTime, if_neg hgap]
    exact ih (by simpa using hlast)

theorem quiet_of_spaced {debounce final : Nat} {rs : List SaveRequest}
    (hfinal : ∀ r, rs.getLast? = some r → debounce ≤ final - r.time)
    (h : rs.IsChain fun a b => debounce ≤ b.time - a.time) : quiet debounce final rs = rs := by
  induction h with
  | nil => rfl
  | singleton a => exact if_pos (hfinal a rfl)
  | @cons_cons a b rs hab _ ih =>
    rw [quiet, nextTime, if_pos hab, ih fun r hr => hfinal r (by simpa using hr)]

namespace SaveSession

/-! ## A thread that attends to its store -/

/-- Let the thread act after everything that happens. -/
def attended (s : SaveSession) (traffic : List Traffic) : SaveSession :=
  traffic.foldl (fun s e => (s.step e.event).act) s

/-- A write of the image of a request, not before the debounce time is over. -/
structure Served (p : Path) (debounce : Nat) (r : SaveRequest) (x : DiskWrite) : Prop where
  path : x.write.path = p
  image : x.write.image = r.image
  time : r.time + debounce ≤ x.time

theorem images_of_served {p : Path} {debounce : Nat} {rs : List SaveRequest} {xs : List DiskWrite}
    (h : List.Forall₂ (Served p debounce) rs xs) :
    xs.map (·.write.image) = rs.map (·.image) := by
  induction h with
  | nil => rfl
  | cons hserved _ ih => rw [List.map_cons, List.map_cons, hserved.image, ih]

/-- What is written when the last request is `r`, and `early` came before. -/
def Written (p : Path) (s : SaveSession) (early : List SaveRequest) (r : SaveRequest) : Prop :=
  let debounce := s.flusher.debounce
  (s.store.pending = true ∧
    List.Forall₂ (Served p debounce) (quiet debounce r.time early) s.writes) ∨
  (s.store.pending = false ∧ debounce ≤ s.now - r.time ∧
    List.Forall₂ (Served p debounce) (quiet debounce r.time early ++ [r]) s.writes)

/-- A live thread serves a store with a path that the disk accepts; all but the last request are
settled. -/
structure Serving (p : Path) (s : SaveSession) : Prop where
  alive : s.flusher.alive = true
  path : s.store.path = some p
  accepts : s.files.Accepts p
  idle : s.underway = none
  fresh : s.requests = [] → s.store.pending = false ∧ s.writes = []
  last : ∀ early r, s.requests = early ++ [r] →
    r.time ≤ s.now ∧ s.store.lastRequest = some r.time ∧ s.store.image = r.image ∧
      s.Written p early r

theorem serving_start {p : Path} {files : FileTree} (h : files.Accepts p) (debounce : Nat) :
    Serving p (start (some p) debounce files) where
  alive := rfl
  path := rfl
  accepts := h
  idle := rfl
  fresh := fun _ => ⟨rfl, rfl⟩
  last := fun early r hr => by simp [start] at hr

def isDue (s : SaveSession) : Bool := s.store.isDue s.now s.flusher.debounce

theorem Serving.isDue_iff {p : Path} {s : SaveSession} (h : Serving p s)
    {early : List SaveRequest} {r : SaveRequest} (hr : s.requests = early ++ [r]) :
    s.isDue = true ↔ s.store.pending = true ∧ s.flusher.debounce ≤ s.now - r.time := by
  obtain ⟨-, hlast, -, -⟩ := h.last early r hr
  simp [isDue, SaveStore.isDue, h.path, hlast]

/-- With no write due, what is written is what has been quiet up to now. -/
theorem Serving.writes_quiet {p : Path} {s : SaveSession} (h : Serving p s)
    (hdue : s.isDue = false) :
    List.Forall₂ (Served p s.flusher.debounce) (quiet s.flusher.debounce s.now s.requests)
      s.writes := by
  rcases List.eq_nil_or_concat' s.requests with hr | ⟨early, r, hr⟩
  · rw [hr, (h.fresh hr).2]
    exact .nil
  · obtain ⟨-, -, -, hwritten⟩ := h.last early r hr
    rw [hr, quiet_append]
    -- a pending request has not been quiet for long enough, or its write would be due
    rcases hwritten with ⟨hpending, hw⟩ | ⟨-, hle, hw⟩
    · have hlt : ¬s.flusher.debounce ≤ s.now - r.time := fun hle => by
        rw [(h.isDue_iff hr).mpr ⟨hpending, hle⟩] at hdue
        cases hdue
      rwa [if_neg hlt, List.append_nil]
    · rwa [if_pos hle]

/-! ## What each step keeps -/

theorem Serving.request {p : Path} {s : SaveSession} (h : Serving p s) (hdue : s.isDue = false)
    (image : Bytes) (offset length : Nat) :
    Serving p (s.step (.request image offset length)) where
  alive := h.alive
  path := h.path
  accepts := h.accepts
  idle := h.idle
  fresh := fun hr => by simp [step] at hr
  last := fun early r hr => by
    obtain ⟨rfl, hsame⟩ := List.append_inj' hr rfl
    cases hsame
    refine ⟨Nat.le_refl _, rfl, ?_, .inl ⟨rfl, h.writes_quiet hdue⟩⟩
    exact SaveStore.image_request s.store s.now image offset length

theorem Serving.wait {p : Path} {s : SaveSession} (h : Serving p s) (time : Nat) :
    Serving p (s.step (.advance time)) where
  alive := h.alive
  path := h.path
  accepts := h.accepts
  idle := h.idle
  fresh := h.fresh
  last := fun early r hr => by
    obtain ⟨hle, hlast, himage, hwritten⟩ := h.last early r hr
    refine ⟨Nat.le_add_right_of_le hle, hlast, himage, ?_⟩
    rcases hwritten with hw | ⟨hpending, hgap, hw⟩
    · exact .inl hw
    · refine .inr ⟨hpending, ?_, hw⟩
      show s.flusher.debounce ≤ s.now + time - r.time
      omega

theorem Serving.act_of_due {p : Path} {s : SaveSession} (h : Serving p s)
    (hdue : s.isDue = true) :
    Serving p s.act ∧ s.act.isDue = false := by
  rcases List.eq_nil_or_concat' s.requests with hr | ⟨early, r, hr⟩
  · simp [SaveSession.isDue, SaveStore.isDue, (h.fresh hr).1] at hdue
  · obtain ⟨hpending, hgap⟩ := (h.isDue_iff hr).mp hdue
    obtain ⟨hle, hlast, himage, hwritten⟩ := h.last early r hr
    obtain ⟨files, hfiles⟩ := h.accepts s.store.image
    let w : SaveWrite := ⟨p, s.store.image, s.store.version⟩
    have hact : s.act = s.settle ⟨s.store.commit w, files, true, some w⟩ := by
      have hdue' : (s.flusher.alive && s.store.isDue s.now s.flusher.debounce) = true := by
        rw [h.alive]
        exact hdue
      have hcheck : s.store.checkFlush s.files = ⟨s.store.commit w, files, true, some w⟩ := by
        rw [SaveStore.checkFlush, SaveStore.nextWrite_of_pending hpending h.path]
        exact SaveStore.attempt_ok hfiles
      simp only [act, finish_of_underway_none h.idle, if_pos hdue', flush, hcheck]
    have hdone : s.act.store.pending = false := by
      rw [hact]
      show decide (s.store.version ≠ s.store.version) = false
      simp
    refine ⟨?_, by simp [SaveSession.isDue, SaveStore.isDue, hdone]⟩
    rw [hact] at hdone ⊢
    exact
      { alive := h.alive
        path := h.path
        accepts := (FileTree.accepts_of_replaceFile hfiles).2
        idle := h.idle
        fresh := fun hnil => by
          have : s.requests = [] := hnil
          simp [hr] at this
        last := fun early' r' hr' => by
          obtain ⟨rfl, hsame⟩ := List.append_inj' (hr.symm.trans hr') rfl
          cases hsame
          refine ⟨hle, hlast, himage, .inr ⟨hdone, hgap, ?_⟩⟩
          -- the request was still pending, so that only the earlier ones had been written
          have hw : List.Forall₂ (Served p s.flusher.debounce) (quiet s.flusher.debounce r.time early)
              s.writes := by
            rcases hwritten with ⟨-, hw⟩ | ⟨hnone, -, -⟩
            · exact hw
            · rw [hpending] at hnone
              cases hnone
          refine List.rel_append hw (.cons ⟨rfl, himage, ?_⟩ .nil)
          show r.time + s.flusher.debounce ≤ s.now
          omega }

theorem Serving.act {p : Path} {s : SaveSession} (h : Serving p s) :
    Serving p s.act ∧ s.act.isDue = false := by
  cases hdue : s.isDue with
  | true => exact h.act_of_due hdue
  | false =>
    have hact : s.act = s := by
      have hdue' : ¬(s.flusher.alive && s.store.isDue s.now s.flusher.debounce) = true := by
        rw [h.alive, Bool.true_and]
        exact Bool.not_eq_true _ ▸ hdue
      simp only [SaveSession.act, finish_of_underway_none h.idle, if_neg hdue']
    rw [hact]
    exact ⟨h, hdue⟩

/-! ## Runs -/

theorem requests_finish (s : SaveSession) : s.finish.requests = s.requests := by
  unfold finish
  split <;> rfl

theorem act_history (s : SaveSession) :
    s.act.requests = s.requests ∧ s.act.now = s.now ∧ s.act.flusher.debounce = s.flusher.debounce := by
  have hdebounce : s.finish.flusher.debounce = s.flusher.debounce := by
    unfold finish
    split <;> rfl
  unfold act
  dsimp only
  split
  · rw [flush_finish]
    exact ⟨s.requests_finish, s.now_finish, hdebounce⟩
  · exact ⟨s.requests_finish, s.now_finish, hdebounce⟩

theorem attended_history (s : SaveSession) (traffic : List Traffic) :
    (s.attended traffic).requests = s.requests ++ Traffic.timed s.now traffic ∧
    (s.attended traffic).now = Traffic.endTime s.now traffic ∧
    (s.attended traffic).flusher.debounce = s.flusher.debounce := by
  induction traffic generalizing s with
  | nil => exact ⟨(List.append_nil _).symm, rfl, rfl⟩
  | cons e traffic ih =>
    obtain ⟨hrequests, hnow, hdebounce⟩ := ih (s.step e.event).act
    obtain ⟨hrequests', hnow', hdebounce'⟩ := (s.step e.event).act_history
    rw [hrequests', hnow'] at hrequests
    rw [hnow'] at hnow
    rw [hdebounce'] at hdebounce
    cases e with
    | request image offset length =>
      refine ⟨hrequests.trans ?_, hnow, hdebounce⟩
      exact List.append_assoc s.requests [⟨s.now, image⟩] (Traffic.timed s.now traffic)
    | wait time => exact ⟨hrequests, hnow, hdebounce⟩

theorem Serving.attended {p : Path} {s : SaveSession} (h : Serving p s) (hdue : s.isDue = false)
    (traffic : List Traffic) :
    Serving p (s.attended traffic) ∧ (s.attended traffic).isDue = false := by
  induction traffic generalizing s with
  | nil => exact ⟨h, hdue⟩
  | cons e traffic ih =>
    have hstep : Serving p (s.step e.event) := by
      cases e with
      | request image offset length => exact h.request hdue image offset length
      | wait time => exact h.wait time
    exact ih hstep.act.1 hstep.act.2

/-- **The quiet requests are written, and no others.** With a path that the disk accepts and a thread
that acts whenever a write is due, the writes are, one by one and in order, those of the requests that
no other one follows within the debounce time, and none comes before that time is over. So a burst
yields one write of its last image, and spaced requests yield one write each. -/
theorem writes_quiet_requests (p : Path) (debounce : Nat) (files : FileTree)
    (haccepts : files.Accepts p) (traffic : List Traffic) :
    let requests := Traffic.timed 0 traffic
    let final := Traffic.endTime 0 traffic
    let writes := ((start (some p) debounce files).attended traffic).writes
    List.Forall₂ (Served p debounce) (quiet debounce final requests) writes ∧
    (∀ r, requests.getLast? = some r → debounce ≤ final - r.time →
      requests.IsChain (fun a b => b.time - a.time < debounce) →
      writes.map (·.write.image) = [r.image]) ∧
    ((∀ r, requests.getLast? = some r → debounce ≤ final - r.time) →
      requests.IsChain (fun a b => debounce ≤ b.time - a.time) →
      writes.map (·.write.image) = requests.map (·.image)) := by
  intro requests final writes
  obtain ⟨hserving, hdue⟩ := (serving_start haccepts debounce).attended rfl traffic
  obtain ⟨hrequests, hnow, hdebounce⟩ := (start (some p) debounce files).attended_history traffic
  have key : List.Forall₂ (Served p debounce) (quiet debounce final requests) writes := by
    have hquiet := hserving.writes_quiet hdue
    rw [hrequests, hnow, hdebounce] at hquiet
    exact hquiet
  have himages : writes.map (·.write.image) = (quiet debounce final requests).map (·.image) :=
    images_of_served key
  refine ⟨key, fun r hlast hfinal hburst => ?_, fun hfinal hspaced => ?_⟩
  · rw [himages, quiet_of_burst hlast hfinal hburst]
    rfl
  · rw [himages, quiet_of_spaced hfinal hspaced]

/-- A burst that ends right at the boundary, and a second one before a long wait. -/
theorem writes_quiet_requests_of_two_bursts :
    let traffic : List Traffic :=
      [.request #[1] 0 1, .wait 3, .request #[2] 0 1, .wait 5, .request #[3] 0 1, .request #[4] 0 1,
        .wait 90]
    let s := (start (some ⟨['a']⟩) 5 (.empty [])).attended traffic
    List.Forall₂ (Served ⟨['a']⟩ 5) [⟨3, #[2]⟩, ⟨8, #[4]⟩] s.writes ∧
      s.writes.map (·.time) = [8, 98] := by
  intro traffic s
  have hreplaced : ∃ t, (FileTree.empty []).replaceFile ⟨['a']⟩ #[] = (t, .ok ()) := ⟨_, rfl⟩
  obtain ⟨t, ht⟩ := hreplaced
  have haccepts : (FileTree.empty []).Accepts ⟨['a']⟩ := (FileTree.accepts_of_replaceFile ht).1
  have hquiet : quiet 5 (Traffic.endTime 0 traffic) (Traffic.timed 0 traffic) =
      [⟨3, #[2]⟩, ⟨8, #[4]⟩] := by decide
  rw [← hquiet]
  exact ⟨(writes_quiet_requests ⟨['a']⟩ 5 (.empty []) haccepts traffic).1, by decide⟩

end SaveSession

end Handheld
