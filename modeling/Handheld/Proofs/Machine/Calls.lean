import Handheld.Worker.Journal

/-!
# Calls on a machine

What a worker can do with a machine, as the journal names it, carried out on the machine alone: where
calls lead (`Machine.after`) and what is heard on the way (`Machine.sounds`). Two machines are
`SoundAlike` if no calls whatever make a difference to the ear.
-/

namespace Handheld

variable {M : Type}

section
variable {α : Type} (o : Outcome M α)

def Outcome.silent : Outcome M (List StereoFrame) where
  machine := o.machine
  requests := o.requests
  answer := []

@[simp] theorem Outcome.machine_silent : o.silent.machine = o.machine := rfl

@[simp] theorem Outcome.requests_silent : o.silent.requests = o.requests := rfl

@[simp] theorem Outcome.answer_silent : o.silent.answer = [] := rfl

end

variable [Machine M]

/-- What a call does to a machine, and the sound it hands out. What the journal notes of an answer plays
no part. -/
def Call.on (m : M) : Call → Outcome M (List StereoFrame)
  | .start => (Machine.start m).silent
  | .stop => (Machine.stop m).silent
  | .reset => (Machine.reset m).silent
  | .hearMic signal => (Machine.hearMic m signal).silent
  | .runFrame input => (Machine.runFrame m input).silent
  | .readOutput room _ => Machine.readOutput m room
  | .saveState _ => (Machine.saveState m).silent
  | .loadState data => (Machine.loadState m data).silent
  | .insertCart rom => (Machine.insertCart m rom).silent
  | .ejectCart => (Machine.ejectCart m).silent
  | .importSave data => (Machine.importSave m data).silent
  | .setCheats on => (Machine.setCheats m on).silent

def Call.isFrame : Call → Bool
  | .runFrame _ => true
  | _ => false

def framesIn (calls : List Call) : Nat := calls.countP Call.isFrame

theorem framesIn_cons (call : Call) (calls : List Call) :
    framesIn (call :: calls) = framesIn calls + framesIn [call] := by
  simp only [framesIn, List.countP_cons, List.countP_nil, Nat.zero_add]

namespace Machine

def after (m : M) (calls : List Call) : M := calls.foldl (fun m call => (call.on m).machine) m

/-- The sound handed out, call by call. -/
def sounds (m : M) : List Call → List (List StereoFrame)
  | [] => []
  | call :: calls => (call.on m).answer :: sounds (call.on m).machine calls

/-- What is asked of the host, call by call. -/
def requests (m : M) : List Call → List Request
  | [] => []
  | call :: calls => (call.on m).requests ++ requests (call.on m).machine calls

/-- Whatever is done with both, the same is heard. -/
def SoundAlike (a b : M) : Prop := ∀ calls, sounds a calls = sounds b calls

theorem after_cons (m : M) (call : Call) (calls : List Call) :
    after m (call :: calls) = after (call.on m).machine calls := rfl

theorem after_append (m : M) (early late : List Call) :
    after m (early ++ late) = after (after m early) late := List.foldl_append

theorem sounds_append (m : M) (early late : List Call) :
    sounds m (early ++ late) = sounds m early ++ sounds (after m early) late := by
  induction early generalizing m with
  | nil => rfl
  | cons call early ih =>
    show _ :: sounds _ (early ++ late) = _
    rw [ih]
    rfl

theorem length_sounds (m : M) (calls : List Call) : (sounds m calls).length = calls.length := by
  induction calls generalizing m with
  | nil => rfl
  | cons call calls ih => exact congrArg Nat.succ (ih _)

theorem SoundAlike.after {a b : M} (h : SoundAlike a b) (calls : List Call) :
    SoundAlike (after a calls) (Machine.after b calls) := by
  intro later
  have happend := h (calls ++ later)
  rw [sounds_append, sounds_append] at happend
  exact (List.append_inj happend (by rw [length_sounds, length_sounds])).2

end Machine

end Handheld
