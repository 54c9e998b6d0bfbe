import Handheld.Machine.Tone

/-!
# The tone machine with its checks

Counting a frame adds to a word, divides by another one and writes a byte of the save image, an import
writes over the front of the image, and the pitch of a ROM adds up all its bytes. Here each of these steps
says where it fails. A sum that does not fit its word either ends the program or wraps around: that depends
on how the program is built. The program that is run here checks its sums (`CheckedTone`).
-/

namespace Handheld

inductive Fault where
  | overflow
  | divideByZero
  | outOfRange
deriving DecidableEq

/-- What becomes of a sum that does not fit its word. -/
inductive OnOverflow where
  | stop
  | wrap
deriving DecidableEq

def addOne? (o : OnOverflow) (n : UInt64) : Except Fault UInt64 :=
  if o = .stop ∧ n.toNat + 1 = UInt64.size then .error .overflow else .ok (n + 1)

def add? (o : OnOverflow) (a b : UInt32) : Except Fault UInt32 :=
  if o = .stop ∧ UInt32.size ≤ a.toNat + b.toNat then .error .overflow else .ok (a + b)

def divMod? (n d : UInt64) : Except Fault (UInt64 × UInt64) :=
  if d = 0 then .error .divideByZero else .ok (n / d, n % d)

/-- Add one to a byte of an image; the byte wraps around. -/
def increase? (image : Bytes) (i : Nat) : Except Fault Bytes :=
  if h : i < image.size then .ok (image.set i (image[i] + 1)) else .error .outOfRange

/-- Write so many bytes over the front of an image. -/
def overwrite? (image data : Bytes) (n : Nat) : Except Fault Bytes :=
  if n ≤ image.size ∧ n ≤ data.size then .ok (data.extract 0 n ++ image.extract n image.size)
  else .error .outOfRange

/-- The sum of all bytes in a word of 32 bits, one added after the other. -/
def byteSum? (o : OnOverflow) (data : Bytes) : Except Fault UInt32 :=
  data.foldlM (fun sum b => add? o sum b.toUInt32) 0

def pitchOf? (o : OnOverflow) (data : Bytes) : Except Fault Float := do
  let sum ← byteSum? o data
  return 220 + Scalar.floatOfWord (sum.toNat % 660)

namespace ToneMachine

def count? (o : OnOverflow) (m : ToneMachine) : Except Fault (Outcome ToneMachine Unit) := do
  let frame ← addOne? o m.frame
  let (seconds, rest) ← divMod? frame m.fps
  if rest = 0 then
    let offset := seconds.toNat % toneSaveSize
    let save ← increase? m.save offset
    return { machine := { m with frame, save }, requests := [.saveCart save offset 1], answer := () }
  else
    return { machine := { m with frame }, answer := () }

def advance? (o : OnOverflow) (m : ToneMachine) (input : FrameInput) : Except Fault (Outcome ToneMachine Unit) :=
  let total := m.carry + m.samplesPerFrame
  let n := Scalar.toWord total
  let m := { m with carry := total - Scalar.floatOfWord n }
  (play (input.keys ≠ keysReleased) n m).count? o

def importSave? (m : ToneMachine) (data : Bytes) :
    Except Fault (Outcome ToneMachine (Except MachineError Unit)) := do
  let n := min data.size toneSaveSize
  let save ← overwrite? m.save data n
  return { machine := { m with save }, requests := [.saveCart save 0 n], answer := .ok () }

def insertCart? (o : OnOverflow) (m : ToneMachine) (rom : Rom) :
    Except Fault (Outcome ToneMachine (Except MachineError Unit)) := do
  let pitch ← pitchOf? o rom.data
  return { machine := { m with step := pitch / m.sampleRate }, answer := .ok () }

end ToneMachine

def ToneFactory.bootRom? (o : OnOverflow) (f : ToneFactory) (rom : Rom) :
    Except Fault (Except MachineError ToneMachine) :=
  if rom.data.isEmpty then return .error (.boot (String.ofList rom.name ++ " is empty"))
  else do
    let pitch ← pitchOf? o rom.data
    return .ok (f.build pitch)

/-- A tone machine in a program that checks its sums. A fault ends the program. -/
inductive CheckedTone where
  | running (m : ToneMachine)
  | ended (fault : Fault)

namespace CheckedTone

/-- Make a call that may fail. Where the program has ended nothing happens any more, and the answer is
for nobody. -/
def call {α : Type} (nobody : α) (f : ToneMachine → Except Fault (Outcome ToneMachine α)) :
    CheckedTone → Outcome CheckedTone α
  | .ended fault => { machine := .ended fault, answer := nobody }
  | .running m =>
    match f m with
    | .ok r => r.mapMachine .running
    | .error fault => { machine := .ended fault, answer := nobody }

def hasEnded : CheckedTone → Bool
  | .running _ => false
  | .ended _ => true

instance : Machine CheckedTone where
  start := call () fun m => .ok (Machine.start m)
  stop := call () fun m => .ok (Machine.stop m)
  reset := call () fun m => .ok (Machine.reset m)
  runFrame p input := p.call () (·.advance? .stop input)
  outputLength
    | .running m => Machine.outputLength m
    | .ended _ => 0
  readOutput p room := p.call [] fun m => .ok (Machine.readOutput m room)
  hearMic p signal := p.call () fun m => .ok (Machine.hearMic m signal)
  saveState := call (.error .noMachine) fun m => .ok (Machine.saveState m)
  loadState p data := p.call (.error .noMachine) fun m => .ok (Machine.loadState m data)
  insertCart p rom := p.call (.error .noMachine) (·.insertCart? .stop rom)
  ejectCart := call () fun m => .ok (Machine.ejectCart m)
  importSave p data := p.call (.error .noMachine) (·.importSave? data)
  setCheats p on := p.call () fun m => .ok (Machine.setCheats m on)

end CheckedTone

/-- A tone factory in a program that checks its sums. -/
structure CheckedToneFactory where
  tone : ToneFactory

namespace CheckedToneFactory

def bootRom (f : CheckedToneFactory) (rom : Rom) : Except MachineError CheckedTone :=
  match f.tone.bootRom? .stop rom with
  | .ok r => r.map .running
  | .error fault => .ok (.ended fault)

instance : Factory CheckedToneFactory CheckedTone where
  bootRom f rom := { factory := f, machine := f.bootRom rom }
  bootFirmware f := { factory := f, machine := .ok (.running f.tone.bootFirmware) }

end CheckedToneFactory

end Handheld
