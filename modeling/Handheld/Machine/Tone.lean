import Handheld.Audio.Scalar
import Handheld.Machine.Basic

/-!
# The tone machine

A machine that plays a square wave whose pitch comes from its ROM. Any held key silences the tone,
the microphone shifts it, and once a second the machine saves a small image. Its frame counter and the
byte sum of a ROM wrap around here; `CheckedTone` is the machine in a program that checks them.
-/

namespace Handheld

def toneSaveSize : Nat := 512

def toneStateLength : Nat := 16

def toneAmplitude : Int16 := 4000

def firmwarePitch : Float := 440

/-- The sum of all bytes in a word of 32 bits. -/
def byteSum (data : Bytes) : UInt32 := data.foldl (fun sum b => sum + b.toUInt32) 0

/-- A pitch from 220 on, chosen by the bytes of a ROM. -/
def pitchOf (data : Bytes) : Float := 220 + Scalar.floatOfWord ((byteSum data).toNat % 660)

structure ToneMachine where
  sampleRate : Float
  samplesPerFrame : Float
  /-- Phase advance per sample, in cycles. -/
  step : Float
  /-- Whole frames in a second; at least one. -/
  fps : UInt64
  /-- The position in the cycle, as the bits of a binary64 number. -/
  phase : UInt64 := 0
  /-- The fraction of a sample that belongs to the next frame. -/
  carry : Float := 0
  frame : UInt64 := 0
  output : Array StereoFrame := #[]
  save : Bytes := Array.replicate toneSaveSize 0
  micLevel : Int16 := 0

namespace ToneMachine

/-- The bit that makes a not-a-number quiet. -/
def quietBit : UInt64 := 0x0008000000000000

/-- What an operation without a value gives. -/
def invalidBits : UInt64 := 0xFFF8000000000000

/-- An operation on bit patterns. The first operand that is not a number is the result, made
quiet. -/
def operate (op : Float → Float → Float) (a b : UInt64) : UInt64 :=
  if (Float.ofBits a).isNaN then a ||| quietBit
  else if (Float.ofBits b).isNaN then b ||| quietBit
  else
    let r := op (Float.ofBits a) (Float.ofBits b)
    if r.isNaN then invalidBits else r.toBits

/-- A number without the part behind its point. -/
def truncated (x : UInt64) : UInt64 :=
  let f := Float.ofBits x
  if f.isNaN then x ||| quietBit else if f < 0 then f.ceil.toBits else f.floor.toBits

/-- The part of a number behind its point, with its sign. -/
def fraction (x : UInt64) : UInt64 := operate (· - ·) x (truncated x)

def nextPhase (m : ToneMachine) : UInt64 := fraction (operate (· + ·) m.phase m.step.toBits)

/-- Add samples without leaving their range. -/
def addSaturated (a b : Int16) : Int16 :=
  let sum := a.toInt + b.toInt
  if sum < -32768 then -32768 else if 32767 < sum then 32767 else Int16.ofInt sum

def level (m : ToneMachine) (silent : Bool) : Int16 :=
  let wave := if silent then 0 else if Float.ofBits m.phase < 0.5 then toneAmplitude else -toneAmplitude
  addSaturated wave m.micLevel

def play (silent : Bool) : Nat → ToneMachine → ToneMachine
  | 0, m => m
  | n + 1, m =>
    let s := m.level silent
    play silent n { m with output := m.output.push ⟨s, s⟩, phase := m.nextPhase }

/-- Count a frame, and save when a second is full. -/
def count (m : ToneMachine) : Outcome ToneMachine Unit :=
  let frame := m.frame + 1
  if frame % m.fps = 0 then
    let offset := (frame / m.fps).toNat % toneSaveSize
    let save := m.save.modify offset (· + 1)
    { machine := { m with frame, save }, requests := [.saveCart save offset 1], answer := () }
  else { machine := { m with frame }, answer := () }

def advance (m : ToneMachine) (input : FrameInput) : Outcome ToneMachine Unit :=
  let total := m.carry + m.samplesPerFrame
  let n := Scalar.toWord total
  let m := { m with carry := total - Scalar.floatOfWord n }
  (play (input.keys ≠ keysReleased) n m).count

/-- A number as eight bytes, least significant first. -/
def encodeWord (n : UInt64) : Bytes :=
  Array.ofFn (n := 8) fun i => (n >>> (8 * i.1).toUInt64).toUInt8

/-- The number that bytes denote, least significant first. -/
def decodeWord (bytes : Bytes) : UInt64 :=
  bytes.toList.foldr (fun b n => b.toUInt64 ||| (n <<< 8)) 0

def encodeState (m : ToneMachine) : Bytes := encodeWord m.frame ++ encodeWord m.phase

def decodeState (m : ToneMachine) (data : Bytes) : Except MachineError ToneMachine :=
  if data.size = toneStateLength then
    .ok { m with
      frame := decodeWord (data.extract 0 8)
      phase := decodeWord (data.extract 8 16) }
  else
    .error (.invalidState
      ("expected " ++ toString toneStateLength ++ " bytes, got " ++ toString data.size))

/-- The loudest of the samples, whatever its sign. -/
def peak (samples : List Int16) : Nat := (samples.map fun s => s.toInt.natAbs).foldl max 0

instance : Machine ToneMachine where
  start m := { machine := m, answer := () }
  stop m := { machine := m, answer := () }
  reset m := { machine := { m with phase := 0, carry := 0, frame := 0, output := #[] }, answer := () }
  runFrame := advance
  outputLength m := m.output.size
  readOutput m room :=
    { machine := { m with output := m.output.extract (min room m.output.size) m.output.size }
      answer := (m.output.extract 0 room).toList }
  hearMic m samples :=
    let micLevel := match samples with
      | none => 0
      | some s => Int16.ofNat (peak s / 8)
    { machine := { m with micLevel }, answer := () }
  saveState m := { machine := m, answer := .ok m.encodeState }
  loadState m data :=
    match m.decodeState data with
    | .ok m' => { machine := m', answer := .ok () }
    | .error e => { machine := m, answer := .error e }
  insertCart m rom :=
    { machine := { m with step := pitchOf rom.data / m.sampleRate }, answer := .ok () }
  ejectCart m := { machine := { m with step := 0 }, answer := () }
  importSave m data :=
    let n := min data.size toneSaveSize
    let save := data.extract 0 n ++ m.save.extract n toneSaveSize
    { machine := { m with save }, requests := [.saveCart save 0 n], answer := .ok () }
  setCheats m _ := { machine := m, answer := () }

end ToneMachine

structure ToneFactory where
  sampleRate : Float
  fps : Float

namespace ToneFactory

/-- Frames in a second as a word; what is no number counts as one. -/
def wholeFps (fps : Float) : UInt64 :=
  let r := fps.round
  if 1 < r then r.toUInt64 else 1

def build (f : ToneFactory) (pitch : Float) : ToneMachine where
  sampleRate := f.sampleRate
  samplesPerFrame := f.sampleRate / f.fps
  step := pitch / f.sampleRate
  fps := wholeFps f.fps

def bootRom (f : ToneFactory) (rom : Rom) : Except MachineError ToneMachine :=
  if rom.data.isEmpty then .error (.boot (String.ofList rom.name ++ " is empty"))
  else .ok (f.build (pitchOf rom.data))

def bootFirmware (f : ToneFactory) : ToneMachine := f.build firmwarePitch

instance : Factory ToneFactory ToneMachine where
  bootRom f rom := { factory := f, machine := f.bootRom rom }
  bootFirmware f := { factory := f, machine := .ok f.bootFirmware }

end ToneFactory

end Handheld
