import Handheld.Machine.Basic

/-!
# The script machine

A machine for rehearsals: its state is a byte string, its sound a counting sequence, and a script
says when it saves, when it asks to be stopped and what it refuses.
-/

namespace Handheld

/-- What a script machine does as its frames go by. -/
structure Script where
  samplesPerFrame : Nat := 0
  /-- Save in every frame whose number this divides; zero for never. -/
  saveEvery : Nat := 0
  /-- Ask to be stopped in the frame with this number; zero for never. -/
  stopAt : Nat := 0
  /-- Never hand out any output. -/
  stuck : Bool := false
deriving DecidableEq

structure ScriptMachine where
  script : Script
  state : Bytes
  frame : Nat := 0
  /-- Output frames that were produced and not read. -/
  pending : Nat := 0
  /-- Output frames that were read. -/
  played : Nat := 0
deriving DecidableEq

def bytesOf (s : List Char) : Bytes := (Utf8.encode s).toArray

namespace ScriptMachine

/-- A byte string starts with the letters of a word. -/
def startsWith (data : Bytes) (word : String) : Bool :=
  data.extract 0 word.length = bytesOf word.toList

/-- The `k`th frame of the endless output. -/
def tick (k : Nat) : StereoFrame :=
  let n := Int16.ofNat (k % 1000)
  ⟨n, -n⟩

/-- The image a machine saves in a frame: sixteen times the number of the frame. -/
def saveImage (frame : Nat) : Bytes := Array.replicate 16 frame.toUInt8

def advance (m : ScriptMachine) : Outcome ScriptMachine Unit :=
  let frame := m.frame + 1
  let saves :=
    if 0 < m.script.saveEvery && frame % m.script.saveEvery = 0 then
      [Request.saveCart (saveImage frame) (frame % 16) 4]
    else []
  let stops := if frame = m.script.stopAt then [Request.stop] else []
  { machine := { m with frame, pending := m.pending + m.script.samplesPerFrame }
    requests := saves ++ stops
    answer := () }

def read (m : ScriptMachine) (room : Nat) : Outcome ScriptMachine (List StereoFrame) :=
  let n := if m.script.stuck then 0 else min m.pending room
  { machine := { m with pending := m.pending - n, played := m.played + n }
    answer := (List.range n).map fun i => tick (m.played + i) }

instance : Machine ScriptMachine where
  start m := { machine := m, answer := () }
  stop m := { machine := m, answer := () }
  reset m := { machine := { m with frame := 0, pending := 0 }, answer := () }
  runFrame m _ := m.advance
  outputLength m := m.pending
  readOutput := read
  hearMic m _ := { machine := m, answer := () }
  saveState m :=
    { machine := m
      answer :=
        if startsWith m.state "NOSAVE" then .error (.invalidState "cannot save now")
        else .ok m.state }
  loadState m data :=
    if startsWith data "BAD" then
      { machine := m, answer := .error (.invalidState "corrupt header") }
    else { machine := { m with state := data }, answer := .ok () }
  insertCart m rom :=
    { machine := m
      answer :=
        if startsWith rom.data "BAD" then
          .error (.boot (String.ofList rom.name ++ " is not a cartridge"))
        else .ok () }
  ejectCart m := { machine := m, answer := () }
  importSave m data :=
    if startsWith data "BAD" then { machine := m, answer := .error (.invalidState "bad save") }
    else { machine := m, requests := [.saveCart data 0 data.size], answer := .ok () }
  setCheats m on :=
    { machine := m, requests := if on then [.saveFirmware m.state 0 1] else [], answer := () }

end ScriptMachine

structure ScriptFactory where
  script : Script
  failFirmware : Bool := false
deriving DecidableEq

namespace ScriptFactory

def bootRom (f : ScriptFactory) (rom : Rom) : Except MachineError ScriptMachine :=
  if ScriptMachine.startsWith rom.data "BAD" then
    .error (.boot (String.ofList rom.name ++ " is not a valid ROM"))
  else .ok { script := f.script, state := bytesOf ("boot:".toList ++ rom.name) }

def bootFirmware (f : ScriptFactory) : Except MachineError ScriptMachine :=
  if f.failFirmware then .error (.boot "firmware not found")
  else .ok { script := f.script, state := bytesOf "boot:firmware".toList }

instance : Factory ScriptFactory ScriptMachine where
  bootRom f rom := { factory := f, machine := f.bootRom rom }
  bootFirmware f := { factory := f, machine := f.bootFirmware }

end ScriptFactory

end Handheld
