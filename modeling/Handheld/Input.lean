import Handheld.Machine.Basic

/-!
# Player input

Buttons, touch and hotkeys as the window last reported them, and the edges a worker sees when it
samples the hotkeys once per pass.
-/

namespace Handheld

inductive Hotkey where
  | mic
  | pause
  | reset
  | fastForward
  | fastForwardToggle
  | frameStep
  | powerButton
  | volumeUp
  | volumeDown
deriving DecidableEq

namespace Hotkey

def bit : Hotkey → UInt32
  | .mic => 1
  | .pause => 2
  | .reset => 4
  | .fastForward => 8
  | .fastForwardToggle => 16
  | .frameStep => 32
  | .powerButton => 64
  | .volumeUp => 128
  | .volumeDown => 256

def all : List Hotkey :=
  [mic, pause, reset, fastForward, fastForwardToggle, frameStep, powerButton, volumeUp, volumeDown]

def knownBits : UInt32 := 511

end Hotkey

/-- A set of hotkeys, as a mask. -/
structure Hotkeys where
  bits : UInt32 := 0
deriving DecidableEq

namespace Hotkeys

/-- Keep only the bits that are hotkeys. -/
def ofBits (bits : UInt32) : Hotkeys := ⟨bits &&& Hotkey.knownBits⟩

/-- Every one of the given bits is set. -/
def containsBits (s : Hotkeys) (bits : UInt32) : Bool := s.bits &&& bits = bits

def contains (s : Hotkeys) (k : Hotkey) : Bool := s.containsBits k.bit

/-- Hotkeys of `s` that are not in `t`. -/
def minus (s t : Hotkeys) : Hotkeys := ⟨s.bits &&& ~~~t.bits⟩

end Hotkeys

def touchXMax : UInt16 := 0x7FFF

/-- What is held and touched right now. -/
structure InputState where
  keys : UInt16 := keysReleased
  touched : Option (UInt16 × UInt16) := none
  /-- Held hotkeys, with whatever other bits were reported. -/
  hotkeys : UInt32 := 0
deriving DecidableEq

namespace InputState

def setKeys (s : InputState) (mask : UInt16) : InputState := { s with keys := mask }

/-- Touch the screen; the horizontal coordinate is clamped. -/
def touch (s : InputState) (x y : UInt16) : InputState :=
  { s with touched := some (min x touchXMax, y) }

def releaseTouch (s : InputState) : InputState := { s with touched := none }

def press (s : InputState) (bits : UInt32) : InputState := { s with hotkeys := s.hotkeys ||| bits }

def release (s : InputState) (bits : UInt32) : InputState :=
  { s with hotkeys := s.hotkeys &&& ~~~bits }

/-- Let go of everything, as when the window loses the focus. -/
def releaseAll (_ : InputState) : InputState := {}

def frameInput (s : InputState) : FrameInput := { keys := s.keys, touch := s.touched }

def hotkeysDown (s : InputState) : Hotkeys := .ofBits s.hotkeys

end InputState

/-- Two successive samples of the hotkeys, as what is down and what has just gone down. -/
structure HotkeyEdges where
  held : Hotkeys := {}
  fresh : Hotkeys := {}
deriving DecidableEq

namespace HotkeyEdges

def update (e : HotkeyEdges) (down : Hotkeys) : HotkeyEdges :=
  { held := down, fresh := down.minus e.held }

def down (e : HotkeyEdges) (k : Hotkey) : Bool := e.held.contains k

def pressed (e : HotkeyEdges) (k : Hotkey) : Bool := e.fresh.contains k

end HotkeyEdges

end Handheld
