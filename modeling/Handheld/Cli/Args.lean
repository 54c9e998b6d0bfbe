import Handheld.Files.Path

/-!
# Command line arguments

Arguments are read from left to right, and the first one that ends the matter decides: a mistake, or
a wish for help or the version. An option takes its value from behind an equals sign or from the next
argument, and may be given once. After two dashes everything is positional.
-/

namespace Handheld

namespace Cli

structure Args where
  /-- The ROM to boot; the firmware menu without one. -/
  rom : Option Path := none
  /-- Stop after this many frames. -/
  frames : Option Nat := none
  /-- Where the configuration is, if not in its usual place. -/
  config : Option Path := none
  noAudio : Bool := false
  firmwareDir : Option Path := none
  /-- Load this savestate after booting. -/
  loadState : Option Path := none
  /-- Write a savestate here at the end. -/
  saveState : Option Path := none
deriving DecidableEq

inductive ArgsError where
  | unexpected (argument : String)
  | missingValue (option : String)
  | invalidValue (option value : String)
  | repeated (option : String)
deriving DecidableEq

def ArgsError.message : ArgsError → String
  | .unexpected argument => "unexpected argument '" ++ argument ++ "' found"
  | .missingValue option => "a value is required for '" ++ option ++ "' but none was supplied"
  | .invalidValue option value => "invalid value '" ++ value ++ "' for '" ++ option ++ "'"
  | .repeated option => "the argument '" ++ option ++ "' cannot be used multiple times"

inductive Invocation where
  | play (args : Args)
  | help
  | version
deriving DecidableEq

inductive Setting where
  | frames
  | config
  | firmwareDir
  | loadState
  | saveState
deriving DecidableEq

namespace Setting

def name : Setting → String
  | .frames => "frames"
  | .config => "config"
  | .firmwareDir => "firmware-dir"
  | .loadState => "load-state"
  | .saveState => "save-state"

def all : List Setting := [frames, config, firmwareDir, loadState, saveState]

def spelling (s : Setting) : String := "--" ++ s.name

def ofName? (name : List Char) : Option Setting := all.find? fun s => s.name.toList = name

end Setting

def maxFrames : Nat := UInt64.size - 1

/-- A count: decimal digits, perhaps after a plus sign. -/
def count? (text : List Char) : Option Nat :=
  let digits := match text with
    | '+' :: rest => rest
    | _ => text
  if digits ≠ [] && digits.all Char.isDigit then
    let n := digits.foldl (fun n c => n * 10 + (c.toNat - 48)) 0
    if n ≤ maxFrames then some n else none
  else none

/-- A path: anything but the empty text. -/
def path? (text : List Char) : Option Path := if text = [] then none else some ⟨text⟩

/-- Fill a place that may be filled once. -/
def fill {α : Type} (option : String) (place value : Option α) (text : List Char) :
    Except ArgsError (Option α) :=
  match place, value with
  | some _, _ => .error (.repeated option)
  | none, none => .error (.invalidValue option (String.ofList text))
  | none, some v => .ok (some v)

def Args.set (a : Args) (s : Setting) (text : List Char) : Except ArgsError Args :=
  match s with
  | .frames => (fill s.spelling a.frames (count? text) text).map fun v => { a with frames := v }
  | .config => (fill s.spelling a.config (path? text) text).map fun v => { a with config := v }
  | .firmwareDir =>
    (fill s.spelling a.firmwareDir (path? text) text).map fun v => { a with firmwareDir := v }
  | .loadState =>
    (fill s.spelling a.loadState (path? text) text).map fun v => { a with loadState := v }
  | .saveState =>
    (fill s.spelling a.saveState (path? text) text).map fun v => { a with saveState := v }

/-- Take a positional argument. There is room for one. -/
def Args.setRom (a : Args) (text : List Char) : Except ArgsError Args :=
  match a.rom, path? text with
  | some _, _ => .error (.unexpected (String.ofList text))
  | none, none => .error (.invalidValue "[ROM]" "")
  | none, some p => .ok { a with rom := some p }

inductive Word where
  /-- Two dashes, after which everything is positional. -/
  | escape
  | help
  | version
  | noAudio
  /-- An option, with its value if it came along. -/
  | setting (s : Setting) (value : Option (List Char))
  | positional (text : List Char)
  | unknown (text : List Char)
deriving DecidableEq

/-- Text up to the first equals sign, and what follows it. -/
def splitValue (text : List Char) : List Char × Option (List Char) :=
  (text.takeWhile (· ≠ '='), match text.dropWhile (· ≠ '=') with
    | [] => none
    | _ :: value => some value)

/-- Tell what an argument is. A single dash is no option. -/
def Word.ofText (text : List Char) : Word :=
  match text with
  | ['-', '-'] => .escape
  | '-' :: '-' :: rest =>
    let (name, value) := splitValue rest
    match Setting.ofName? name, value with
    | some s, value => .setting s value
    | none, some _ => .unknown text
    | none, none =>
      if name = "help".toList then .help
      else if name = "version".toList then .version
      else if name = "no-audio".toList then .noAudio
      else .unknown text
  | '-' :: 'h' :: _ => .help
  | '-' :: 'V' :: _ => .version
  | '-' :: _ :: _ => .unknown text
  | _ => .positional text

def readPositional (a : Args) : List (List Char) → Except ArgsError Invocation
  | [] => .ok (.play a)
  | text :: rest => do readPositional (← a.setRom text) rest

def readArgs (a : Args) : List (List Char) → Except ArgsError Invocation
  | [] => .ok (.play a)
  | text :: rest =>
    match Word.ofText text with
    | .escape => readPositional a rest
    | .help => .ok .help
    | .version => .ok .version
    | .noAudio =>
      if a.noAudio then .error (.repeated "--no-audio") else readArgs { a with noAudio := true } rest
    | .setting s (some value) => do readArgs (← a.set s value) rest
    | .setting s none =>
      match rest with
      | [] => .error (.missingValue s.spelling)
      | value :: rest =>
        match Word.ofText value with
        | .positional value => do readArgs (← a.set s value) rest
        | _ => .error (.missingValue s.spelling)
    | .positional text => do readArgs (← a.setRom text) rest
    | .unknown text => .error (.unexpected (String.ofList text))

def Invocation.ofArgs (args : List String) : Except ArgsError Invocation :=
  readArgs {} (args.map String.toList)

end Cli

end Handheld
