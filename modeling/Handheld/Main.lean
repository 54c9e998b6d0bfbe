import Handheld.Cli.Play

/-!
# The program

The player on a real disk: what the arguments name is read into a file tree, the player plays on it,
and what it changes goes back to disk.
-/

namespace Handheld

namespace Cli

def diskPath (l : Location) : String := "/" ++ String.intercalate "/" (l.map String.ofList)

/-- Read a file or a directory, without what is in it. -/
def loadNode (path : String) : IO (Option Node) := do
  try
    if ← (← IO.FS.realPath path).isDir then return some .directory
    return some (.file (← IO.FS.readBinFile path).data)
  catch _ => return none

def load (t : FileTree) (p : Path) : IO FileTree := do
  match ← loadNode p.toString with
  | none => return t
  | some n => return t.plant p n

def loadUserConfig (t : FileTree) : IO FileTree := do
  match ← IO.getEnv "HOME" with
  | none => return t
  | some home =>
    match ← loadNode (home ++ "/" ++ Config.defaultPath.toString) with
    | none => return t
    | some n => return t.plant Config.defaultPath n

/-- The paths a player may look at, beside its configuration. -/
def Args.paths (args : Args) (config : Config) : List Path :=
  args.rom.toList ++ (args.rom.map fun rom => cartSavePath rom Player.instanceId).toList ++
    args.firmwareDir.toList ++ args.loadState.toList ++ args.saveState.toList ++
    config.mic.wavPath.toList

/-- The part of the disk that a player needs. -/
def loadFiles (args : Args) : IO FileTree := do
  let here := (← IO.currentDir).toString
  let home := (Path.segments here.toList).filter (· ≠ [])
  let t ← loadUserConfig (.empty home)
  let t ← args.config.toList.foldlM load t
  let config := ((Player.configFor args t).toOption).getD {}
  (args.paths config).foldlM load t

/-- Bring to disk what has changed. -/
def saveFiles (before after : FileTree) : IO Unit := do
  for (l, n) in after.entries do
    if before.node? l ≠ some n then
      match n with
      | .directory => IO.FS.createDirAll (diskPath l)
      | .file data =>
        IO.FS.createDirAll (diskPath l.dropLast)
        IO.FS.writeBinFile (diskPath l) ⟨data⟩

/-- Bring an ending to the outside. -/
def close (files : FileTree) (e : Ending) : IO UInt32 := do
  saveFiles files e.files
  if e.complaint ≠ "" then IO.eprintln e.complaint
  return e.code.toUInt32

partial def watchLive (files : FileTree) (p : Player) : IO UInt32 := do
  IO.sleep Cli.lookPeriod.toUInt32
  let p := p.look
  if p.isOver then close files p.finish
  else
    saveFiles files p.registry.world.files
    watchLive p.registry.world.files p

def usage : String :=
  "Usage: emuhost [OPTIONS] [ROM]\n\n" ++
  "Arguments:\n  [ROM]  ROM to boot; boots the firmware menu when omitted\n\n" ++
  "Options:\n" ++
  "      --frames <FRAMES>              Stop after this many frames\n" ++
  "      --config <CONFIG>              Read settings from this file\n" ++
  "      --no-audio                     Do not open audio or microphone devices\n" ++
  "      --firmware-dir <FIRMWARE_DIR>  Directory for the firmware save file\n" ++
  "      --load-state <LOAD_STATE>      Load this savestate after booting\n" ++
  "      --save-state <SAVE_STATE>      Write a savestate here before exiting\n" ++
  "  -h, --help                         Print help\n" ++
  "  -V, --version                      Print version"

def versionLine : String := "emuhost 0.1.0"

/-- Play on the real disk. There is no audio hardware to speak of. -/
def playLive (args : Args) : IO UInt32 := do
  let files ← loadFiles args
  match Player.start args files {} with
  | .error e => close files e
  | .ok p => watchLive files p

end Cli

end Handheld

def main (args : List String) : IO UInt32 := do
  match Handheld.Cli.Invocation.ofArgs args with
  | .error e =>
    IO.eprintln ("error: " ++ e.message)
    return 2
  | .ok .help =>
    IO.println Handheld.Cli.usage
    return 0
  | .ok .version =>
    IO.println Handheld.Cli.versionLine
    return 0
  | .ok (.play args) => Handheld.Cli.playLive args
