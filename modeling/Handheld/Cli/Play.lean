import Handheld.Cli.Args
import Handheld.Config.Disk
import Handheld.Machine.Checked
import Handheld.Registry

/-!
# The player

One instance with a tone machine, started, watched and ended. The watch looks every tenth of a second;
in between the worker computes a frame at the start of each frame period.
-/

namespace Handheld

namespace Cli

structure Player where
  args : Args
  registry : Registry CheckedToneFactory CheckedTone
  /-- How often the watch has looked. -/
  looks : Nat := 0

/-- How a player ends: its exit code, what it complains about, and the files it leaves. -/
structure Ending where
  code : Nat
  complaint : String
  files : FileTree

/-- Milliseconds between two looks of the watch. -/
def lookPeriod : Nat := 100

namespace Player

def instanceId : Nat := 0

def worker? (p : Player) : Option (Worker CheckedToneFactory CheckedTone) :=
  (p.registry.find? instanceId).map fun i => i.thread.worker

/-- A fault has ended the thread of the machine. -/
def hasEnded (p : Player) : Bool :=
  (p.worker?.bind fun w => w.machine.map fun i => i.machine.hasEnded).getD false

/-- Send a command. A thread that has ended, before or in carrying it out, does not answer. -/
def ask (p : Player) (c : Command) : Reply × Player :=
  if p.hasEnded then (.error .disconnected, p)
  else
    let (r, registry) := p.registry.act instanceId fun i => i.ask c
    let p := { p with registry }
    (if p.hasEnded then .error .disconnected else r.getD (.error .disconnected), p)

def askAll (p : Player) : List Command → Reply × Player
  | [] => (.ok (), p)
  | c :: rest =>
    match p.ask c with
    | (.ok (), p) => p.askAll rest
    | (.error e, p) => (.error e, p)

/-- Destroy the instance, which saves what is left to save, and end. -/
def leave (p : Player) (r : Reply) : Ending :=
  let files := p.registry.destroyAll.2.world.files
  match r with
  | .ok () => ⟨0, "", files⟩
  | .error e => ⟨1, "Error: " ++ e.message, files⟩

/-! ## Start -/

def configFor (args : Args) (files : FileTree) : Except String Config :=
  match args.config with
  | none => .ok (Config.readDefault files)
  | some path =>
    match Config.readFrom files path with
    | .ok c => .ok c
    | .error _ => .error ("Error: failed to load config " ++ path.toString)

/-- A player with an instance that has the focus and, where wanted and possible, its devices. -/
def create (args : Args) (config : Config) (files : FileTree) (host : AudioHost) : Player :=
  let factory : CheckedToneFactory := ⟨⟨config.emu.coreSampleRate, config.emu.targetFps⟩⟩
  let r : Registry CheckedToneFactory CheckedTone := .new config files args.firmwareDir
  let r := ((r.create factory).2.setFocus (some instanceId)).2
  let r := if args.noAudio then r
    else r.update instanceId fun i => (i.openDevices host config).1
  { args, registry := r }

def startCommands (args : Args) : List Command :=
  [match args.rom with
    | some rom => Command.bootRom [rom]
    | none => .bootFirmware] ++
  (match args.loadState with
    | some path => [Command.loadState path]
    | none => []) ++ [.run]

/-- Start playing; an ending if that fails. -/
def start (args : Args) (files : FileTree) (host : AudioHost) : Except Ending Player :=
  match configFor args files with
  | .error complaint => .error ⟨1, complaint, files⟩
  | .ok config =>
    match (create args config files host).askAll (startCommands args) with
    | (.ok (), p) => .ok p
    | (.error e, p) => .error (p.leave (.error e))

/-! ## Watch -/

/-- Frames computed after so many looks: one at once, and one in each full period since. -/
def framesAfter (periodMicros looks : Nat) : Nat :=
  looks * lookPeriod * 1000 / max periodMicros 1 + 1

/-- Compute so many frames, each when the time of the one before it is over. -/
def computeFrames : Nat → Instance CheckedToneFactory CheckedTone → Instance CheckedToneFactory CheckedTone
  | 0, i => i
  | n + 1, i => computeFrames n { i with thread := i.thread.advance.computeFrame }

/-- Let a look period go by, and let the save stores write what is due. -/
def look (p : Player) : Player :=
  let looks := p.looks + 1
  let period := p.registry.config.emu.framePeriod.toNat
  let debounce := p.registry.config.save.debounce.toNat
  let r := { p.registry with world.now := looks * lookPeriod }
  let r := r.update instanceId fun i =>
    (computeFrames (framesAfter period looks - i.thread.worker.frames) i).mapWorker
      fun w => w.flushDue debounce
  { p with registry := r, looks }

/-- There is nothing left to wait for: the machine has stopped or its thread has ended, or the frames are
done. -/
def isOver (p : Player) : Bool :=
  match p.worker? with
  | none => true
  | some w => !w.shown.active || p.hasEnded || (p.args.frames.map fun limit => decide (limit ≤ w.frames)).getD false

/-- Save the state if that is wanted, tell the worker to exit, and end. -/
def finish (p : Player) : Ending :=
  let saving := match p.args.saveState with
    | some path => [Command.pause, .saveState path]
    | none => []
  match p.askAll (saving ++ [.exit]) with
  | (r, p) => p.leave r

/-- Look until it is over, at most so many times. -/
def watch : Nat → Player → Option Ending
  | 0, _ => none
  | looks + 1, p =>
    let p := p.look
    if p.isOver then some p.finish else watch looks p

/-- Looks after which a count of frames is reached. -/
def looksFor (periodMicros frames : Nat) : Nat := frames * periodMicros / (lookPeriod * 1000) + 1

/-- Play to the end; none if there is none, because no one has said how many frames to play. -/
def play (args : Args) (files : FileTree) (host : AudioHost) : Option Ending :=
  match start args files host with
  | .error e => some e
  | .ok p =>
    match args.frames with
    | none => none
    | some frames => watch (looksFor p.registry.config.emu.framePeriod.toNat frames) p

end Player

/-- Do what the arguments say. Mistakes in them have an exit code of their own. -/
def run (args : List String) (files : FileTree) (host : AudioHost) : Option Ending :=
  match Invocation.ofArgs args with
  | .error e => some ⟨2, e.message, files⟩
  | .ok .help => some ⟨0, "", files⟩
  | .ok .version => some ⟨0, "", files⟩
  | .ok (.play args) => Player.play args files host

end Cli

end Handheld
