import Handheld.Instance

/-!
# The instances of a frontend

A registry holds the instances that are alive, each with the least id that was free. All share one
world, and with it the focus and the mute policy, which follow every change.
-/

namespace Handheld

inductive RegistryError where
  /-- There is no room for another instance; the argument is how many there may be. -/
  | full (limit : Nat)
  | unknownInstance (id : Nat)
deriving DecidableEq

def RegistryError.message : RegistryError → String
  | .full limit => "all " ++ toString limit ++ " emulator instance slots are in use"
  | .unknownInstance id => "no emulator instance with id " ++ toString id

def RegistryError.kind : RegistryError → String
  | .full _ => "Full"
  | .unknownInstance _ => "UnknownInstance"

/-- Instances alive at once. -/
def instanceLimit : Nat := 16

/-- The instances that are alive, by ascending id. -/
structure Registry (F M : Type) where
  config : Config
  firmwareDir : Option Path := none
  world : World
  instances : List (Instance F M) := []

namespace Registry

variable {F M : Type}

def new (config : Config) (files : FileTree) (firmwareDir : Option Path) : Registry F M :=
  { config, firmwareDir, world := { files, mute := { mode := config.audio.multiInstance } } }

def find? (r : Registry F M) (id : Nat) : Option (Instance F M) :=
  r.instances.find? fun i => i.id = id

def focused (r : Registry F M) : Option Nat := r.world.mute.focused

/-- The least id that is free, if there is room. -/
def freeId? (r : Registry F M) : Option Nat :=
  (List.range instanceLimit).find? fun id => (r.find? id).isNone

def firmwareSave (r : Registry F M) (id : Nat) : Option Path :=
  r.firmwareDir.map fun dir => dir.join (Path.ofString ("firmware.bin" ++ String.ofList (instanceSuffix id)))

/-! ## The shared world -/

/-- Let an instance see the world as it is now. -/
def lend (world : World) (i : Instance F M) : Instance F M := i.mapWorker fun w => { w with world }

/-- Put a changed instance in its place, and keep what it did to the files. -/
def replace (r : Registry F M) (i : Instance F M) : Registry F M :=
  { r with
    world.files := i.thread.worker.world.files
    instances := r.instances.map fun j => if j.id = i.id then i else j }

def act {α : Type} (r : Registry F M) (id : Nat) (f : Instance F M → α × Instance F M) :
    Option α × Registry F M :=
  match r.find? id with
  | none => (none, r)
  | some i =>
    let (a, i) := f (lend r.world i)
    (some a, r.replace i)

def update (r : Registry F M) (id : Nat) (f : Instance F M → Instance F M) : Registry F M :=
  (r.act id fun i => ((), f i)).2

/-- Change the instances with the given ids, one after the other. -/
def updateAll (r : Registry F M) (ids : List Nat) (f : Instance F M → Instance F M) :
    Registry F M :=
  ids.foldl (fun r id => r.update id f) r

def ids (r : Registry F M) : List Nat := r.instances.map Instance.id

def refreshMute (r : Registry F M) : Registry F M :=
  { r with instances := r.instances.map fun i => (lend r.world i).refreshMute }

/-- Tell the mute policy how many instances there are, and evaluate it. -/
def recount (r : Registry F M) : Registry F M :=
  { r with world.mute.instances := r.instances.length }.refreshMute

/-! ## Coming and going -/

def insert (i : Instance F M) : List (Instance F M) → List (Instance F M)
  | [] => [i]
  | j :: rest => if i.id < j.id then i :: j :: rest else j :: insert i rest

def create (r : Registry F M) (factory : F) : Except RegistryError Nat × Registry F M :=
  match r.freeId? with
  | none => (.error (.full instanceLimit), r)
  | some id =>
    let i := Instance.new id r.config factory r.world (r.firmwareSave id)
    (.ok id, { r with instances := insert i r.instances }.recount)

variable [Machine M] [Factory F M]

/-- Destroy an instance and answer how it ended. A focus on it is gone. -/
def destroy (r : Registry F M) (id : Nat) : Except RegistryError (Instance F M) × Registry F M :=
  match r.find? id with
  | none => (.error (.unknownInstance id), r)
  | some i =>
    let ended := (lend r.world i).destroy
    let mute := if r.focused = some id then r.world.mute.setFocused none else r.world.mute
    (.ok ended,
      { r with
        world := { r.world with files := ended.thread.worker.world.files, mute }
        instances := r.instances.filter fun j => j.id ≠ id }.recount)

/-- Destroy instances, one after the other, without telling anybody. -/
def destroyEach (world : World) : List (Instance F M) → List (Instance F M) × World
  | [] => ([], world)
  | i :: rest =>
    let ended := (lend world i).destroy
    let (others, world) :=
      destroyEach { world with files := ended.thread.worker.world.files } rest
    (ended :: others, world)

def destroyAll (r : Registry F M) : List (Instance F M) × Registry F M :=
  let (ended, world) := destroyEach r.world r.instances
  (ended,
    { r with
      world := { world with mute := { world.mute.setFocused none with instances := 0 } }
      instances := [] })

/-! ## Focus and pauses -/

/-- Tell the instance that had the focus that it is gone, and the one that gets it that it has come.
-/
def moveFocus (r : Registry F M) (id : Option Nat) : Registry F M :=
  if r.focused = id then r
  else
    let r := match r.focused with
      | none => r
      | some old => r.update old Instance.loseFocus
    match id with
    | none => r
    | some new => r.update new Instance.gainFocus

/-- Give an instance the focus, or take it away from all. -/
def setFocus (r : Registry F M) (id : Option Nat) : Except RegistryError Unit × Registry F M :=
  match id.filter fun id => (r.find? id).isNone with
  | some id => (.error (.unknownInstance id), r)
  | none =>
    let moved := r.moveFocus id
    (.ok (), { moved with world.mute := moved.world.mute.setFocused id }.refreshMute)

def others (r : Registry F M) (source : Option Nat) : List Nat :=
  r.ids.filter fun id => some id ≠ source

def broadcastPause (r : Registry F M) (source : Option Nat) : Registry F M :=
  r.updateAll (r.others source) fun i => (i.ask .pause).2

def broadcastUnpause (r : Registry F M) (source : Option Nat) : Registry F M :=
  r.updateAll (r.others source) fun i => (i.ask .unpause).2

/-- Let every worker run on, for at most so many frames. -/
def runOn (r : Registry F M) (frames : Nat) : Registry F M :=
  r.updateAll r.ids fun i => i.runOn frames

end Registry

end Handheld
