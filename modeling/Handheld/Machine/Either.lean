import Handheld.Machine.Basic

/-!
# Machines of two kinds

What is made by either of two factories can be used where one kind of machine is expected.
-/

namespace Handheld

/-- Make the same call on a machine of either kind. -/
def eitherMachine {A B α : Type} (left : A → Outcome A α) (right : B → Outcome B α) :
    A ⊕ B → Outcome (A ⊕ B) α
  | .inl a => (left a).mapMachine .inl
  | .inr b => (right b).mapMachine .inr

instance {A B : Type} [Machine A] [Machine B] : Machine (A ⊕ B) where
  start := eitherMachine Machine.start Machine.start
  stop := eitherMachine Machine.stop Machine.stop
  reset := eitherMachine Machine.reset Machine.reset
  runFrame m input := eitherMachine (Machine.runFrame · input) (Machine.runFrame · input) m
  outputLength
    | .inl a => Machine.outputLength a
    | .inr b => Machine.outputLength b
  readOutput m room := eitherMachine (Machine.readOutput · room) (Machine.readOutput · room) m
  hearMic m signal := eitherMachine (Machine.hearMic · signal) (Machine.hearMic · signal) m
  saveState := eitherMachine Machine.saveState Machine.saveState
  loadState m data := eitherMachine (Machine.loadState · data) (Machine.loadState · data) m
  insertCart m rom := eitherMachine (Machine.insertCart · rom) (Machine.insertCart · rom) m
  ejectCart := eitherMachine Machine.ejectCart Machine.ejectCart
  importSave m data := eitherMachine (Machine.importSave · data) (Machine.importSave · data) m
  setCheats m on := eitherMachine (Machine.setCheats · on) (Machine.setCheats · on) m

namespace Boot

variable {F G A B : Type}

/-- The same boot for a factory and a machine seen in another way. -/
def map (f : F → G) (g : A → B) (b : Boot F A) : Boot G B :=
  ⟨f b.factory, b.requests, b.machine.map g⟩

end Boot

instance {F G A B : Type} [Factory F A] [Factory G B] : Factory (F ⊕ G) (A ⊕ B) where
  bootRom
    | .inl f, rom => (Factory.bootRom f rom).map .inl .inl
    | .inr g, rom => (Factory.bootRom g rom).map .inr .inr
  bootFirmware
    | .inl f => (Factory.bootFirmware f).map .inl .inl
    | .inr g => (Factory.bootFirmware g).map .inr .inr

end Handheld
