import Handheld.Machine.Basic
import Handheld.Save.Store

/-!
# One store for all saves of a machine
-/

namespace Handheld

namespace SaveStore

/-- See to a request at time `now`: a save of either kind is recorded here. -/
def serve (now : Nat) (s : SaveStore) : Request → SaveStore
  | .saveCart image offset length => s.request now image offset length
  | .saveFirmware image offset length => s.request now image offset length
  | .stop => s

end SaveStore

end Handheld
