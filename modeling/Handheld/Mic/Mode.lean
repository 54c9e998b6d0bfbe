/-!
# Microphone sources
-/

namespace Handheld

inductive MicMode where
  | silence
  /-- A capture device; always live. -/
  | external
  /-- A looped recording, live while the microphone hotkey is held. -/
  | wav
  /-- White noise, live while the microphone hotkey is held. -/
  | noise
deriving DecidableEq

end Handheld
