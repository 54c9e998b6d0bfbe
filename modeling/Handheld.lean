import Handheld.Device.Streams
import Handheld.Errors
import Handheld.Machine.Either
import Handheld.Machine.Script
import Handheld.Main
import Handheld.Mic.Delivery
import Handheld.Save.Flusher
import Handheld.Save.Shared
import Handheld.Worker.Report
import Handheld.Proofs.Save.Session
import Handheld.Proofs.Save.Versions
import Handheld.Proofs.Save.Secondary
import Handheld.Proofs.Files.Replace
import Handheld.Proofs.Save.Debounce
import Handheld.Proofs.Save.CartPaths
import Handheld.Proofs.Worker.Runs
import Handheld.Proofs.Worker.Exiting
import Handheld.Proofs.Worker.SaveLog
import Handheld.Proofs.Worker.SavePath
import Handheld.Proofs.Worker.Control
import Handheld.Proofs.Worker.Steering
import Handheld.Proofs.Worker.Pausing
import Handheld.Proofs.Worker.Stopping
import Handheld.Proofs.Worker.Replies
import Handheld.Proofs.Worker.Batching
import Handheld.Proofs.Worker.Failing
import Handheld.Proofs.Worker.InStep
import Handheld.Proofs.Worker.Lockstep
import Handheld.Proofs.Worker.Callers
import Handheld.Proofs.Files.Places
import Handheld.Proofs.Files.Spelling
import Handheld.Proofs.Files.AllOrNothing
import Handheld.Proofs.Instance.Courses
import Handheld.Proofs.Worker.Stepping
import Handheld.Proofs.Worker.StepQueue
import Handheld.Proofs.Instance.Ending
import Handheld.Proofs.Worker.Standing
import Handheld.Proofs.Worker.Shifting
import Handheld.Proofs.Worker.Undoing
import Handheld.Proofs.Worker.Backups
import Handheld.Proofs.Worker.Showing
import Handheld.Proofs.Worker.StopWishes
import Handheld.Proofs.Worker.PauseWalk
import Handheld.Proofs.Worker.Unmoved
import Handheld.Proofs.Worker.Hotkeys
import Handheld.Proofs.Worker.Lifetimes
import Handheld.Proofs.Worker.Resting
import Handheld.Proofs.Registry.Consistent
import Handheld.Proofs.Worker.Tally
import Handheld.Proofs.Instance.Asking
import Handheld.Proofs.Instance.Focus
import Handheld.Proofs.Registry.Heard
import Handheld.Proofs.Registry.Focus
import Handheld.Proofs.Audio.Rendering
import Handheld.Proofs.Audio.Consumption
import Handheld.Proofs.Audio.Rates
import Handheld.Proofs.Audio.Resampling
import Handheld.Proofs.Mic.Capture
import Handheld.Proofs.Mic.Recording
import Handheld.Proofs.Mic.Switching
import Handheld.Proofs.Device.Downmixing
import Handheld.Proofs.Device.Interleaving
import Handheld.Proofs.Device.Capturing
import Handheld.Proofs.Device.Opening
import Handheld.Proofs.Worker.Backpressure
import Handheld.Proofs.Worker.Output
import Handheld.Proofs.Decimal.Nearest
import Handheld.Proofs.Decimal.Shortest
import Handheld.Proofs.Text.Utf8
import Handheld.Proofs.Toml.Strings
import Handheld.Proofs.Toml.Numerals
import Handheld.Proofs.Toml.Documents
import Handheld.Proofs.Config.RoundTrip
import Handheld.Proofs.Config.Usable
import Handheld.Proofs.Machine.Savestates
import Handheld.Proofs.Machine.Restoring
import Handheld.Proofs.Machine.FrameCounter
import Handheld.Proofs.Machine.Pitch
import Handheld.Proofs.Mic.Stretching
