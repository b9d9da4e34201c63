import EventUpload.Event.Frame
import EventUpload.Sink.Attempt
import EventUpload.Main
import EventUpload.Proofs.Lifecycle.Accounts
import EventUpload.Proofs.Lifecycle.Reconcile
import EventUpload.Proofs.Lifecycle.BlockingEnd
import EventUpload.Proofs.Lifecycle.Phases
import EventUpload.Proofs.Lifecycle.Schedule
import EventUpload.Proofs.Stream.Fanout
import EventUpload.Proofs.Sink.Faithful
import EventUpload.Proofs.Sink.Resolution
import EventUpload.Proofs.Lifecycle.SilentLoss
import EventUpload.Proofs.Lifecycle.WarnedOnce
import EventUpload.Proofs.Lifecycle.CloseWarnings
import EventUpload.Proofs.Lifecycle.Outstanding
import EventUpload.Proofs.Lifecycle.ProcessEnd
import EventUpload.Proofs.Stream.Output
import EventUpload.Proofs.Lifecycle.DroppedCalls
import EventUpload.Proofs.Lifecycle.WaitingCalls
import EventUpload.Proofs.Lifecycle.Registered
import EventUpload.Proofs.Lifecycle.WaitingMessages
import EventUpload.Proofs.Lifecycle.Timers
import EventUpload.Proofs.Lifecycle.DroppedEnd
import EventUpload.Proofs.Lifecycle.DroppedWait
import EventUpload.Proofs.Lifecycle.CheckedSinks
import EventUpload.Proofs.Lifecycle.LastWait
import EventUpload.Proofs.Lifecycle.CutShort
import EventUpload.Proofs.Sink.Batches
import EventUpload.Proofs.Json.RoundTrip
import EventUpload.Proofs.Event.Frames
import EventUpload.Proofs.Event.Recording
import EventUpload.Proofs.Command.Hooks
import EventUpload.Proofs.Command.Untimely
import EventUpload.Proofs.Lifecycle.Invariants
import EventUpload.Proofs.Sink.Writes
import EventUpload.Proofs.Command.Unopened
import EventUpload.Proofs.Command.Connections
import EventUpload.Proofs.Command.Replays
import EventUpload.Proofs.Output.Pieces
import EventUpload.Proofs.Stream.HeldBack
import EventUpload.Proofs.Stream.Paired
import EventUpload.Proofs.Sink.Polling
import EventUpload.Proofs.Event.CutFrames
import EventUpload.Proofs.Event.LooseFrames
import EventUpload.Proofs.Event.TextBlocks
import EventUpload.Proofs.Sink.Timeouts
import EventUpload.Proofs.Lifecycle.Overdue
import EventUpload.Proofs.Lifecycle.Closures
import EventUpload.Proofs.Lifecycle.Patience
import EventUpload.Proofs.Lifecycle.GivingUp
import EventUpload.Proofs.Backend.Endpoint
import EventUpload.Proofs.Command.Paths
import EventUpload.Proofs.Command.Farewell
import EventUpload.Proofs.Settings.Layered
