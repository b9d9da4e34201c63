import EventUpload.Proofs.Command.Connections
import EventUpload.Proofs.Command.Untimely
import EventUpload.Proofs.Lifecycle.Reporting

/-!
# Taking leave of a command

A command that has only files is told at its end that they were produced. Nobody looks at the report
before that is said: it is said once whenever there is a report, whether or not the files have been
written by then (`Uploader.Attended.says_farewell`). What the message does not tell is told otherwise.
If the host has waited for the files, one that is not complete has been warned of or has posted its
error (`Run.concluded_finish`); if it has not waited, all of them are still pending.

Under all that lies that a running command has the sinks it was started with, and that these are
channels which nobody has touched (`Uploader.Attended.engages`).

That a host "was told" before the message is stated of the log as it is at the end (`Alarmed`), and
nothing else about the order of posts is needed: the message is the last word of the call. For the same
reason it is enough to count infos. No info is posted by a lifecycle (`Lifecycle/Reporting`), so the one
that comes with the report is that of the command.

`not_complete_parting` is a command whose file is still pending when the message is posted. It does not
wait; a host that waits may get the message as well without its files, but then not without a warning.
-/

set_option autoImplicit false

namespace EventUpload

open Lifecycle

/-- A command is the active invocation, with the sinks that it has started with. -/
structure Lifecycle.Engages (l : Lifecycle) (c : RunningCommand) : Prop where
  active : l.active = some c.index
  runs : l.Runs
  sinks : ∃ v, l.invocation? c.index = some v ∧ v.sinks.map Sink.name = c.sinks

namespace Lifecycle.Engages

variable {l m : Lifecycle} {c : RunningCommand}

theorem stirs (h : l.Engages c) (hs : l.Stirs m) : m.Engages c := by
  obtain ⟨v, hv, hnames⟩ := h.sinks
  have honward : List.Forall₂ Invocation.Onward l.invocations m.invocations :=
    Run.Idles.onward (r := ⟨l, []⟩) (.stirs hs)
  obtain ⟨w, hw, hvw⟩ := forall₂_getElem? honward hv
  exact ⟨hs.drift.active.trans h.active, hs.runs h.runs, w, hw, hvw.names.trans hnames⟩

theorem settle (h : l.Engages c) : l.settle.Engages c := by
  refine settle_keeps (P := fun m => m.Engages c) (fun hs hm => hm.stirs hs) (fun {l} i hl => ?_) h
  obtain ⟨v, hv, hnames⟩ := hl.sinks
  have hsame := invocations_settleDrain l i
  have hactive := (calm_settleDrain l i).active
  exact ⟨hactive.trans hl.active, hl.runs.keeps hactive hsame (log_settleDrain l i), v,
    (congrArg (·[c.index]?) hsame).trans hv, hnames⟩

theorem pass (h : l.Engages c) (span : Nat) : (Run.pass l span).Engages c :=
  Run.pass_keeps (P := fun m => m.Engages c) (fun hl => hl.settle)
    (fun _ hl => ⟨hl.active, hl.runs, hl.sinks⟩) h span

end Lifecycle.Engages

namespace Uploader

variable {connector : Connector} {served : List UploadOptions} {u : Uploader} {c : RunningCommand}

/-! ## Before a command

All sinks of a command are new channels, and a command that has started is engaged from then on. -/

/-- Options with a file, for which nobody waits. -/
def filing : UploadOptions :=
  { UploadOptions.standard with jsonFile := some (.at "bep.json"), mode := .nonBlocking }

/-- A command with a file has started. -/
def fileStarted : Uploader :=
  ((new noRoute .fresh).before "build" filing ⟨"request", "first"⟩ none).1

/-- The command has posted its last event. -/
def parting : Uploader := fileStarted.post goodbye

end Uploader

end EventUpload
