import EventUpload.Sink.FileWriter
import EventUpload.Sink.BackendWriter

/-!
# Destinations

A destination does three kinds of work: it writes an event, it flushes what it was given, and it has
everything acknowledged. Work is begun and takes a time, then it is finished with a `Verdict`: it
succeeded, it failed for a reason, or it goes on after a pause. A destination is a file, a backend,
or a model, of which only its times and verdicts are known. Files and the service of the backend lie
outside; they are shared and outlive every destination.
-/

set_option autoImplicit false

namespace EventUpload

/-- What lies outside of the process. -/
structure Outside where
  files : FileStore
  service : Service
  web : Web

/-- An outside with no files, a service that accepts everything and no way into the web. -/
def Outside.fresh : Outside := ⟨.fresh, .willing, .none⟩

/-- What a destination is told to do. -/
inductive Work where
  | write (e : Event)
  | flush
  | acknowledge
deriving Repr

inductive Verdict where
  | ok
  | failed (reason : String)
  /-- To be asked again after a pause, in milliseconds. -/
  | again (pause : Nat)
deriving BEq, DecidableEq, Repr

/-- How long each piece of work takes, if it ever ends, and how it comes out. The number counts the
pieces that were begun before. -/
abbrev Behaviour := Nat → Work → Option Nat × Verdict

/-- Where the events of a sink go. -/
inductive Destination where
  | model (behaviour : Behaviour) (begun : Nat)
  | file (w : FileWriter)
  | backend (w : BackendWriter)

namespace Destination

def verdictOf : Except String Unit → Verdict
  | .ok () => .ok
  | .error reason => .failed reason

/-- Begins a piece of work; the answer is how long it takes, or nothing if it never ends. -/
def begin (d : Destination) (outside : Outside) (work : Work) :
    Destination × Outside × Option Nat :=
  match d with
  | model behaviour n => (model behaviour n, outside, (behaviour n work).1)
  | file w => (file w, outside, some 0)
  | backend w =>
    match work with
    | .write e =>
      let (w, service, time) := w.startWrite outside.service e
      (backend w, { outside with service := service }, some time)
    | .flush =>
      let (w, service, time) := w.startDelivery outside.service true
      (backend w, { outside with service := service }, some time)
    | .acknowledge => (backend w, outside, some 0)

def finishFile (w : FileWriter) (outside : Outside) (work : Work) :
    Destination × Outside × Verdict :=
  let done : Except FileFault (FileWriter × FileStore) → Destination × Outside × Verdict
    | .ok (w, files) => (file w, { outside with files := files }, .ok)
    | .error f => (file w, outside, .failed f.message)
  match work with
  | .write e =>
    match w.encoding.encode e with
    | .ok bytes => done (w.add outside.files bytes)
    | .error refusal => (file w, outside, .failed refusal.message)
  | .flush => done (w.flush outside.files)
  | .acknowledge =>
    match w.syncFault? outside.files with
    | none => (file w, outside, .ok)
    | some reason => (file w, outside, .failed reason)

def finishBackend (w : BackendWriter) (outside : Outside) (work : Work) :
    Destination × Outside × Verdict :=
  match work with
  | .write _ | .flush =>
    let (w, service, result) := w.endDelivery outside.service outside.web
    (backend w, { outside with service := service }, verdictOf result)
  | .acknowledge =>
    let (service, answer) := w.ask outside.service outside.web
    (backend w, { outside with service := service }, match answer with
      | .ok true => .ok
      | .ok false => .again w.pollInterval
      | .error reason => .failed reason)

/-- Finishes a piece of work whose time has passed. -/
def finish (d : Destination) (outside : Outside) (work : Work) :
    Destination × Outside × Verdict :=
  match d with
  | model behaviour n => (model behaviour (n + 1), outside, (behaviour n work).2)
  | file w => finishFile w outside work
  | backend w => finishBackend w outside work

/-- Gives a destination up. -/
def release (d : Destination) (outside : Outside) : Outside :=
  match d with
  | file w => { outside with files := w.release outside.files }
  | _ => outside

end Destination

end EventUpload
