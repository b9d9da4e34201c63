import EventUpload.Lifecycle.State

/-!
# Calls

The host calls the operations of the lifecycle. Some of them answer at once; others wait for uploads
and are then a `Call`, which is looked at again at later instants: `Lifecycle.check` either answers it or
finds that it has to go on waiting. Every wait has a deadline. A call looks at what it waits for as
soon as it is made, before anything else happens at that instant, so that a deadline that has come
already still finds what is done by then.
-/

set_option autoImplicit false

namespace EventUpload

inductive Answer where
  | ok
  | refused (failure : Failure)
  /-- An invocation has started, with these sinks. -/
  | started (names : List String)
  | report (report : Report)
deriving DecidableEq, Repr

/-- A call that is waiting for the uploads of an invocation. -/
inductive Call where
  /-- Before the next invocation. -/
  | reconcile (index grace deadline : Nat)
  /-- At the end of a blocking invocation: since when, until when, the sinks whose end has been
  noticed, the longest wait to be expected, and when the next word is due that it goes on. -/
  | finish (index start deadline : Nat) (noticed : List Bool) (longest nextWord : Nat)
  /-- At the end of the process. -/
  | settle (index grace deadline : Nat) (ending : Ending)
deriving DecidableEq, Repr

/-- The instants at which a call has to be looked at, whatever the uploads do. -/
def Call.dueInstants : Call → List Nat
  | .reconcile _ _ deadline => [deadline]
  | .finish _ _ deadline _ _ nextWord => [deadline, nextWord]
  | .settle _ _ deadline _ => [deadline]

/-- The instant at which a call is answered at the latest. -/
def Call.deadline : Call → Nat
  | .reconcile _ _ deadline => deadline
  | .finish _ _ deadline _ _ _ => deadline
  | .settle _ _ deadline _ => deadline

inductive Progress where
  | waiting (call : Call)
  | answered (answer : Answer)
deriving DecidableEq, Repr

namespace Lifecycle

def refuse (l : Lifecycle) (operation : Operation) : Progress :=
  .answered (.refused (.outOfOrder operation l.phase))

/-! ## Waiting before an invocation -/

def firstError? (signals : List Signal) : Option SinkError :=
  signals.findSome? fun s => s.bind Outcome.error?

def previousFailed (e : SinkError) : String :=
  "Previous invocation failed to finish Build Event Protocol upload with the following exception: '"
    ++ e.message ++ "'. Ignoring the failure and starting a new invocation..."

def previousTooSlow (grace : Nat) : String :=
  "Pending Build Event Protocol upload took more than " ++ describeSpan grace
    ++ " to finish. Cancelling and starting a new invocation..."

/-- Ends the wait for previous uploads: they are given up. A warning is only posted if nobody else
has retired them before. -/
def endReconcile (l : Lifecycle) (index : Nat) (warning : Option String) : Lifecycle :=
  -- Asked before it retires them itself; a drain may have done so at this very instant.
  let pending := l.isPending index
  let l := l.retire index .newcomer true
  match warning with
  | some text => if pending then l.say .newcomer .warning text else l
  | none => l

/-- Whether the wait for previous uploads is over, and with which warning. -/
def reconcileVerdict? (l : Lifecycle) (v : Invocation) (grace deadline : Nat) :
    Option (Option String) :=
  match firstError? v.awaited with
  | some e => some (some (previousFailed e))
  | none =>
    if v.awaited.all Option.isSome then some none
    else if deadline ≤ l.now then some (some (previousTooSlow grace))
    else none

/-! ## Waiting at the end of an invocation -/

/-- The longest wait that the user has to expect: the cap, or the largest bound if that is smaller
and every sink has one. -/
def expectedWait (cap : Nat) (sinks : List Sink) : Nat :=
  if sinks.any (·.bound = 0) then cap
  else min ((sinks.map Sink.bound).foldl max 0) cap

/-- The word that a wait goes on. -/
def stillWaiting (waited longest : Nat) : String :=
  "Waiting for Build Event Protocol upload. Waited " ++ toString (waited / 1000)
    ++ "s, waiting at most " ++ toString (longest / 1000) ++ "s."

/-- The warning about uploads that go on although the wait is over. -/
def capReached (cap : Nat) : String :=
  "The Build Event Protocol upload timed out after " ++ describeSpan cap
    ++ "; remaining uploads continue in the background"

/-- Notices the sinks whose uploads have ended since the last time. -/
def noticeClosed (l : Lifecycle) (index : Nat) (v : Invocation) (noticed : List Bool) : Lifecycle :=
  let fresh := (v.sinks.zip noticed).filter fun (s, before) => !before && s.seen.done.isSome
  fresh.foldl (fun l (s, _) => l.tell (.invocation index) (.notice (.closed s.name))) l

def leaveClosing (l : Lifecycle) : Lifecycle :=
  if l.phase = .closing then { l with phase := .idle } else l

def noteFinished (l : Lifecycle) (index : Nat) (v : Invocation) : Lifecycle :=
  l.note (.invocation index) (.streamFinished v.ids v.mode l.outstanding?.isSome)

def reportOf (v : Invocation) : Answer := .report (.ofOutcomes v.mode v.outcomes)

/-- Ends the wait at the end of the process: what is left is given up. -/
def endSettle (l : Lifecycle) (index : Nat) (ending : Ending) : Lifecycle :=
  let l := l.retire index .ending true
  if ending = .shutdown && l.phase ≠ .crashed then { l with phase := .idle } else l

def noteSettled (l : Lifecycle) (index : Nat) (v : Invocation) (grace : Nat) (ending : Ending) :
    Lifecycle :=
  if v.allDone then
    v.errors.foldl (fun l e => l.note (.invocation index) (.settleFailed e ending)) l
  else l.note (.invocation index) (.settleTooSlow grace ending)

/-! ## Looking at a call -/

/-- Looks at a call at this instant. -/
def check (l : Lifecycle) : Call → Lifecycle × Progress
  | .reconcile index grace deadline =>
    match l.invocation? index with
    | none => (l, .answered .ok)
    | some v =>
      match l.reconcileVerdict? v grace deadline with
      | some warning => (l.endReconcile index warning, .answered .ok)
      | none => (l, .waiting (.reconcile index grace deadline))
  | .finish index start deadline noticed longest nextWord =>
    match l.invocation? index with
    | none => (l.leaveClosing, .answered .ok)
    | some v =>
      let l := l.noticeClosed index v noticed
      if v.allDone then
        let l := l.sayAll (.invocation index) .warning (closeWarnings v.errors)
        (((l.retire index .wait false).noteFinished index v).leaveClosing, .answered (reportOf v))
      else if deadline ≤ l.now then
        -- The uploads stay pending: they go on, and the next invocation waits for them.
        let l := l.say (.invocation index) .warning (capReached (deadline - start))
        ((l.noteFinished index v).leaveClosing, .answered (reportOf v))
      else
        let noticed := v.sinks.map fun s => s.seen.done.isSome
        (l, .waiting (.finish index start deadline noticed longest nextWord))
  | .settle index grace deadline ending =>
    match l.invocation? index with
    | none => (l.endSettle index ending, .answered .ok)
    | some v =>
      if v.allDone || deadline ≤ l.now then
        ((l.noteSettled index v grace ending).endSettle index ending, .answered .ok)
      else (l, .waiting (.settle index grace deadline ending))

/-- What happens to a waiting call when an instant is over: a word is posted if one is due. -/
def endInstant (l : Lifecycle) : Call → Lifecycle × Call
  | .finish index start deadline noticed longest nextWord =>
    if nextWord ≤ l.now then
      (l.say (.invocation index) .progress (stillWaiting (l.now - start) longest),
        .finish index start deadline noticed longest (nextWord + 1000))
    else (l, .finish index start deadline noticed longest nextWord)
  | call => (l, call)

/-- Drops a call that is waiting: nobody is interested in its answer any longer. -/
def drop (l : Lifecycle) : Call → Lifecycle
  | .finish .. => l.leaveClosing
  | _ => l

/-! ## Making a call -/

/-- Asks for the next invocation: previous uploads are waited for, within a grace. -/
def before (l : Lifecycle) : Lifecycle × Progress :=
  if l.phase ≠ Operation.before.phase then (l, l.refuse .before)
  else
    let l := { l with phase := .waitingPrevious }
    match l.outstanding? with
    | none => (l, .answered .ok)
    | some (index, _) =>
      l.check (.reconcile index l.limits.previous (l.now + l.limits.previous))

/-- Lets sinks go. -/
def letGo (l : Lifecycle) (sinks : List Sink) : Lifecycle :=
  { l with strays := l.strays ++ sinks.map (Sink.close · l.now) }

/-- Starts an invocation over sinks; if that is refused, they are let go. -/
def start (l : Lifecycle) (ids : CommandIds) (sinks : List Sink) : Lifecycle × Progress :=
  if l.phase ≠ Operation.start.phase then (l.letGo sinks, l.refuse .start)
  else
    let index := l.invocations.length
    let stream := Stream.new sinks
    let invocation : Invocation := ⟨ids, stream, .blocking⟩
    let l := { l with
      phase := .active
      active := some index
      invocations := l.invocations ++ [invocation] }
    let l := l.note (.invocation index) (.streamStarted ids stream.names)
    (l.tell (.invocation index) (.notice (.announced stream.names)),
      .answered (.started stream.names))

/-- Notes down that a stream has to be closed by hand, and why, if it has to be. -/
def noteOpen (l : Lifecycle) (index : Nat) (ending : Option Ending) : Lifecycle :=
  match l.invocation? index with
  | none => l
  | some v =>
    let l := match ending with
      | some e => l.note (.invocation index) (.streamCutOff v.ids e)
      | none => if v.stream.closed then l else l.note (.invocation index) (.streamLeftOpen v.ids)
    if v.stream.closed then l
    else l.note (.invocation index) (.streamAborted .internal v.sinks.length)

/-- Closes the stream of an invocation that has ended, and publishes its uploads. -/
def closeAndPublish (l : Lifecycle) (index : Nat) (mode : UploadMode) (ending : Option Ending) :
    Lifecycle :=
  ((l.noteOpen index ending).updateStream index (·.close l.now (some .internal))).publish index mode

def finish (l : Lifecycle) (mode : UploadMode) : Lifecycle × Progress :=
  if l.phase ≠ Operation.finish.phase then (l, l.refuse .finish)
  else
    match l.active with
    -- Out of reach for a host that waits for its calls: in the active phase an invocation is active.
    | none => ({ l with phase := .idle }, .answered (.report ⟨mode, []⟩))
    | some index =>
      let l := { l with phase := .closing, active := none }.closeAndPublish index mode none
      match l.invocation? index with
      | none => (l.leaveClosing, .answered (.report ⟨mode, []⟩))
      | some v =>
        match mode with
        | .blocking =>
          let cap := l.limits.blocking
          l.check (.finish index l.now (l.now + cap) (v.sinks.map fun _ => false)
            (expectedWait cap v.sinks) (l.now + 1000))
        | _ =>
          let l := v.sinks.foldl (fun l s =>
            l.tell (.invocation index) (.notice (.closed s.name))) l
          let l := { l with drains := l.drains ++ [index] }
          ((l.noteFinished index v).leaveClosing,
            .answered (.report (.ofOutcomes mode (v.sinks.map fun s => (s.name, none)))))

/-- Gives up an invocation that was asked for and will not start. -/
def abandon (l : Lifecycle) : Lifecycle × Progress :=
  if l.phase ≠ Operation.abandon.phase then (l, l.refuse .abandon)
  else ({ l with phase := .idle }, .answered .ok)

def abortActive (l : Lifecycle) (ending : Ending) : Lifecycle :=
  match l.active with
  | none => l
  | some index => { l with active := none }.closeAndPublish index .blocking (some ending)

/-- Waits for the outstanding uploads, within a grace. -/
def settleWithin (l : Lifecycle) (grace : Nat) (ending : Ending) : Lifecycle × Progress :=
  match l.outstanding? with
  | some (index, _) => l.check (.settle index grace (l.now + grace) ending)
  | none =>
    (if ending = .shutdown && l.phase ≠ .crashed then { l with phase := .idle } else l,
      .answered .ok)

def crash (l : Lifecycle) : Lifecycle × Progress :=
  if l.phase = .crashed then (l, .answered .ok)
  else
    -- The phase changes before anything else, so whoever is waiting already finds the crash.
    let l := { l with phase := .crashed }.abortActive .crash
    l.settleWithin l.limits.crash .crash

def shutdown (l : Lifecycle) : Lifecycle × Progress :=
  if l.phase = .crashed then (l, .answered .ok)
  else
    -- The phase only changes when the wait is over.
    let l := l.abortActive .shutdown
    l.settleWithin l.limits.shutdown .shutdown

end Lifecycle

end EventUpload
