import EventUpload.Proofs.Sink.Writes
import EventUpload.Proofs.Stream.Deed

/-!
# Sinks that file events

What a writer has written out and what it has gathered are, one after the other, everything that it was
given (`FileWriter.Holds`); so once it is flushed its file has all of that, however large its pieces
were.

A channel to a file that has been closed takes no time: at the next instant at which it is looked at, it
writes its whole queue, flushes, and stops (`Channel.run_files`). So does a sink, whatever its bound
(`Sink.Files.settle`), and among others that write elsewhere (`settleSinks_files`).

That it takes no time is more than that it comes to an end. A watch looks at the signals of a sink at
the end of its turn, so a sink that is done within one turn is seen to be done even if its bound is one
millisecond or has passed already, and `Files.settle` has no hypothesis about bounds. The number of
turns is counted instead: two for every event, and three to flush, to acknowledge and to stop
(`run_files`), which is within the number of turns that a channel is allowed at an instant.

The hypotheses of `run_files` say that nothing fails: the file is there, and every event of the queue
has a line. Where they come from is shown elsewhere. Files are there because opened sinks leave them
there (`Proofs.Sink.Writes`), and other sinks of the stream cannot get in the way as long as they write
elsewhere (`Channel.Elsewhere`).
-/

set_option autoImplicit false

namespace EventUpload

/-! ## Writers

A writer gathers small pieces and writes large ones out at once. `Holds` does not say which of the two
has happened. -/

namespace FileStore

variable {s : FileStore} {p : Place} {old : List UInt8}

/-- Writing at the end of a file appends to it. -/
theorem writeAt_end (hold : s.node? p = some (.file old)) (bytes : List UInt8) :
    s.writeAt p old.length bytes = .ok (s.put p (.file (old ++ bytes))) := by
  have hend : overwrite old old.length bytes = old ++ bytes := by
    rw [overwrite, List.take_length, Nat.sub_self, List.replicate_zero, List.append_nil,
      List.drop_of_length_le (Nat.le_add_right _ _), List.append_nil]
  unfold writeAt
  rw [hold]
  exact congrArg (fun content => Except.ok (s.put p (.file content))) hend

end FileStore

namespace FileWriter

variable {w : FileWriter} {files : FileStore} {bytes : List UInt8}

/-- What a writer has written out and what it has gathered are some bytes. -/
structure Holds (w : FileWriter) (files : FileStore) (bytes : List UInt8) : Prop where
  out : ∃ old, files.node? w.place = some (.file old) ∧ old.length = w.offset ∧
    old ++ w.gathered = bytes

/-- The writer is still one of the same file. -/
def Alike (w w' : FileWriter) : Prop := w'.place = w.place ∧ w'.encoding = w.encoding

theorem Holds.flush (h : w.Holds files bytes) : ∃ w' files', w.flush files = .ok (w', files') ∧
    w.Alike w' ∧ w'.gathered = [] ∧ w'.Holds files' bytes := by
  obtain ⟨old, hold, hlength, rfl⟩ := h.out
  have hwrite : files.writeAt w.place w.offset w.gathered = _ :=
    hlength ▸ FileStore.writeAt_end hold w.gathered
  refine ⟨{ w with offset := w.offset + w.gathered.length, gathered := [] },
    files.put w.place (.file (old ++ w.gathered)), ?_, ⟨rfl, rfl⟩, rfl, ⟨old ++ w.gathered, ?_, ?_, ?_⟩⟩
  · unfold FileWriter.flush writeOut
    rw [hwrite]
    rfl
  · rw [FileStore.node?_put, if_pos rfl]
  · rw [List.length_append, hlength]
  · exact List.append_nil _

/-- Adding bytes may write some of them out, and the rest is gathered: together they follow what the
file holds. -/
theorem Holds.add (h : w.Holds files bytes) (more : List UInt8) : ∃ w' files',
    w.add files more = .ok (w', files') ∧ w.Alike w' ∧ w'.Holds files' (bytes ++ more) := by
  -- What has no room beside the bytes that are gathered is preceded by writing these out.
  obtain ⟨w₁, files₁, hroom, hsame, hholds⟩ : ∃ w₁ files₁,
      (if capacity < w.gathered.length + more.length then w.flush files else .ok (w, files)) =
        .ok (w₁, files₁) ∧ w.Alike w₁ ∧ w₁.Holds files₁ bytes ∧
        (capacity ≤ more.length → w₁.gathered = []) := by
    split
    · obtain ⟨w₁, files₁, hflush, hsame, hgathered, hholds⟩ := h.flush
      exact ⟨w₁, files₁, hflush, hsame, hholds, fun _ => hgathered⟩
    · next hroom =>
      refine ⟨w, files, rfl, ⟨rfl, rfl⟩, h, fun hle => List.length_eq_zero_iff.mp ?_⟩
      omega
  obtain ⟨hholds, hempty⟩ := hholds
  obtain ⟨old, hold, hlength, hbytes⟩ := hholds.out
  rw [add_eq, hroom]
  show ∃ w' files', (if capacity ≤ more.length then w₁.writeOut files₁ more
    else .ok ({ w₁ with gathered := w₁.gathered ++ more }, files₁)) = .ok (w', files') ∧ _
  -- Bytes that would not fit the buffer at all go out at once; others are gathered.
  split
  · next hle =>
    have hwrite : files₁.writeAt w₁.place w₁.offset more = _ :=
      hlength ▸ FileStore.writeAt_end hold more
    rw [hempty hle, List.append_nil] at hbytes
    subst hbytes
    refine ⟨{ w₁ with offset := w₁.offset + more.length },
      files₁.put w₁.place (.file (old ++ more)), ?_, hsame, ⟨old ++ more, ?_, ?_, ?_⟩⟩
    · unfold writeOut
      rw [hwrite]
      rfl
    · rw [FileStore.node?_put, if_pos rfl]
    · rw [List.length_append, hlength]
    · rw [hempty hle, List.append_nil]
  · refine ⟨_, _, rfl, hsame, ⟨old, hold, hlength, ?_⟩⟩
    rw [← hbytes, List.append_assoc]

/-- Giving up a writer writes out what it has gathered. -/
theorem Holds.release (h : w.Holds files bytes) :
    (w.release files).node? w.place = some (.file bytes) := by
  obtain ⟨w', files', hflush, ⟨hplace, -⟩, hgathered, hholds⟩ := h.flush
  obtain ⟨old, hold, -, hbytes⟩ := hholds.out
  rw [hgathered, List.append_nil] at hbytes
  unfold FileWriter.release
  rw [hflush, ← hplace, ← hbytes]
  exact hold

end FileWriter

/-! ## Channels

A channel is followed through its turns at one instant. The outside is carried along, as every write
changes the store. -/

namespace Channel

variable {c : Channel} {outside : Outside} {now : Nat} {w : FileWriter} {bytes : List UInt8}

theorem run_of_step? {d : Channel} {outside' : Outside} {errors : List SinkError} (steps : Nat)
    (h : c.step? outside now = some (d, outside', errors)) :
    (run (steps + 1) c outside now).1 = (run steps d outside' now).1 ∧
      (run (steps + 1) c outside now).2.1 = (run steps d outside' now).2.1 := by
  rw [run, h]
  exact ⟨rfl, rfl⟩

theorem run_of_stopped (outside : Outside) (now : Nat) (h : c.stage = .stopped) (steps : Nat) :
    run steps c outside now = (c, outside, []) := by
  cases steps with
  | zero => rfl
  | succ steps =>
    have hstep : c.step? outside now = none := by
      unfold step?
      rw [h]
    rw [run, hstep]

/-! ### Work on a file takes no time

These lemmas are about single turns and whole events, and in each of them the writer holds what it held
and the line of the event. -/

theorem step?_of_first {e : Event} {queue : List Event} (outside : Outside) (now : Nat)
    (hstage : c.stage = .ready) (hfailure : c.failure = none) (hqueue : c.queue = e :: queue)
    (hw : c.destination = .file w) : c.step? outside now =
      some ({ c with queue := queue, stage := .working (.write e) (some now) }, outside, []) := by
  simp only [step?, hstage, hqueue, hfailure, begin, hw]
  rfl

theorem step?_of_closing (outside : Outside) (now : Nat) (hstage : c.stage = .ready)
    (hfailure : c.failure = none) (hqueue : c.queue = []) (hclosing : c.closing = true)
    (hw : c.destination = .file w) :
    c.step? outside now = some ({ c with stage := .working .flush (some now) }, outside, []) := by
  simp only [step?, hstage, hqueue, hfailure, hclosing, begin, hw]
  rfl

/-- Work on a file ends at the instant at which it has begun. -/
theorem step?_of_finished {work : Work} {w' : FileWriter} {files' : FileStore}
    (hstage : c.stage = .working work (some now)) (hw : c.destination = .file w)
    (hdone : Destination.finishFile w outside work =
      (.file w', { outside with files := files' }, .ok)) :
    c.step? outside now = some (conclude { c with destination := .file w' }
      { outside with files := files' } now work .ok) := by
  have hdue : isDue (some now) now = true := by simp [isDue]
  simp only [step?, hstage, hdue, if_true, hw, Destination.finish, hdone]

/-- An event is written in two steps, which take no time. -/
theorem run_write {e : Event} {queue : List Event} {line : List UInt8} (now : Nat) (hstage : c.stage = .ready)
    (hfailure : c.failure = none) (hqueue : c.queue = e :: queue) (hw : c.destination = .file w)
    (hholds : w.Holds outside.files bytes) (hline : w.encoding.encode e = .ok line) :
    ∃ d outside' w', d.stage = .ready ∧ d.failure = none ∧ d.closing = c.closing ∧ d.queue = queue ∧
      d.destination = .file w' ∧ w.Alike w' ∧ w'.Holds outside'.files (bytes ++ line) ∧
      ∀ steps, (run (steps + 2) c outside now).1 = (run steps d outside' now).1 ∧
        (run (steps + 2) c outside now).2.1 = (run steps d outside' now).2.1 := by
  obtain ⟨w', files', hadd, hsame, hholds'⟩ := hholds.add line
  have hdone : Destination.finishFile w outside (.write e) =
      (.file w', { outside with files := files' }, .ok) := by
    simp only [Destination.finishFile, hline, hadd]
  have hbegin := step?_of_first outside now hstage hfailure hqueue hw
  have hfinish := step?_of_finished (c := { c with
    queue := queue, stage := .working (.write e) (some now) }) rfl hw hdone
  refine ⟨{ c with
      queue := queue
      destination := .file w'
      written := c.written ++ [e]
      stage := .ready }, { outside with files := files' }, w', rfl, hfailure, rfl, rfl, rfl, hsame,
    hholds', fun steps => ?_⟩
  obtain ⟨hfirst, hsecond⟩ := run_of_step? (steps + 1) hbegin
  obtain ⟨hfirst', hsecond'⟩ := run_of_step? steps hfinish
  exact ⟨hfirst.trans hfirst', hsecond.trans hsecond'⟩

/-- When there is nothing left to be written, the file is flushed and acknowledged, and the channel
stops. -/
theorem run_end (hstage : c.stage = .ready) (hfailure : c.failure = none) (hqueue : c.queue = [])
    (hclosing : c.closing = true) (hw : c.destination = .file w)
    (hholds : w.Holds outside.files bytes) (steps : Nat) :
    (run (steps + 3) c outside now).1.stage = .stopped ∧
      (run (steps + 3) c outside now).2.1.files.node? w.place = some (.file bytes) := by
  obtain ⟨w', files', hflush, ⟨hplace, -⟩, hgathered, hholds'⟩ := hholds.flush
  obtain ⟨old, hold, -, -⟩ := hholds'.out
  have hflushed : Destination.finishFile w outside .flush =
      (.file w', { outside with files := files' }, .ok) := by
    simp only [Destination.finishFile, hflush]
  have hsync : w'.syncFault? files' = none := by
    unfold FileWriter.syncFault? FileStore.sync
    rw [hold]
  have hacknowledged : Destination.finishFile w' { outside with files := files' } .acknowledge =
      (.file w', { outside with files := files' }, .ok) := by
    simp only [Destination.finishFile, hsync]
  -- Three steps: to begin flushing, to have flushed and begin to ask, and to be answered.
  have hbegin := step?_of_closing outside now hstage hfailure hqueue hclosing hw
  have hsent := step?_of_finished (c := { c with stage := .working .flush (some now) }) rfl hw hflushed
  have hdone := step?_of_finished (c := { c with
    destination := .file w'
    stage := .working .acknowledge (some now)
    signals := { c.signals with half := c.signals.half.resolve .done } }) rfl rfl hacknowledged
  obtain ⟨hone, hone'⟩ := run_of_step? (steps + 2) hbegin
  obtain ⟨htwo, htwo'⟩ := run_of_step? (steps + 1) hsent
  obtain ⟨hthree, hthree'⟩ := run_of_step? steps hdone
  rw [hone.trans (htwo.trans hthree), hone'.trans (htwo'.trans hthree'), run_of_stopped _ _ rfl, ← hplace]
  exact ⟨rfl, hholds'.release⟩

/-- **A closed channel files its whole queue at once.** -/
theorem run_files {lines : List (List UInt8)} (now : Nat) {steps : Nat} (hstage : c.stage = .ready)
    (hfailure : c.failure = none) (hclosing : c.closing = true) (hw : c.destination = .file w)
    (hholds : w.Holds outside.files bytes) (hlines : c.queue.mapM w.encoding.encode = .ok lines)
    (hsteps : 2 * c.queue.length + 3 ≤ steps) :
    (run steps c outside now).1.stage = .stopped ∧
      (run steps c outside now).2.1.files.node? w.place = some (.file (bytes ++ lines.flatten)) := by
  generalize hqueue : c.queue = queue at hlines hsteps
  induction queue generalizing c outside w bytes lines steps with
  | nil =>
    rw [List.mapM_nil] at hlines
    cases hlines
    obtain ⟨rest, rfl⟩ := Nat.exists_eq_add_of_le' hsteps
    rw [List.flatten_nil, List.append_nil]
    exact run_end hstage hfailure hqueue hclosing hw hholds rest
  | cons e queue ih =>
    rw [List.mapM_cons] at hlines
    obtain ⟨line, hline, hlines⟩ := exists_of_bind_eq_ok hlines
    obtain ⟨lines, hrest, hlines⟩ := exists_of_bind_eq_ok hlines
    cases hlines
    rw [List.length_cons] at hsteps
    obtain ⟨rest, rfl⟩ : ∃ rest, steps = rest + 2 := ⟨steps - 2, by omega⟩
    obtain ⟨d, outside', w', hstage', hfailure', hclosing', hqueue', hw', ⟨hplace, hencoding⟩, hholds',
      hrun⟩ := run_write now hstage hfailure hqueue hw hholds hline
    obtain ⟨hfirst, hsecond⟩ := hrun rest
    rw [← hencoding] at hrest
    rw [hfirst, hsecond, List.flatten_cons, ← List.append_assoc, ← hplace]
    exact ih hstage' hfailure' (hclosing'.trans hclosing) hw' hholds' hqueue' hrest (by omega)

/-- A channel that has stopped changes nothing. -/
theorem abides_stopped (O : Outside → Prop) : Abides (fun c => c.stage = .stopped) O where
  step := by
    intro c d outside outside' now errors hc _ hstep
    unfold step? at hstep
    rw [hc] at hstep
    exact absurd hstep (by simp)
  cancel := by
    intro c outside hc ho
    obtain ⟨name, destination, queue, closing, cancelled, failure, stage, written, signals⟩ := c
    cases hc
    cases cancelled <;> exact ⟨rfl, ho⟩

/-- A channel that does not write to a place: it has stopped, or writes elsewhere. -/
def Elsewhere (p : Place) (c : Channel) : Prop :=
  c.stage = .stopped ∨ c.destination.Within (· ≠ p)

theorem abides_elsewhere (p : Place) (s : FileStore) :
    Abides (Elsewhere p) fun outside => s.Writes (· ≠ p) outside.files :=
  (Destination.abides_writes (· ≠ p) s).channel.orStopped

end Channel

/-! ## Sinks

A sink that is settled gives its channel all turns at once, and then its watches look. -/

namespace Sink

variable {s : Sink} {outside : Outside} {now : Nat} {p : Place}

/-- A sink that has been closed and is about to file its queue, and what it will have filed. -/
structure Files (s : Sink) (outside : Outside) (p : Place) (bytes : List UInt8) : Prop where
  channel : ∃ c w old lines, s.body = .channel c ∧ c.stage = .ready ∧ c.failure = none ∧
    c.closing = true ∧ c.destination = .file w ∧ w.place = p ∧ w.Holds outside.files old ∧
    c.queue.mapM w.encoding.encode = .ok lines ∧ old ++ lines.flatten = bytes
  undone : s.seen.done = none

/-- Writing elsewhere changes nothing about it. -/
theorem Files.elsewhere {bytes : List UInt8} {outside' : Outside} (h : s.Files outside p bytes)
    (hwrites : outside.files.Writes (· ≠ p) outside'.files) : s.Files outside' p bytes := by
  obtain ⟨c, w, old, lines, hbody, hstage, hfailure, hclosing, hw, rfl, ⟨old', hold, hlength, heq⟩,
    hlines, hbytes⟩ := h.channel
  have hsame := hwrites.untouched (p := w.place) fun hne => hne rfl
  exact ⟨⟨c, w, old, lines, hbody, hstage, hfailure, hclosing, hw, rfl,
    ⟨old', hsame.trans hold, hlength, heq⟩, hlines, hbytes⟩, h.undone⟩

/-- **A sink that has been closed files its whole queue at once**, whatever its bound. -/
theorem Files.settle {bytes : List UInt8} (h : s.Files outside p bytes) (now : Nat) :
    (s.settle outside now).1.Has (Channel.Elsewhere p) ∧
      (s.settle outside now).2.1.files.node? p = some (.file bytes) := by
  obtain ⟨c, w, old, lines, hbody, hstage, hfailure, hclosing, hw, rfl, hholds, hlines, rfl⟩ := h.channel
  obtain ⟨hstopped, hfiled⟩ := Channel.run_files now hstage hfailure hclosing hw hholds hlines
    (show 2 * c.queue.length + 3 ≤ c.patience outside by unfold Channel.patience; omega)
  have hstop := Channel.abides_stopped fun outside =>
    outside.files.node? w.place = some (.file (old ++ lines.flatten))
  have hadvanced : (s.advance outside now).1.Has (fun c => c.stage = .stopped) ∧
      (s.advance outside now).2.1.files.node? w.place = some (.file (old ++ lines.flatten)) := by
    unfold advance
    rw [hbody]
    refine ⟨fun d hd => ?_, hfiled⟩
    cases hd
    exact hstopped
  obtain ⟨hdone, ho⟩ := hstop.watchDone now hadvanced.1 hadvanced.2
  obtain ⟨hhalf, ho⟩ := hstop.watchHalf now hdone ho
  exact ⟨fun d hd => .inl (hhalf d hd), ho⟩

theorem obeyAll_accept {bound : Nat} {c : Channel} {watch : Option Watch} (hopen : c.closing = false)
    (hcancelled : c.cancelled = false) (events : List Event) :
    (⟨bound, .channel c, watch⟩ : Sink).obeyAll (events.map .accept) =
      ⟨bound, .channel { c with queue := c.queue ++ events }, watch⟩ := by
  induction events generalizing c with
  | nil =>
    rw [List.append_nil]
    rfl
  | cons e events ih =>
    have haccept : c.accept e = { c with queue := c.queue ++ [e] } := by
      rw [Channel.accept, hopen, hcancelled]
      rfl
    have hrest := ih (c := { c with queue := c.queue ++ [e] }) hopen hcancelled
    rw [List.append_assoc] at hrest
    show (⟨bound, .channel (c.accept e), watch⟩ : Sink).obeyAll (events.map .accept) = _
    rw [haccept]
    exact hrest

/-- A new sink is about to file what it has been asked to accept. -/
theorem files_of_asked {w : FileWriter} {events : List Event} {lines : List (List UInt8)}
    (name : String) (bound closed : Nat) (hw : w.Holds outside.files [])
    (hlines : events.mapM w.encoding.encode = .ok lines) :
    (((Sink.new bound (.channel (.new name (.file w)))).obeyAll
      (events.map .accept ++ [.close closed])).startWatch now).Files outside w.place
        lines.flatten := by
  have hasked : (Sink.new bound (.channel (.new name (.file w)))).obeyAll
      (events.map .accept ++ [.close closed]) =
        ⟨bound, .channel { Channel.new name (.file w) with queue := events, closing := true }, none⟩ := by
    rw [obeyAll_append, Sink.new, obeyAll_accept rfl rfl]
    rfl
  rw [hasked]
  refine ⟨⟨{ Channel.new name (.file w) with queue := events, closing := true }, w, [], lines, ?_, rfl,
    rfl, rfl, rfl, rfl, hw, hlines, List.nil_append _⟩, ?_⟩
  · unfold startWatch
    split <;> rfl
  · unfold startWatch
    split <;> rfl

end Sink

/-! ## Sinks in a row

Other sinks are settled before and after it in the same instant, with the outside that it has left them. -/

namespace Lifecycle

variable {before after : List Sink} {s : Sink} {outside : Outside} {now : Nat} {p : Place}

theorem settleSinks_append (now : Nat) (before after : List Sink) (outside : Outside) :
    (settleSinks now (before ++ after) outside).1 = (settleSinks now before outside).1 ++
        (settleSinks now after (settleSinks now before outside).2.1).1 ∧
      (settleSinks now (before ++ after) outside).2.1 =
        (settleSinks now after (settleSinks now before outside).2.1).2.1 := by
  induction before generalizing outside with
  | nil => exact ⟨rfl, rfl⟩
  | cons s before ih =>
    obtain ⟨hsinks, hout⟩ := ih (s.settle outside now).2.1
    exact ⟨congrArg ((s.settle outside now).1 :: ·) hsinks, hout⟩

/-- **Among sinks that write elsewhere** a sink that has been closed files its whole queue. -/
theorem settleSinks_files {bytes : List UInt8} (now : Nat)
    (hbefore : ∀ t ∈ before, t.Has (Channel.Elsewhere p)) (h : s.Files outside p bytes)
    (hafter : ∀ t ∈ after, t.Has (Channel.Elsewhere p)) :
    (∀ t ∈ (settleSinks now (before ++ s :: after) outside).1, t.Has (Channel.Elsewhere p)) ∧
      (settleSinks now (before ++ s :: after) outside).2.1.files.node? p = some (.file bytes) ∧
      outside.files.Writes (fun _ => True)
        (settleSinks now (before ++ s :: after) outside).2.1.files := by
  have habides (o : Outside) := Channel.abides_elsewhere p o.files
  obtain ⟨hsinks, hout⟩ := settleSinks_append now before (s :: after) outside
  have hwrites : outside.files.Writes (fun _ => True)
      (settleSinks now (before ++ s :: after) outside).2.1.files :=
    ((Destination.abides_writes (fun _ => True) outside.files).channel.settleSinks
      now (fun _ _ _ _ _ _ => trivial) (.refl _)).2
  obtain ⟨hsettled, hbetween⟩ := (habides outside).settleSinks now hbefore (.refl _)
  obtain ⟨hfiled, hfile⟩ := (h.elsewhere hbetween).settle now
  obtain ⟨hrest, hlast⟩ := (habides (s.settle (settleSinks now before outside).2.1 now).2.1).settleSinks
    now hafter (.refl _)
  refine ⟨?_, ?_, hwrites⟩
  · rw [hsinks]
    intro t ht
    rcases List.mem_append.mp ht with ht | ht
    · exact hsettled t ht
    · rcases List.mem_cons.mp ht with rfl | ht
      · exact hfiled
      · exact hrest t ht
  · rw [hout]
    exact (hlast.untouched fun hne => hne rfl).trans hfile

end Lifecycle

end EventUpload
