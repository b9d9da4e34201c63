import EventUpload.Command.Replay
import EventUpload.Proofs.Command.Opening
import EventUpload.Proofs.Event.Recording
import EventUpload.Proofs.Stream.Handed

/-!
# Replayed commands

A replay calls the uploader before a command, feeds the stream of that command, and calls the uploader
after it; then comes the next command. What is fed to the stream is the line in front, the events, and
one more that ends the stream if none of them does (`Feeding.feed`).

If the command has a JSON file in a place of its own (`JsonTarget`), its sinks are opened in that place
however often commands were replayed before, all that the stream hands over is filed there at the end,
and the place is left alone from then on (`Uploader.replayCommand_files`). So after any number of
commands the file is what one of them makes of it (`Uploader.replayCommands_files`).

Three states follow one another, each with a structure. `Between` two commands there is something in the
place and nobody writes there; a command that has `Started` has a sink for the place, which is empty;
and while it is fed (`Feeding`) nothing changes but its stream and the log. Whatever the command before
has left in the place is gone when the next one has started, and that is why the number of commands does
not matter.

What the stream hands over was computed beforehand (`Stream/Handed`), and that it is filed within the
wait at the end is `Lifecycle/Filed`; neither needs to be repeated for a replay.
-/

set_option autoImplicit false

namespace EventUpload

open Lifecycle StreamTurn

namespace Uploader

variable {u v : Uploader} {l : Lifecycle} {c : RunningCommand} {front : List Invocation} {w : Invocation}
  {s : Stream}

/-! ## Feeding a stream

What is fed is computed as turns of the stream, so that what has been shown of turns applies. -/

/-- An uploader with a command running, whose stream has come to be what is given; nothing else has
changed but the log. -/
structure Feeding (u : Uploader) (l : Lifecycle) (c : RunningCommand) (front : List Invocation)
    (w : Invocation) (s : Stream) : Prop where
  current : u.current = some c
  index : c.index = front.length
  lifecycle : ∃ log, u.lifecycle =
    { l with invocations := front ++ [{ w with stream := s }], log := log }

namespace Feeding

theorem invocation? (h : u.Feeding l c front w s) :
    u.lifecycle.invocation? c.index = some { w with stream := s } := by
  obtain ⟨log, hl⟩ := h.lifecycle
  rw [hl, Lifecycle.invocation?, h.index]
  exact List.getElem?_concat_length

/-- The stream is changed. -/
theorem updateStream (h : u.Feeding l c front w s) (f : Stream → Stream) :
    ({ u with lifecycle := u.lifecycle.updateStream c.index f } : Uploader).Feeding l c front w (f s) := by
  obtain ⟨log, hl⟩ := h.lifecycle
  refine ⟨h.current, h.index, log, ?_⟩
  have hmodify := modify_concat front { w with stream := s } fun i => { i with stream := f i.stream }
  rw [hl, h.index]
  show ({ l with invocations := _, log := log } : Lifecycle) = _
  rw [hmodify]

theorem write (h : u.Feeding l c front w s) (channel : OutputChannel) (bytes : List UInt8) :
    (u.write channel bytes).Feeding l c front w (s.write channel bytes) := by
  have hwrite : u.write channel bytes =
      { u with lifecycle := u.lifecycle.updateStream c.index (·.write channel bytes) } := by
    unfold Uploader.write
    rw [h.current]
  rw [hwrite]
  exact h.updateStream (·.write channel bytes)

theorem post (h : u.Feeding l c front w s) (e : Event) :
    (u.post e).Feeding l c front w (s.post l.now e) := by
  have hnow : u.lifecycle.now = l.now := by
    obtain ⟨log, hl⟩ := h.lifecycle
    rw [hl]
  have hpost : u.post e = if s.closed = true then
      { u with lifecycle := u.lifecycle.note (.invocation c.index) (.eventDropped e.kind) }
      else { u with lifecycle := u.lifecycle.updateStream c.index (·.post u.lifecycle.now e) } := by
    unfold Uploader.post
    rw [h.current]
    dsimp only
    rw [h.invocation?, Option.any_some]
  rw [hpost]
  split
  · next hclosed =>
    obtain ⟨log, hl⟩ := h.lifecycle
    have hsame : s.post l.now e = s := if_pos hclosed
    rw [hsame]
    exact ⟨h.current, h.index, _, congrArg (Lifecycle.note · (.invocation c.index) _) hl⟩
  · rw [← hnow]
    exact h.updateStream (·.post u.lifecycle.now e)

theorem finished (h : u.Feeding l c front w s) : u.finished = s.closed := by
  unfold Uploader.finished
  rw [h.current, Option.bind_some, h.invocation?, Option.any_some]

theorem writing (h : u.Feeding l c front w s) (pieces : List String) :
    (pieces.foldl (fun u piece => u.write .err (Utf8.encode piece)) u).Feeding l c front w
      (s.after (StreamTurn.writing l.now .err pieces)) := by
  induction pieces generalizing u s with
  | nil => exact h
  | cons piece pieces ih => exact ih (h.write .err (Utf8.encode piece))

theorem posting (h : u.Feeding l c front w s) (events : List Event) :
    (events.foldl Uploader.post u).Feeding l c front w (s.after (StreamTurn.posting l.now events)) := by
  induction events generalizing u s with
  | nil => exact h
  | cons e events ih => exact ih (h.post e)

/-- **What is fed to the stream**: some output, the events, and one that ends it at the latest. -/
theorem feed (h : u.Feeding l c front w s) (events : List Event) :
    (u.feed events).Feeding l c front w (s.after (StreamTurn.feeding l.now (replayBanner events.length)
      (events ++ [replayEnd events.length]))) := by
  have hfed := (h.writing (replayBanner events.length)).posting events
  rw [← Stream.after_append] at hfed
  have hlast := hfed.post (replayEnd events.length)
  have hturns : s.after (StreamTurn.feeding l.now (replayBanner events.length)
      (events ++ [replayEnd events.length])) = (s.after (StreamTurn.writing l.now .err
        (replayBanner events.length) ++ StreamTurn.posting l.now events)).post l.now
          (replayEnd events.length) := by
    rw [StreamTurn.feeding, StreamTurn.posting, List.map_append, ← List.append_assoc,
      Stream.after_append]
    rfl
  rw [hturns]
  unfold Uploader.feed
  dsimp only
  rw [hfed.finished]
  split
  · next hclosed =>
    have hsame : (s.after (StreamTurn.writing l.now .err (replayBanner events.length) ++
        StreamTurn.posting l.now events)).post l.now (replayEnd events.length) = _ := if_pos hclosed
    rw [hsame]
    exact hfed
  · exact hlast

end Feeding

/-- Feeding is something that goes on while no call is being answered. -/
theorem Standing.feed {crashed : Prop} (h : u.Standing crashed) (events : List Event) :
    (u.feed events).Standing crashed := by
  have hwrites (pieces : List String) : ∀ {v : Uploader}, v.Standing crashed →
      (pieces.foldl (fun v piece => v.write .err (Utf8.encode piece)) v).Standing crashed := by
    induction pieces with
    | nil => exact fun hv => hv
    | cons piece pieces ih => exact fun hv => ih (hv.meanwhile (meanwhile_write _ _ _))
  have hposts (events : List Event) : ∀ {v : Uploader}, v.Standing crashed →
      (events.foldl Uploader.post v).Standing crashed := by
    induction events with
    | nil => exact fun hv => hv
    | cons e events ih => exact fun hv => ih (hv.meanwhile (meanwhile_post _ _))
  have hfed := hposts events (hwrites (replayBanner events.length) h)
  unfold Uploader.feed
  dsimp only
  split
  · exact hfed
  · exact hfed.meanwhile (meanwhile_post _ _)

/-! ## One command

From before the command to after it, in three steps with a structure for the state between them. -/

/-- The command of some options has a JSON file, in a place of its own. -/
structure JsonTarget (base : FileStore) (options : UploadOptions) (file : FileOptions) (p : Place) :
    Prop where
  json : options.jsonFile = some file
  resolve : base.resolve file.path = .ok p
  name : FileStore.namesDirectory file.path = false
  alone : ∀ e g, e ≠ .json → options.file? e = some g → base.resolve g.path ≠ .ok p

/-- The events that are filed when events are replayed as one command. -/
def replayedEvents (options : UploadOptions) (events : List Event) : List Event :=
  numberedFrom 1 ((Listener.empty options.outputBuffer options.outputChunk).fed
    (replayBanner events.length) events (replayEnd events.length))

/-- The lines of these events. -/
def replayedBytes (options : UploadOptions) (events : List Event) : List UInt8 :=
  ((replayedEvents options events).map fun e => Utf8.encode (Encoding.jsonLine e)).flatten

/-- Some commands are over, and something is in a place, to which nobody writes any more. -/
structure Between (base : FileStore) (p : Place) (n : Nat) (node : Option Node) (u : Uploader) :
    Prop where
  standing : u.Standing False
  current : u.current = none
  store : ∃ files, base.SameTree files ∧ files.node? p = node ∧ u.lifecycle.Clear p files n

theorem abides_limits (limits : Limits) : Abides fun l => l.limits = limits where
  posts := by
    rintro l m h ⟨posts, rfl⟩
    exact h
  now := fun _ h => h
  phase := fun _ h => h
  drains := fun _ h => h
  retire := fun i who cancel h => (calm_retire _ i who cancel).limits.trans h
  settleInvocation := fun i h => (quiet_settleInvocation _ i).limits.trans h
  settleStrays := fun h => (quiet_settleStrays _).limits.trans h

/-- A command whose end is not refused is over for the host, with a report. -/
theorem after_of_answered {m : Lifecycle} {a : Answer} {t : Nat} (hc : u.current = some c)
    (hperform : Run.perform u.lifecycle (·.finish c.options.mode) none = (m, .answer a t))
    (ha : ∀ f, a ≠ .refused f) : ∃ v report, u.after none = (v, .ok report) ∧ v.current = none ∧
      m.Says v.lifecycle := by
  unfold Uploader.after
  rw [hc]
  dsimp only
  rw [hperform]
  dsimp only
  generalize hv : (if c.options.keepConnections = true then _ else _ : Uploader) = v
  have hleft : v.current = none ∧ v.lifecycle = m := by
    rw [← hv]
    split <;> exact ⟨rfl, rfl⟩
  obtain ⟨hcurrent, rfl⟩ := hleft
  cases a with
  | refused f => exact absurd rfl (ha f)
  | report r =>
    refine ⟨_, r, rfl, ?_, ?_⟩
    · cases farewell c <;> exact hcurrent
    · cases farewell c with
      | none => exact says_note _ _ _
      | some text => exact (says_say _ _ _ _).trans (says_note _ _ _)
  | ok => exact ⟨v, _, rfl, hcurrent, .refl _⟩
  | started names => exact ⟨v, _, rfl, hcurrent, .refl _⟩

/-- The sink for a JSON file that has just been opened. -/
def jsonSink (file : FileOptions) (p : Place) : Sink :=
  .ofDestination (Encoding.json).sinkName file.timeoutSecs (.file ⟨file.path, p, .json, 0, []⟩)

/-- A command with the given number has just started. One of its sinks is for its JSON file, which is
empty, and nobody else writes there. -/
structure Started (base : FileStore) (options : UploadOptions) (file : FileOptions) (p : Place) (n : Nat)
    (u : Uploader) : Prop where
  current : ∃ ids names, u.current = some ⟨n, ids, options, names⟩
  phase : u.lifecycle.phase = .active
  active : u.lifecycle.active = some n
  limits : u.lifecycle.limits = options.limits
  invocations : ∃ front ids earlier later, u.lifecycle.invocations = front ++ [⟨ids,
      (Stream.new (earlier ++ jsonSink file p :: later)).attach
        (.empty options.outputBuffer options.outputChunk), .blocking⟩] ∧
    front.length = n ∧ (∀ w ∈ front, ∀ s ∈ w.sinks, s.Has (Channel.Elsewhere p)) ∧
    (∀ s ∈ earlier, s.Has (Channel.Elsewhere p)) ∧ ∀ s ∈ later, s.Has (Channel.Elsewhere p)
  strays : ∀ s ∈ u.lifecycle.strays, s.Has (Channel.Elsewhere p)
  tree : base.SameTree u.lifecycle.outside.files
  empty : u.lifecycle.outside.files.node? p = some (.file [])

section Target

variable {base : FileStore} {options : UploadOptions} {file : FileOptions} {p : Place} {n : Nat}
  {node : Option Node}

/-- Whatever is in the place of its JSON file, a command starts with an empty one. -/
theorem before_started (htarget : JsonTarget base options file p) (hcheck : options.check = .ok ())
    {command : String} (hallows : options.allows command = true) (h : u.Between base p n node)
    (hnode : node = none ∨ ∃ bytes, node = some (.file bytes)) (ids : CommandIds) :
    ∃ v names, u.before command options ids none = (v, .ok names) ∧ v.Started base options file p n := by
  obtain ⟨files, htree, hheld, hclear⟩ := h.store
  have hidle := h.standing.idle_iff.mpr ⟨h.current, id⟩
  obtain ⟨m, d, hperform, -, hphase, -⟩ :=
    exists_perform_before (l := { u.lifecycle with limits := options.limits }) hidle
  -- The wait for the previous uploads leaves the place and the limits alone.
  have habides := abides_clear p files n
  have hclear' : Clear p files n { u.lifecycle with limits := options.limits } :=
    ⟨hclear.invocations, hclear.strays, hclear.outside⟩
  have hm := habides.perform Lifecycle.before (habides.before hclear') none
  have hlimits := (abides_limits options.limits).perform Lifecycle.before
    ((abides_limits options.limits).before (l := { u.lifecycle with limits := options.limits }) rfl) none
  have hperform' : Run.perform { u.lifecycle with limits := options.limits } Lifecycle.before none = _ :=
    hperform
  rw [hperform'] at hm hlimits
  obtain ⟨hlength, hfront⟩ := forall₂_replicate_left.mp hm.invocations
  have hp : m.outside.files.Fileable p := by
    unfold FileStore.Fileable
    rw [hm.outside.untouched fun hne => hne rfl, hheld]
    exact hnode
  obtain ⟨v, earlier, later, outside', hsinks, hearlier, hlater, ⟨posts, hl⟩, htree', hempty⟩ :=
    -- With the place free, the sinks are opened and the target is created or emptied.
    sinksFor_filing (u := { u with lifecycle := m }) htarget.json htarget.alone
      (htree.trans hm.outside.sameTree) htarget.resolve htarget.name hp ids
  have hlifecycle : v.lifecycle.phase = .waitingPrevious := by
    rw [hl]
    exact hphase
  have hopened : u.before command options ids none =
      v.startCommand options ids (earlier ++ jsonSink file p :: later) := by
    rw [before_of_answered hperform, opened, hcheck]
    dsimp only
    rw [if_pos hallows, hsinks]
    rfl
  have hinvocations := invocations_startCommand hlifecycle options ids
    (earlier ++ jsonSink file p :: later)
  have hstart : v.lifecycle.start ids (earlier ++ jsonSink file p :: later) = _ :=
    if_neg (not_not_intro (hlifecycle : v.lifecycle.phase = Operation.start.phase))
  rw [startCommand_eq hlifecycle, hstart] at hinvocations hopened
  have hfronts : v.lifecycle.invocations = m.invocations := by rw [hl]
  have hn : v.lifecycle.invocations.length = n := by rw [hfronts, hlength]
  rw [hn] at hinvocations hopened
  refine ⟨_, _, hopened, ⟨ids, _, rfl⟩, rfl, rfl, ?_, ?_, ?_, ?_, ?_⟩
  · show v.lifecycle.limits = _
    rw [hl]
    exact hlimits
  · exact ⟨v.lifecycle.invocations, ids, earlier, later, hinvocations, hn, hfronts ▸ hfront, hearlier,
      hlater⟩
  · show ∀ s ∈ v.lifecycle.strays, _
    rw [hl]
    exact hm.strays
  · show base.SameTree v.lifecycle.outside.files
    rw [hl]
    exact htree'
  · show v.lifecycle.outside.files.node? p = _
    rw [hl]
    exact hempty

/-- A stream that is fed asks the sink for the JSON file to file all of it, and then to close. -/
theorem files_jsonSink {outside : Outside} (hempty : outside.files.node? p = some (.file []))
    (events : List Event) (closed now : Nat) :
    (((jsonSink file p).obeyAll ((numberedFrom 1 events).map .accept ++ [.close closed])).startWatch
      now).Files outside p
        ((numberedFrom 1 events).map fun e => Utf8.encode (Encoding.jsonLine e)).flatten :=
  Sink.files_of_asked (w := ⟨file.path, p, .json, 0, []⟩) _ _ closed
    ⟨[], hempty, rfl, rfl⟩ (Recording.mapM_encode_json _)

/-- **What the stream of a command hands over** has been filed when the command is over. -/
theorem Started.exists_after (h : u.Started base options file p n) (hmode : options.mode = .blocking)
    (hcap : 0 < options.limits.blocking) (events : List Event) :
    ∃ v report, (u.feed events).after none = (v, .ok report) ∧ v.current = none ∧
      ∃ files, base.SameTree files ∧
        files.node? p = some (.file (replayedBytes options events)) ∧
        v.lifecycle.Clear p files (n + 1) := by
  obtain ⟨ids, names, hcurrent⟩ := h.current
  obtain ⟨front, ids', earlier, later, hinvocations, hlength, hfront, hearlier, hlater⟩ := h.invocations
  let w : Invocation := ⟨ids', (Stream.new (earlier ++ jsonSink file p :: later)).attach
    (.empty options.outputBuffer options.outputChunk), .blocking⟩
  have hrunning : u.Feeding u.lifecycle ⟨n, ids, options, names⟩ front w w.stream := by
    refine ⟨hcurrent, hlength.symm, u.lifecycle.log, ?_⟩
    show u.lifecycle = { u.lifecycle with invocations := front ++ [w], log := u.lifecycle.log }
    rw [← hinvocations]
  -- The last of the events that are fed closes the stream, so the sinks have been asked for
  -- everything.
  obtain ⟨hclosed, time, hsinks⟩ := Stream.after_feeding options.outputBuffer options.outputChunk
    u.lifecycle.now (replayBanner events.length) events (replayEnd events.length)
    (earlier ++ jsonSink file p :: later) rfl
  have hfed := hrunning.feed events
  generalize u.feed events = v at hfed
  obtain ⟨log, hl⟩ := hfed.lifecycle
  -- The other sinks of the command have been asked as well, but they write elsewhere, as do all of
  -- earlier commands.
  have hasked {ks : List Sink} (hks : ∀ k ∈ ks, k.Has (Channel.Elsewhere p)) (calls : List SinkCall) :
      ∀ k ∈ ks.map (·.obeyAll calls), k.Has (Channel.Elsewhere p) := by
    intro k hk
    obtain ⟨k, hmem, rfl⟩ := List.mem_map.mp hk
    exact (Channel.takes_elsewhere p).obeyAll (hks k hmem) calls
  have hothers : ∀ j x, j ≠ n → v.lifecycle.invocation? j = some x →
      ∀ s ∈ x.sinks, s.Has (Channel.Elsewhere p) := by
    intro j x hj hx
    rw [hl, invocation?, List.getElem?_append] at hx
    split at hx
    · exact hfront x (List.mem_of_getElem? hx)
    · next hle =>
      have hgt : j - front.length ≠ 0 := by omega
      rw [List.getElem?_singleton, if_neg hgt] at hx
      exact absurd hx (by simp)
  have hempty : v.lifecycle.outside.files.node? p = some (.file []) := by
    rw [hl]
    exact h.empty
  have hstrays : ∀ s ∈ v.lifecycle.strays, s.Has (Channel.Elsewhere p) := by
    rw [hl]
    exact h.strays
  rw [List.map_append, List.map_cons] at hsinks
  have hfiling := filing_ended hfed.invocation? hclosed hsinks (hasked hearlier _) (hasked hlater _)
    (files_jsonSink hempty _ time v.lifecycle.now) hothers hstrays .blocking
  have hphase : v.lifecycle.phase = .active := by
    rw [hl]
    exact h.phase
  have hactive : v.lifecycle.active = some n := by
    rw [hl]
    exact h.active
  have hlimits : 0 < v.lifecycle.limits.blocking := by
    rw [hl]
    exact h.limits ▸ hcap
  have htree : base.SameTree v.lifecycle.outside.files := by
    rw [hl]
    exact h.tree
  have hcount : v.lifecycle.invocations.length = n + 1 := by
    rw [hl, List.length_append, hlength]
    rfl
  -- The end waits until the file has been written out, as it is given time to.
  obtain ⟨m, a, t, hperform, hanswer, files, hwrites, hfiled, hclear⟩ :=
    perform_finish_files hphase hactive hlimits hfiling
  rw [hcount] at hclear
  obtain ⟨x, report, hafter, hcurrent', hsaid⟩ :=
    after_of_answered hfed.current (hmode.symm ▸ hperform) hanswer
  exact ⟨x, report, hafter, hcurrent', files, htree.trans hwrites.sameTree, hfiled,
    (abides_clear p files (n + 1)).posts hclear hsaid⟩

/-! ## Several commands

By induction on the number of commands. The place is emptied by each of them before it is written, so
the induction needs no hypothesis on what is in it. -/

section Replay

variable (htarget : JsonTarget base options file p) (hcheck : options.check = .ok ())
  (hmode : options.mode = .blocking) (hcap : 0 < options.limits.blocking) {command : String}
  (hallows : options.allows command = true)
include htarget hcheck hmode hcap hallows

/-- **Events replayed as a command** are filed, whatever was in the place of the file before. -/
theorem replayCommand_files (h : u.Between base p n node)
    (hnode : node = none ∨ ∃ bytes, node = some (.file bytes)) (ids : CommandIds) (events : List Event) :
    ∃ v report, u.replayCommand command options ids events = (v, .ok report) ∧
      v.Between base p (n + 1) (some (.file (replayedBytes options events))) := by
  obtain ⟨v, names, hbefore, hstarted⟩ := before_started htarget hcheck hallows h hnode ids
  obtain ⟨x, report, hafter, hcurrent, hstore⟩ := hstarted.exists_after hmode hcap events
  have hstanding := h.standing.before command options ids
  rw [hbefore] at hstanding
  have hover := (hstanding.feed events).after
  rw [hafter] at hover
  refine ⟨x, report, ?_, hover, hcurrent, hstore⟩
  unfold replayCommand
  rw [hbefore]
  exact hafter

/-- **However often events are replayed**, the file is what one command makes of it. -/
theorem replayCommands_files (h : u.Between base p n node)
    (hnode : node = none ∨ ∃ bytes, node = some (.file bytes)) (events : List Event) (source : IdSource)
    (index count : Nat) : ∃ v summaries,
      u.replayCommands command options events source index count = (v, .ok summaries) ∧
        v.Between base p (n + count)
          (if count = 0 then node else some (.file (replayedBytes options events))) := by
  induction count generalizing u n node source index with
  | zero => exact ⟨u, [], rfl, h⟩
  | succ count ih =>
    obtain ⟨v, report, hreplayed, hv⟩ := replayCommand_files htarget hcheck hmode hcap hallows h hnode
      source.command.1 events
    have hnoted : (v.noteReplayed index source.command.1).Between base p (n + 1)
        (some (.file (replayedBytes options events))) := by
      obtain ⟨files, htree, hheld, hclear⟩ := hv.store
      exact ⟨hv.standing.meanwhile (.drift (.quiet (quiet_note _ _ _)) fun _ hi => hi), hv.current,
        files, htree, hheld, (abides_clear p files (n + 1)).posts hclear (says_note _ _ _)⟩
    obtain ⟨x, summaries, hrest, hx⟩ := ih hnoted (.inr ⟨_, rfl⟩) source.command.2 (index + 1)
    refine ⟨x, ⟨index, source.command.1.invocation, report⟩ :: summaries, ?_, ?_⟩
    · unfold replayCommands
      dsimp only
      rw [hreplayed]
      dsimp only
      rw [hrest]
      rfl
    · rw [ite_self] at hx
      rw [if_neg (Nat.succ_ne_zero count), ← Nat.add_assoc, Nat.add_right_comm]
      exact hx

end Replay

/-- Nothing has been replayed yet. -/
theorem between_new (connector : Connector) (outside : Outside) (p : Place) :
    (Uploader.new connector outside).Between outside.files p 0 (outside.files.node? p) :=
  ⟨.new connector outside, rfl, outside.files, .refl _, rfl,
    .nil, fun _ hs => absurd hs List.not_mem_nil, .refl _⟩

/-- When the process is gone, what was in the place is still there, and its path still leads there. -/
theorem Between.release (h : u.Between base p n node) :
    base.SameTree u.shutdown.lifecycle.release.files ∧
      u.shutdown.lifecycle.release.files.node? p = node := by
  obtain ⟨files, htree, hheld, hclear⟩ := h.store
  have hleft : files.Writes (· ≠ p) u.shutdown.lifecycle.release.files := hclear.shutdown.release
  exact ⟨htree.trans hleft.sameTree, (hleft.untouched fun hne => hne rfl).trans hheld⟩

end Target

end Uploader

end EventUpload
