import Mathlib.Data.Nat.Digits.Defs
import EventUpload.CommandLine.Run
import EventUpload.Proofs.Command.Feeding

/-!
# Replays

What a replay leaves in its JSON file is a recording again (`ReplayRequest.reads_back`): the events of
the recording that was replayed, up to the first that is the last, or all of them and one that is; they
are numbered from one, and among them is the output that was captured in front of them. It does not
matter how often they are replayed.

The events were read from a recording, so they are such as can be written and read again; the ones that
the replay adds are known and are so too (`Event.Readable`). Numbers are given anew and have to be
words. That is where the bound on the length of the list comes from: captured output adds at most one
event for each character of the line in front (`Listener.length_of_fed`), and these are few.

A request changes the options before it is performed, and asking again changes nothing
(`applyTo_applyTo`). The hypotheses of the theorem are about the options that the request makes of those
at hand, as it is these that name the file and the mode.
-/

set_option autoImplicit false

namespace EventUpload

/-! ## What is filed can be read

Events of captured output and the one that ends a replay are as readable as those that were recorded. -/

/-- An event that can be read back, once it has a number that is a word. -/
structure Event.Readable (e : Event) : Prop where
  proper : e.payload.proper = true
  realFree : e.payload.realFree = true
  depth : e.payload.depth < Event.maxPayloadDepth

/-- An object of given members has no others, and they are in order. -/
theorem Json.exists_ofMembers (members : List (String × Json)) :
    ∃ sorted, ofMembers members = .obj sorted ∧ Sorted sorted ∧ ∀ m ∈ sorted, m ∈ members := by
  have hfold (members : List (String × Json)) : ∀ put : List (String × Json), Sorted put →
      Sorted (members.foldl (fun acc m => insertMember m.1 m.2 acc) put) ∧
        ∀ m ∈ members.foldl (fun acc m => insertMember m.1 m.2 acc) put, m ∈ put ∨ m ∈ members := by
    induction members with
    | nil => exact fun put hput => ⟨hput, fun m hm => .inl hm⟩
    | cons n members ih =>
      intro put hput
      obtain ⟨hsorted, hmem⟩ := ih _ (sorted_insertMember hput n.1 n.2)
      refine ⟨hsorted, fun m hm => ?_⟩
      rcases hmem m hm with hm | hm
      · rcases mem_insertMember hm with rfl | hm
        · exact .inr List.mem_cons_self
        · exact .inl hm
      · exact .inr (List.mem_cons_of_mem n hm)
  obtain ⟨hsorted, hmem⟩ := hfold members [] .nil
  exact ⟨_, rfl, hsorted, fun m hm => (hmem m hm).resolve_left List.not_mem_nil⟩

theorem Event.readable_of_members {e : Event} {members : List (String × Json)}
    (hpayload : e.payload = .ofMembers members)
    (h : ∀ m ∈ members, m.2.proper = true ∧ m.2.realFree = true ∧ m.2.depth = 0) : e.Readable := by
  obtain ⟨sorted, heq, hsorted, hmem⟩ := Json.exists_ofMembers members
  rw [heq] at hpayload
  constructor
  · rw [hpayload, Json.proper, Json.properMembers_eq, Bool.and_eq_true, decide_eq_true_eq,
      List.all_eq_true]
    exact ⟨hsorted, fun m hm => (h m (hmem m hm)).1⟩
  · rw [hpayload, Json.realFree, Json.realFreeMembers_eq, List.all_eq_true]
    exact fun m hm => (h m (hmem m hm)).2.1
  · rw [hpayload, Json.depth]
    have hdepth := Json.depthMembers_le fun m hm => Nat.le_of_eq (h m (hmem m hm)).2.2
    exact Nat.lt_of_le_of_lt (Nat.succ_le_succ hdepth) (by decide)

theorem Stream.readable_outputEvent (pair : String × String) : (outputEvent pair).Readable := by
  refine Event.readable_of_members rfl fun m hm => ?_
  rcases List.mem_cons.mp hm with rfl | hm
  · exact ⟨rfl, rfl, rfl⟩
  · obtain rfl := List.mem_singleton.mp hm
    exact ⟨rfl, rfl, rfl⟩

theorem Uploader.readable_replayEnd {count : Nat} (h : count < 2 ^ 63) : (replayEnd count).Readable := by
  have hword : (Json.ofNat count).proper = true := by
    rw [Json.ofNat, Json.proper, decide_eq_true_eq]
    omega
  refine Event.readable_of_members rfl fun m hm => ?_
  rcases List.mem_cons.mp hm with rfl | hm
  · exact ⟨rfl, rfl, rfl⟩
  · obtain rfl := List.mem_singleton.mp hm
    exact ⟨hword, rfl, rfl⟩

theorem Recording.readable_of_read {files : FileStore} {path : String} {events : List Event}
    (h : read files path = .ok events) (hreal : ∀ e ∈ events, e.payload.realFree = true) :
    ∀ e ∈ events, e.Readable := by
  have hevents : ∀ e ∈ events, e.Proper ∧ e.payload.depth < Event.maxPayloadDepth := by
    unfold read at h
    split at h
    · cases h
    · split at h
      · cases h
      · exact mem_ofLines h
  exact fun e he => ⟨(hevents e he).1.payload, hreal e he, (hevents e he).2⟩

theorem mem_numberedFrom {e : Event} {n : Nat} {events : List Event} (h : e ∈ numberedFrom n events) :
    ∃ f ∈ events, ∃ k < n + events.length, e = f.numbered k := by
  induction events generalizing n with
  | nil => exact absurd h List.not_mem_nil
  | cons f events ih =>
    rcases List.mem_cons.mp h with rfl | h
    · exact ⟨f, List.mem_cons_self, n, Nat.lt_add_of_pos_right (Nat.succ_pos _), rfl⟩
    · obtain ⟨g, hg, k, hk, rfl⟩ := ih h
      refine ⟨g, List.mem_cons_of_mem _ hg, k, ?_, rfl⟩
      rw [List.length_cons]
      omega

/-- The lines of numbered events are a recording of these, as long as the numbers are words. -/
theorem Recording.read_numbered {events : List Event} (h : ∀ e ∈ events, e.Readable)
    (hlength : events.length + 1 < 2 ^ 64) {files : FileStore} {path : String}
    (hread : files.read path = .ok ((numberedFrom 1 events).map fun e =>
      Utf8.encode (Encoding.jsonLine e)).flatten) :
    read files path = .ok (numberedFrom 1 events) := by
  refine (interspersed_flatten _).read_eq (fun e he => ?_) (fun e he => ?_) (fun e he => ?_) hread
  · obtain ⟨f, hf, k, hk, rfl⟩ := mem_numberedFrom he
    exact ⟨by show k < 2 ^ 64; omega, (h f hf).proper⟩
  · obtain ⟨f, hf, k, -, rfl⟩ := mem_numberedFrom he
    exact (h f hf).realFree
  · obtain ⟨f, hf, k, -, rfl⟩ := mem_numberedFrom he
    exact (h f hf).depth

/-! ## How much is filed -/

theorem length_le_join (texts : List String) (h : ∀ text ∈ texts, text ≠ "") :
    texts.length ≤ (String.join texts).length := by
  induction texts with
  | nil => simp
  | cons text texts ih =>
    have hrest := ih fun t ht => h t (List.mem_cons_of_mem _ ht)
    have hpos : 0 < text.length := by
      rcases Nat.eq_zero_or_pos text.length with hzero | hpos
      · exact absurd (String.length_eq_zero_iff.mp hzero) (h text List.mem_cons_self)
      · exact hpos
    rw [String.join_cons, String.length_append, List.length_cons]
    omega

theorem Uploader.length_replayBanner {count : Nat} (h : count < 2 ^ 63) :
    (String.join (replayBanner count)).length ≤ 60 := by
  have hdigits : (toString count).length ≤ 19 := Nat.repr_length count 19 (by decide) (by omega)
  simp only [replayBanner, String.join_cons, String.join_nil, String.length_append]
  have hfront : "Replaying ".length = 10 := by decide
  have hback : " recorded build events\n".length = 23 := by decide
  have hnil : "".length = 0 := by decide
  omega

theorem Listener.length_of_fed (buffer chunk : Nat) (pieces : List String) :
    let l := Listener.empty buffer chunk
    (l.early pieces).length + (l.late pieces).length ≤ (String.join pieces).length := by
  intro l
  obtain ⟨hpairs, hjoin⟩ := Listener.texts_of_fed buffer chunk pieces
  have hle := length_le_join ((l.early pieces ++ l.late pieces).map Prod.snd)
    fun text htext => by
      obtain ⟨pair, hpair, rfl⟩ := List.mem_map.mp htext
      exact (hpairs pair hpair).2
  rwa [List.length_map, List.length_append, hjoin] at hle

/-- What is filed of a recording can be read back. -/
theorem Uploader.read_replayed {options : UploadOptions} {events : List Event}
    (h : ∀ e ∈ events, e.Readable) (hcount : events.length < 2 ^ 63) {files : FileStore} {path : String}
    (hread : files.read path = .ok (replayedBytes options events)) :
    Recording.read files path = .ok (replayedEvents options events) := by
  refine Recording.read_numbered (fun e he => ?_) ?_ hread
  · unfold Listener.fed at he
    rcases List.mem_append.mp he with he | he
    · obtain ⟨pair, -, rfl⟩ := List.mem_map.mp he
      exact Stream.readable_outputEvent pair
    rcases List.mem_append.mp he with he | he
    · exact h e ((List.takeWhile_prefix _).subset he)
    rcases List.mem_append.mp he with he | he
    · obtain ⟨pair, -, rfl⟩ := List.mem_map.mp he
      exact Stream.readable_outputEvent pair
    · obtain rfl := List.mem_singleton.mp he
      cases hlast : events.find? (·.last) with
      | none => exact readable_replayEnd hcount
      | some e => exact h e (List.mem_of_find?_eq_some hlast)
  · have htexts := Listener.length_of_fed options.outputBuffer options.outputChunk
      (replayBanner events.length)
    have hbanner := length_replayBanner hcount
    have hkept := (List.takeWhile_sublist (fun e : Event => !e.last) (l := events)).length_le
    simp only [Listener.fed, List.length_append, List.length_map, List.length_singleton]
    dsimp only at htexts
    omega

/-! ## A replay

The same recording may be replayed as several commands in a row. Each of them empties the file, so what
is left is what one of them makes. -/

/-- The events in front of the first that is the last, and that one; or all of them, and another one. -/
theorem upTo_last (events : List Event) (other : Event) (hother : other.last = true) :
    let kept := events.takeWhile fun e => !e.last
    let final := (events.find? (·.last)).getD other
    (∀ e ∈ kept, e.last = false) ∧ final.last = true ∧
      ((∃ e ∈ events, e.last = true) → kept ++ [final] <+: events) ∧
      ((∀ e ∈ events, e.last = false) → kept = events ∧ final = other) := by
  induction events with
  | nil => exact ⟨nofun, hother, fun h => absurd h (by simp), fun _ => ⟨rfl, rfl⟩⟩
  | cons e events ih =>
    cases he : e.last with
    | true =>
      rw [List.takeWhile_cons_of_neg (by simp [he]), List.find?_cons_of_pos he]
      refine ⟨nofun, he, fun _ => ⟨events, rfl⟩, fun hall => ?_⟩
      exact absurd (he.symm.trans (hall e List.mem_cons_self)) (by simp)
    | false =>
      obtain ⟨hkept, hfinal, hupTo, hall⟩ := ih
      rw [List.takeWhile_cons_of_pos (by simp [he]), List.find?_cons_of_neg (by simp [he])]
      refine ⟨List.forall_mem_cons.mpr ⟨he, hkept⟩, hfinal, fun ⟨f, hf, hlast⟩ => ?_, fun hnone => ?_⟩
      · rcases List.mem_cons.mp hf with rfl | hf
        · exact absurd (he.symm.trans hlast) (by simp)
        · exact List.prefix_cons_inj e |>.mpr (hupTo ⟨f, hf, hlast⟩)
      · obtain ⟨hsame, hother⟩ := hall fun f hf => hnone f (List.mem_cons_of_mem e hf)
        exact ⟨congrArg (e :: ·) hsame, hother⟩

namespace ReplayRequest

/-- The command of a request is allowed in any case. -/
theorem allows_applyTo (r : ReplayRequest) (o : UploadOptions) :
    (r.applyTo o).allows r.command = true := by
  show List.contains (if o.allows r.command = true then o.allowedCommands
    else o.allowedCommands ++ [r.command]) r.command = true
  split
  · next h => exact h
  · simp

/-- The backend is asked for once. -/
theorem backendFrom_backendFrom (r : ReplayRequest) (b : Option BackendOptions) :
    r.backendFrom (r.backendFrom b) = r.backendFrom b := by
  unfold backendFrom
  cases r.backend <;> cases r.backendBound <;> cases b <;> rfl

/-- **Asking again changes nothing**: what a request asks for does not depend on what has been asked for. -/
theorem applyTo_applyTo (r : ReplayRequest) (o : UploadOptions) :
    r.applyTo (r.applyTo o) = r.applyTo o := by
  have hfile (asked : Option FileOptions) (file : Option FileOptions) :
      asked.or (asked.or file) = asked.or file := by
    cases asked <;> rfl
  have hmode : r.mode.getD (r.mode.getD o.mode) = r.mode.getD o.mode := by
    cases r.mode <;> rfl
  have hkeep : (r.keepConnections || (r.keepConnections || o.keepConnections)) =
      (r.keepConnections || o.keepConnections) := by
    cases r.keepConnections <;> rfl
  have hcommands : (if (r.applyTo o).allows r.command then (r.applyTo o).allowedCommands
      else (r.applyTo o).allowedCommands ++ [r.command]) = (r.applyTo o).allowedCommands :=
    if_pos (r.allows_applyTo o)
  rw [applyTo, hcommands]
  simp only [applyTo, hfile, backendFrom_backendFrom, hmode, hkeep]

section Replay

variable (r : ReplayRequest) (options : UploadOptions) (s : Surroundings) {events : List Event}
  {file : FileOptions} {files : FileStore} {p : Place}

/-- What is in the JSON file of a replay in the end, however often it replays. -/
theorem perform_files (hread : Recording.read s.files r.events = .ok events)
    (hcheck : (r.applyTo options).check = .ok ()) (hmode : (r.applyTo options).mode = .blocking)
    (hcap : 0 < (r.applyTo options).limits.blocking)
    (hjson : (r.applyTo options).jsonFile = some file)
    (hcreate : s.files.create file.path = .ok (files, p)) (hfile : files.node? p = some (.file []))
    (halone : ∀ e g, e ≠ .json → (r.applyTo options).file? e = some g →
      s.files.resolve g.path ≠ .ok p) :
    (∃ showing, (r.perform options s).2.2 = .ok showing) ∧
      (r.perform options s).1.read file.path =
        .ok (Uploader.replayedBytes (r.applyTo options) events) := by
  obtain ⟨hresolve, hdevice | ⟨hname, hfileable, -⟩⟩ := FileStore.create_cases hcreate
  · obtain ⟨rfl, takes, hdevice⟩ := hdevice
    exact absurd (hdevice.symm.trans hfile) (by simp)
  let outside : Outside := { Outside.fresh with files := s.files, web := s.web }
  obtain ⟨v, summaries, hreplayed, hbetween⟩ := Uploader.replayCommands_files
    ⟨hjson, hresolve, hname, halone⟩ hcheck hmode hcap (r.allows_applyTo options)
    (Uploader.between_new .web outside p) hfileable events s.ids 1 (max r.invocations 1)
  rw [if_neg (by omega)] at hbetween
  obtain ⟨htree, hheld⟩ := hbetween.release
  have hreplay : (Uploader.new .web outside).replay r options s.ids events =
      (v.shutdown, .ok summaries) := by
    unfold Uploader.replay
    rw [hreplayed]
  have hperform : r.perform options s = (v.shutdown.lifecycle.release.files,
      v.shutdown.lifecycle.log.map Posted.post,
      .ok (Summary.render (.ofText r.form) summaries, Summary.exitCode? summaries)) := by
    unfold ReplayRequest.perform
    rw [hread]
    dsimp only
    rw [hreplay]
  rw [hperform]
  refine ⟨⟨_, rfl⟩, ?_⟩
  show FileStore.read _ _ = _
  unfold FileStore.read
  simp only [htree.resolve hresolve, hheld, hname, bind, Except.bind, Bool.false_eq_true, if_false]

/-- **A replay leaves a recording.** Events are read from a file, and replayed in blocking mode, with some
time to wait, into a JSON file that can be created in a place to which no other of the files of the options
leads. That succeeds, and what is in the file in the end is a recording again. Its events are numbered from
one. Pieces of captured output apart, they are those that were replayed, up to the first that is the last;
if none of them is, one that says so comes behind them all. Captured output comes in front of the last event,
and put together it says how many events were replayed. The number of times that they are replayed makes no
difference.

Real numbers in payloads are left out, since they may not be read back as they were; a list has fewer than
`2 ^ 63` entries. -/
theorem reads_back (hread : Recording.read s.files r.events = .ok events)
    (hreal : ∀ e ∈ events, e.payload.realFree = true) (hcount : events.length < 2 ^ 63)
    (hcheck : (r.applyTo options).check = .ok ()) (hmode : (r.applyTo options).mode = .blocking)
    (hcap : 0 < (r.applyTo options).limits.blocking)
    (hjson : (r.applyTo options).jsonFile = some file)
    (hcreate : s.files.create file.path = .ok (files, p)) (hfile : files.node? p = some (.file []))
    (halone : ∀ e g, e ≠ .json → (r.applyTo options).file? e = some g →
      s.files.resolve g.path ≠ .ok p) :
    (∃ showing, (r.perform options s).2.2 = .ok showing) ∧
    (∃ (replayed : List Event) (early : List (String × String)) (kept : List Event)
        (late : List (String × String)) (final : Event),
      Recording.read (r.perform options s).1 file.path = .ok replayed ∧
      replayed = numberedFrom 1
        (early.map Stream.outputEvent ++ (kept ++ (late.map Stream.outputEvent ++ [final]))) ∧
      replayed.map (·.sequence) = List.range' 1 replayed.length ∧
      (∀ e ∈ kept, e.last = false) ∧ final.last = true ∧
      ((∃ e ∈ events, e.last = true) → kept ++ [final] <+: events) ∧
      ((∀ e ∈ events, e.last = false) → kept = events ∧ final = Uploader.replayEnd events.length) ∧
      (∀ pair ∈ early ++ late, pair.1 = "" ∧ pair.2 ≠ "") ∧
      String.join ((early ++ late).map Prod.snd) =
        "Replaying " ++ toString events.length ++ " recorded build events\n") ∧
    ∀ count, (({ r with invocations := count } : ReplayRequest).perform options s).1.read file.path =
      (r.perform options s).1.read file.path := by
  have hperform (count : Nat) := perform_files { r with invocations := count } options s hread hcheck hmode
    hcap hjson hcreate hfile halone
  obtain ⟨hshown, hbytes⟩ := perform_files r options s hread hcheck hmode hcap hjson hcreate hfile halone
  have hreplayed := Uploader.read_replayed (Recording.readable_of_read hread hreal) hcount hbytes
  obtain ⟨hpairs, hjoin⟩ := Listener.texts_of_fed (r.applyTo options).outputBuffer
    (r.applyTo options).outputChunk (Uploader.replayBanner events.length)
  obtain ⟨hkept, hfinal, hupTo, hall⟩ := upTo_last events (Uploader.replayEnd events.length) rfl
  refine ⟨hshown, ⟨_, _, _, _, _, hreplayed, rfl, ?_, hkept, hfinal, hupTo, hall, hpairs, ?_⟩,
    fun count => (hperform count).2.trans hbytes.symm⟩
  · rw [Uploader.replayedEvents, sequence_numberedFrom, length_numberedFrom]
  · simpa [Uploader.replayBanner, String.join_cons, String.append_assoc] using hjoin

end Replay

/-- An event that ends its stream, and another one behind it, with numbers of their own. -/
def overdue : List Event :=
  [⟨7, "now", "finished", .obj [("text", .str "a\n")], true⟩, ⟨3, "then", "progress", .null, false⟩]

/-- A recording of events in the working directory, and nothing else. -/
def surroundingsOf (events : List Event) : Surroundings where
  environment := []
  files := FileStore.fresh.put ["events", "here", "work"]
    (.file (events.map fun e => Utf8.encode (Encoding.jsonLine e)).flatten)
  web := .none
  ids := .ofProcess "0" "1"
  time := "now"

/-- To replay a recording twice into a file beside it. -/
def twice : ReplayRequest :=
  { standard with events := "events", jsonFile := some "out", invocations := 2 }

/-- The event behind the last one is not replayed. -/
theorem reads_back_twice :
    Recording.read (surroundingsOf overdue).files twice.events = .ok overdue ∧
    ∃ early late : List (String × String),
      Recording.read (twice.perform .standard (surroundingsOf overdue)).1 "out" =
        .ok (numberedFrom 1 (early.map Stream.outputEvent ++ (late.map Stream.outputEvent ++
          overdue.take 1))) ∧
      String.join ((early ++ late).map Prod.snd) = "Replaying 2 recorded build events\n" := by
  have hproper : ∀ e ∈ overdue, e.Proper := by
    simp only [overdue, List.forall_mem_cons, List.not_mem_nil, false_imp_iff, implies_true, and_true]
    exact ⟨⟨by decide, by decide⟩, ⟨by decide, by decide⟩⟩
  have hread : Recording.read (surroundingsOf overdue).files twice.events = .ok overdue :=
    (Recording.interspersed_flatten _).read_eq hproper (by decide) (by decide) rfl
  obtain ⟨files, hcreate, hfile⟩ : ∃ files,
      (surroundingsOf overdue).files.create "out" = .ok (files, ["out", "here", "work"]) ∧
        files.node? ["out", "here", "work"] = some (.file []) := ⟨_, rfl, rfl⟩
  have halone : ∀ e g, e ≠ .json → (twice.applyTo .standard).file? e = some g →
      (surroundingsOf overdue).files.resolve g.path ≠ .ok ["out", "here", "work"] := by
    intro e g he hg
    have hnone : (twice.applyTo .standard).file? e = none := by
      cases e with
      | json => exact absurd rfl he
      | text => rfl
      | binary => rfl
    exact absurd (hnone.symm.trans hg) (by simp)
  obtain ⟨-, ⟨replayed, early, kept, late, final, hreplayed, rfl, -, hkept, -, hupTo, -, -, hjoin⟩, -⟩ :=
    reads_back twice .standard (surroundingsOf overdue) hread (by decide) (by decide) rfl rfl (by decide)
      (show _ = some (.at "out") from rfl) hcreate hfile halone
  obtain ⟨rest, hrest⟩ := hupTo ⟨_, List.mem_cons_self, rfl⟩
  cases kept with
  | nil =>
    obtain ⟨hfinal, -⟩ := List.cons_eq_cons.mp hrest
    rw [hfinal] at hreplayed
    exact ⟨hread, early, late, hreplayed, hjoin⟩
  | cons e kept =>
    obtain ⟨he, -⟩ := List.cons_eq_cons.mp hrest
    have hlast := hkept e List.mem_cons_self
    rw [he] at hlast
    exact absurd hlast (by simp)

end ReplayRequest

end EventUpload
