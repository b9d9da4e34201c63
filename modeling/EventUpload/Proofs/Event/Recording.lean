import EventUpload.Event.Recording
import EventUpload.Proofs.Event.Frames
import EventUpload.Proofs.Json.Built

/-!
# Recordings read back

The JSON lines of events make a recording of these events, also when blank lines are put between them
(`read_interspersed`). A value is written without a line feed, so the lines of the file are those that
were written; the reader may take a carriage return off the end of a line, but a record ends with its
brace. `Interspersed` says what may stand around the lines.

No event is read that could not be written this way, real numbers apart, so a recording that was read
may be written again (`read_of_read`).

An event is read into a draft, field by field in whatever order they come, and is made of the draft when
all that has to be there is. `fills_draft` walks through the members that are written; that there is no
other order to be considered is because the writer is known. The mark of the last event is left out if
it is not set, and a draft without it stands for an event without it.

The payload of an event is a member of a record, so it may be nested one level less deep than a text of
its own (`maxPayloadDepth`). What was read meets this bound, since it was read under it (`read_builds`),
and need not have it as a hypothesis.
-/

set_option autoImplicit false

namespace EventUpload

/-! ## One event -/

theorem Json.Reads.bind {α β : Type} {reader : Json.Reader α} {v : Json} {a : α}
    (h : Json.Reads reader v a) {next : α × List Char → Except Json.Fault (β × List Char)} {b : β}
    (hnext : ∀ rest, next (a, rest) = .ok (b, rest)) :
    Json.Reads (fun cs => reader cs >>= next) v b := by
  intro rest hrest
  simp only [h rest hrest]
  exact hnext rest

namespace Event

/-- What is known of an event when it has been read; the mark is written only if it is there. -/
def draft (e : Event) : Draft :=
  ⟨some e.sequence, some e.time, some e.kind, some e.payload, if e.last then some true else none⟩

theorem event_draft (e : Event) : e.draft.event = e := by
  obtain ⟨sequence, time, kind, payload, last⟩ := e
  cases last <;> rfl

/-- The payload of an event may be nested less deep than a text of its own. -/
theorem fills_draft {e : Event} (h : e.Proper) (hreal : e.payload.realFree = true)
    (hdepth : e.payload.depth < maxPayloadDepth) :
    Json.Fills fields Draft.empty ([("sequence", .ofNat e.sequence), ("ts", .str e.time),
      ("type", .str e.kind), ("payload", e.payload)] ++
      if e.last then [("last_message", .bool true)] else []) e.draft := by
  have hpayload := Json.readValue_chars e.payload h.payload hreal hdepth
  refine .cons rfl rfl ((Json.reads_word h.word).bind fun _ => rfl) ?_
  refine .cons rfl rfl ((Json.reads_string e.time).bind fun _ => rfl) ?_
  refine .cons rfl rfl ((Json.reads_string e.kind).bind fun _ => rfl) ?_
  refine .cons rfl rfl (hpayload.bind fun _ => rfl) ?_
  rw [draft]
  cases e.last with
  | true => exact .cons rfl rfl ((Json.reads_bool true).bind fun _ => rfl) (.nil _)
  | false => exact .nil _

theorem reads_toJson {e : Event} (h : e.Proper) (hreal : e.payload.realFree = true)
    (hdepth : e.payload.depth < maxPayloadDepth) : Json.Reads read e.toJson e := by
  have hall : Json.firstMissing? fields e.draft = none := rfl
  exact ((fills_draft h hreal hdepth).readRecord hall "BuildEvent").bind fun rest =>
    congrArg (fun e => Except.ok (e, rest)) (event_draft e)

theorem ofText_toJson {e : Event} (h : e.Proper) (hreal : e.payload.realFree = true)
    (hdepth : e.payload.depth < maxPayloadDepth) : ofText e.toJson.compact = .ok e := by
  refine Json.readWhole_of_reads ?_
  have hread := reads_toJson h hreal hdepth [] rfl
  rw [List.append_nil] at hread
  rw [Json.compact, String.toList_ofList, hread]

/-- What is known of an event while it is being read is proper as far as it goes. -/
def Draft.Proper (d : Draft) : Prop :=
  (∀ n, d.sequence = some n → n < 2 ^ 64) ∧
    ∀ v, d.payload = some v → v.proper = true ∧ v.depth ≤ maxPayloadDepth - 1

theorem builds_draft {α : Type} {P : α → Prop} {reader : Json.Reader α} (h : Json.Builds reader P)
    (put : α → Draft) (hput : ∀ a, P a → (put a).Proper) :
    Json.Builds (fun cs => do let (a, rest) ← reader cs; return (put a, rest)) Draft.Proper := by
  intro cs d rest hread
  obtain ⟨⟨a, _⟩, ha, hread⟩ := Json.exists_of_bind hread
  cases hread
  exact hput a (h _ _ _ ha)

theorem fields_build : ∀ f ∈ fields, ∀ draft : Draft, draft.Proper →
    Json.Builds (f.read draft) Draft.Proper := by
  have anything {α : Type} (reader : Json.Reader α) : Json.Builds reader fun _ => True :=
    fun _ _ _ _ => trivial
  intro f hf d hd
  simp only [fields, List.mem_cons, List.not_mem_nil, or_false] at hf
  rcases hf with rfl | rfl | rfl | rfl | rfl
  · refine builds_draft Json.readWord64_builds (fun n => { d with sequence := some n }) ?_
    intro n hn
    refine ⟨?_, hd.2⟩
    rintro _ ⟨⟩
    exact hn
  · exact builds_draft (anything Json.readString) (fun s => { d with time := some s }) fun _ _ => hd
  · exact builds_draft (anything Json.readString) (fun s => { d with kind := some s }) fun _ _ => hd
  · refine builds_draft (Json.readValue_builds _) (fun v => { d with payload := some v }) ?_
    intro v hv
    refine ⟨hd.1, ?_⟩
    rintro _ ⟨⟩
    exact hv
  · exact builds_draft (anything Json.readBool) (fun b => { d with last := some b }) fun _ _ => hd

/-- Whatever event is read is proper, and its payload is nested as deep as a record admits. -/
theorem read_builds :
    Json.Builds read fun e => e.Proper ∧ e.payload.depth < maxPayloadDepth := by
  have hempty : Draft.empty.Proper := ⟨nofun, nofun⟩
  intro cs e rest h
  obtain ⟨⟨d, _⟩, hd, h⟩ := Json.exists_of_bind h
  cases h
  obtain ⟨hsequence, hpayload⟩ := Json.readRecord_builds fields_build hempty _ _ _ _ hd
  refine ⟨⟨?_, ?_⟩, ?_⟩
  · show d.sequence.getD 0 < 2 ^ 64
    cases hs : d.sequence with
    | none => decide
    | some n => exact hsequence n hs
  · show (d.payload.getD .null).proper = true
    cases hv : d.payload with
    | none => rfl
    | some v => exact (hpayload v hv).1
  · show (d.payload.getD .null).depth < maxPayloadDepth
    cases hv : d.payload with
    | none => decide
    | some v => exact Nat.lt_of_le_of_lt (hpayload v hv).2 (by decide)

end Event

/-! ## Lines -/

/-- The first line of a text, which a carriage return may have ended. -/
theorem lines_append_newline {line : List Char} (h : '\n' ∉ line) (rest : List Char) :
    ∃ first, Text.lines (line ++ '\n' :: rest) = first :: Text.lines rest ∧
      (line = first ∨ line = first ++ ['\r']) := by
  induction line with
  | nil => exact ⟨[], rfl, .inl rfl⟩
  | cons c line ih =>
    rw [List.mem_cons, not_or] at h
    obtain ⟨first, hlines, hfirst⟩ := ih h.2
    by_cases hreturn : c = '\r' ∧ line = []
    · obtain ⟨rfl, rfl⟩ := hreturn
      exact ⟨[], rfl, .inr rfl⟩
    · refine ⟨c :: first, ?_, ?_⟩
      · rw [List.cons_append, Text.lines.eq_4, hlines]
        · exact fun hc => h.1 hc.symm
        · intro rest' hc heq
          cases line with
          | nil => exact hreturn ⟨hc, rfl⟩
          | cons d line =>
            rw [List.cons_append, List.cons.injEq] at heq
            exact h.2 (heq.1 ▸ List.mem_cons_self)
      · rcases hfirst with rfl | rfl
        · exact .inl rfl
        · exact .inr rfl

theorem isBlank_of_mem_lines {cs : List Char} (h : Recording.isBlank cs = true) :
    ∀ line ∈ Text.lines cs, Recording.isBlank line = true := by
  fun_induction Text.lines cs with
  | case1 => simp
  | case2 rest ih =>
    simp only [Recording.isBlank, List.all_cons, Bool.and_eq_true] at h
    exact List.forall_mem_cons.mpr ⟨rfl, ih h.2⟩
  | case3 rest ih =>
    simp only [Recording.isBlank, List.all_cons, Bool.and_eq_true] at h
    exact List.forall_mem_cons.mpr ⟨rfl, ih h.2.2⟩
  | case4 c rest hc hr hlines ih =>
    simp only [Recording.isBlank, List.all_cons, Bool.and_eq_true] at h
    simpa [Recording.isBlank] using h.1
  | case5 c rest hc hr line more hlines ih =>
    simp only [Recording.isBlank, List.all_cons, Bool.and_eq_true] at h
    have hmore := ih h.2
    rw [hlines, List.forall_mem_cons] at hmore
    refine List.forall_mem_cons.mpr ⟨?_, hmore.2⟩
    rw [Recording.isBlank, List.all_cons, h.1]
    exact hmore.1

namespace Recording

theorem ofLines_of_isBlank {lines : List (List Char)} (h : ∀ line ∈ lines, isBlank line = true)
    (number : Nat) : ofLines number lines = .ok [] := by
  induction lines generalizing number with
  | nil => rfl
  | cons line lines ih =>
    rw [ofLines, if_pos (h line (by simp)), ih fun l hl => h l (List.mem_cons_of_mem _ hl)]

/-! ## Files of lines -/

/-- Lines of a file with blank lines between them and around them; what is blank at the end need not
be a whole line. -/
inductive Interspersed : List (List UInt8) → List UInt8 → Prop where
  | done (rest : List Char) (hblank : isBlank rest = true) : Interspersed [] (Utf8.bytesOf rest)
  | blank {lines : List (List UInt8)} {bytes : List UInt8} {line : List Char}
    (hblank : isBlank line = true) (hline : '\n' ∉ line) (h : Interspersed lines bytes) :
    Interspersed lines (Utf8.bytesOf (line ++ ['\n']) ++ bytes)
  | line {lines : List (List UInt8)} {bytes : List UInt8} (line : List UInt8)
    (h : Interspersed lines bytes) : Interspersed (line :: lines) (line ++ bytes)

theorem interspersed_flatten (lines : List (List UInt8)) : Interspersed lines lines.flatten := by
  induction lines with
  | nil => exact .done [] rfl
  | cons line lines ih => exact .line line ih

/-- A record is a line of its file, whole: it has no line feed inside, and no carriage return at
its end. -/
theorem lines_toJson (e : Event) (rest : List Char) :
    Text.lines (Json.chars e.toJson ++ '\n' :: rest) = Json.chars e.toJson :: Text.lines rest := by
  obtain ⟨first, hlines, heq | heq⟩ :=
    lines_append_newline (Json.newline_notMem_chars e.toJson) rest
  · rw [hlines, ← heq]
  · have hlast := congrArg List.getLast? heq
    rw [List.getLast?_concat, Event.toJson, Json.chars, ← List.cons_append,
      List.getLast?_concat] at hlast
    exact absurd hlast (by decide)

theorem ofLines_toJson {e : Event} (h : e.Proper) (hreal : e.payload.realFree = true)
    (hdepth : e.payload.depth < Event.maxPayloadDepth) (lines : List (List Char)) (number : Nat) :
    ofLines number (Json.chars e.toJson :: lines) = (e :: ·) <$> ofLines (number + 1) lines := by
  have hblank : ¬isBlank (Json.chars e.toJson) = true := Bool.false_ne_true
  have htext : Event.ofText (String.ofList (Json.chars e.toJson)) = .ok e :=
    Event.ofText_toJson h hreal hdepth
  rw [ofLines, if_neg hblank]
  simp only [htext]
  cases ofLines (number + 1) lines <;> rfl

/-- The events of a file of lines are those that the lines were made of. -/
theorem Interspersed.exists_text {events : List Event} (hproper : ∀ e ∈ events, e.Proper)
    (hreal : ∀ e ∈ events, e.payload.realFree = true)
    (hdepth : ∀ e ∈ events, e.payload.depth < Event.maxPayloadDepth) {bytes : List UInt8}
    (h : Interspersed (events.map fun e => Utf8.encode (Encoding.jsonLine e)) bytes) :
    ∃ cs, bytes = Utf8.bytesOf cs ∧ ∀ number, ofLines number (Text.lines cs) = .ok events := by
  generalize hlines : events.map (fun e => Utf8.encode (Encoding.jsonLine e)) = lines at h
  induction h generalizing events with
  | done rest hblank =>
    obtain rfl := List.map_eq_nil_iff.mp hlines
    exact ⟨rest, rfl, ofLines_of_isBlank (isBlank_of_mem_lines hblank)⟩
  | @blank lines bytes line hblank hline _ ih =>
    obtain ⟨cs, rfl, hcs⟩ := ih hproper hreal hdepth hlines
    refine ⟨line ++ '\n' :: cs, by simp, fun number => ?_⟩
    obtain ⟨first, heq, hfirst⟩ := lines_append_newline hline cs
    have hempty : isBlank first = true := by
      rcases hfirst with rfl | rfl
      · exact hblank
      · rw [isBlank, List.all_append, Bool.and_eq_true] at hblank
        exact hblank.1
    rw [heq, ofLines, if_pos hempty, hcs]
  | line line _ ih =>
    obtain ⟨e, events, rfl, rfl, hmore⟩ := List.map_eq_cons_iff.mp hlines
    obtain ⟨cs, rfl, hcs⟩ := ih (fun f hf => hproper f (List.mem_cons_of_mem _ hf))
      (fun f hf => hreal f (List.mem_cons_of_mem _ hf))
      (fun f hf => hdepth f (List.mem_cons_of_mem _ hf)) hmore
    refine ⟨Json.chars e.toJson ++ '\n' :: cs, ?_, fun number => ?_⟩
    · simp [Utf8.encode_eq, Encoding.jsonLine, Json.compact]
    · rw [lines_toJson, ofLines_toJson (hproper e (by simp)) (hreal e (by simp))
        (hdepth e (by simp)), hcs]
      rfl

/-- The bytes of a line: those of the record, and a line feed, which is nowhere in the record. -/
theorem encode_jsonLine (e : Event) :
    Utf8.encode (Encoding.jsonLine e) = Utf8.bytesOf (Json.chars e.toJson) ++ [10] := by
  rw [Encoding.jsonLine, Json.compact, Utf8.encode_eq, String.toList_append, String.toList_ofList,
    Utf8.bytesOf_append]
  rfl

theorem newline_notMem_toJson (e : Event) : 10 ∉ Utf8.bytesOf (Json.chars e.toJson) := fun hmem =>
  Json.newline_notMem_chars e.toJson (Utf8.newline_mem_of_mem_bytesOf hmem)

theorem mapM_encode_json (events : List Event) : events.mapM Encoding.json.encode =
    .ok (events.map fun e => Utf8.encode (Encoding.jsonLine e)) := by
  induction events with
  | nil => rfl
  | cons e events ih => rw [List.mapM_cons, ih]; rfl

/-- A file of lines is a recording of the events that the lines were made of. -/
theorem Interspersed.read_eq {events : List Event} (hproper : ∀ e ∈ events, e.Proper)
    (hreal : ∀ e ∈ events, e.payload.realFree = true)
    (hdepth : ∀ e ∈ events, e.payload.depth < Event.maxPayloadDepth) {bytes : List UInt8}
    (h : Interspersed (events.map fun e => Utf8.encode (Encoding.jsonLine e)) bytes)
    {files : FileStore} {path : String} (hread : files.read path = .ok bytes) :
    read files path = .ok events := by
  obtain ⟨cs, rfl, hcs⟩ := h.exists_text hproper hreal hdepth
  have htext := Utf8.decode_encode (String.ofList cs)
  rw [Utf8.encode_eq, String.toList_ofList] at htext
  have hevents : ofText (String.ofList cs) = .ok events := by
    rw [ofText, String.toList_ofList, hcs]
  simp only [read, hread, htext, hevents]

/-- **JSON lines are read back.** Events are written as one line each, and a file of these lines,
with blank lines put between them or not, is a recording of just these events. -/
theorem read_interspersed (events : List Event) (hproper : ∀ e ∈ events, e.Proper)
    (hreal : ∀ e ∈ events, e.payload.realFree = true)
    (hdepth : ∀ e ∈ events, e.payload.depth ≤ 126) :
    ∃ lines, events.mapM Encoding.json.encode = .ok lines ∧
      (∀ line ∈ lines, ∃ text, line = text ++ [10] ∧ 10 ∉ text) ∧
      Interspersed lines lines.flatten ∧
      ∀ bytes, Interspersed lines bytes → ∀ files path, files.read path = .ok bytes →
        read files path = .ok events := by
  refine ⟨_, mapM_encode_json events, ?_, interspersed_flatten _, ?_⟩
  · rw [List.forall_mem_map]
    exact fun e he => ⟨_, encode_jsonLine e, newline_notMem_toJson e⟩
  · exact fun bytes hbytes files path hread =>
      hbytes.read_eq hproper hreal (fun e he => Nat.lt_succ_of_le (hdepth e he)) hread

/-- Two events behind a line of blanks, with an empty line between them and a blank at the end. -/
theorem read_interspersed_two :
    let first : Event := ⟨1, "now", "progress", .obj [("text", .str "a\n\"b\"\x01é")], false⟩
    let second : Event := ⟨2 ^ 64 - 1, "then", "finished", .arr [.num (.whole (-7)), .null], true⟩
    let bytes := Utf8.bytesOf ([' ', '\t', '\r'] ++ ['\n']) ++
      (Utf8.encode (Encoding.jsonLine first) ++ (Utf8.bytesOf ([] ++ ['\n']) ++
        (Utf8.encode (Encoding.jsonLine second) ++ Utf8.bytesOf [' '])))
    read (FileStore.fresh.put ["events", "here", "work"] (.file bytes)) "events" =
      .ok [first, second] := by
  intro first second bytes
  have hproper : ∀ e ∈ [first, second], e.Proper := by
    simp only [first, second, List.forall_mem_cons, List.not_mem_nil, false_imp_iff, implies_true,
      and_true]
    exact ⟨⟨by decide, by decide⟩, ⟨by decide, by decide⟩⟩
  obtain ⟨lines, hlines, -, -, hread⟩ :=
    read_interspersed [first, second] hproper (by decide) (by decide)
  rw [mapM_encode_json, Except.ok.injEq] at hlines
  subst hlines
  have hfile : Interspersed ([first, second].map fun e => Utf8.encode (Encoding.jsonLine e)) bytes :=
    .blank rfl (by decide) (.line _ (.blank rfl (by decide) (.line _ (.done _ rfl))))
  exact hread bytes hfile _ _ rfl

/-! ## Recordings written again -/

/-- What was read is proper, and its payload is nested as deep as a record admits. -/
theorem mem_ofLines {lines : List (List Char)} {number : Nat} {events : List Event}
    (h : ofLines number lines = .ok events) :
    ∀ e ∈ events, e.Proper ∧ e.payload.depth < Event.maxPayloadDepth := by
  induction lines generalizing number events with
  | nil =>
    cases h
    simp
  | cons line lines ih =>
    unfold ofLines at h
    split at h
    · exact ih h
    · dsimp only at h
      split at h
      · cases h
      · next e he =>
        obtain ⟨more, hmore, h⟩ := Json.exists_of_bind h
        cases h
        exact List.forall_mem_cons.mpr ⟨Json.readWhole_builds Event.read_builds he, ih hmore⟩

/-- **A recording may be written again.** The lines of the events that were read from a file make a
recording of the same events. -/
theorem read_of_read {files files' : FileStore} {path path' : String} {events : List Event}
    (h : read files path = .ok events) (hreal : ∀ e ∈ events, e.payload.realFree = true)
    (hread : files'.read path' = .ok (events.flatMap fun e => Utf8.encode (Encoding.jsonLine e))) :
    read files' path' = .ok events := by
  have hevents : ∀ e ∈ events, e.Proper ∧ e.payload.depth < Event.maxPayloadDepth := by
    unfold read at h
    split at h
    · cases h
    · split at h
      · cases h
      · exact mem_ofLines h
  rw [List.flatMap_def] at hread
  exact (interspersed_flatten _).read_eq (fun e he => (hevents e he).1) hreal
    (fun e he => (hevents e he).2) hread

end Recording

end EventUpload
