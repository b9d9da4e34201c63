import EventUpload.Event.Frame
import EventUpload.Proofs.Json.RoundTrip
import EventUpload.Proofs.Text.Utf8

/-!
# Frames read back

A file of binary frames is split into the records that were written (`decodeFrames_encodings`). Nothing
stands between two frames, so every part of one is read back together with whatever follows it: a
number, a text, the mark of the last event, and then a whole frame. Only the record itself is read from
bytes that end with it, as its frame says where they do.

The sizes of numbers are hypotheses because records come from anywhere: the length of a frame has four
bytes, and an event whose record needs more has no frame at all. `Event.Proper` asks for the number of
an event to be a word, which it is in a program, and says nothing about its texts; any text has bytes.

A frame holds its payload as a text. That this text can be read again is a matter of `Json/RoundTrip`,
and is stated for payloads without real numbers.
-/

set_option autoImplicit false

namespace EventUpload

/-! ## Numbers and texts -/

@[simp] theorem length_littleEndian (width n : Nat) : (littleEndian width n).length = width := by
  induction width generalizing n with
  | zero => rfl
  | succ width ih => rw [littleEndian, List.length_cons, ih]

theorem ofLittleEndian_littleEndian {width n : Nat} (h : n < 256 ^ width) :
    ofLittleEndian (littleEndian width n) = n := by
  induction width generalizing n with
  | zero =>
    rw [Nat.pow_zero, Nat.lt_one_iff] at h
    rw [h, littleEndian, ofLittleEndian]
  | succ width ih =>
    have hnext : n / 256 < 256 ^ width := Nat.div_lt_of_lt_mul (by rwa [← Nat.pow_succ'])
    rw [littleEndian, ofLittleEndian, ih hnext, UInt8.toNat_ofNat']
    omega

theorem takeNumber_littleEndian {width n : Nat} (h : n < 256 ^ width) (rest : List UInt8) :
    takeNumber width (littleEndian width n ++ rest) = .ok (n, rest) := by
  have hlength : ¬(littleEndian width n ++ rest).length < width := by simp
  rw [takeNumber, if_neg hlength, List.take_left' (length_littleEndian width n),
    List.drop_left' (length_littleEndian width n), ofLittleEndian_littleEndian h]

theorem takeMark_cons (last : Bool) (rest : List UInt8) :
    takeMark ((if last then 1 else 0) :: rest) = .ok (last, rest) := by
  cases last <;> rfl

namespace EventRecord

theorem takeText_textBytes {s : String} (h : (Utf8.encode s).length < 2 ^ 64) (rest : List UInt8) :
    takeText (textBytes s ++ rest) = .ok (s, rest) := by
  have hlength : ¬(Utf8.encode s ++ rest).length < (Utf8.encode s).length := by simp
  rw [textBytes, List.append_assoc, takeText, takeNumber_littleEndian h]
  simp only [bind, Except.bind, if_neg hlength, List.take_left, List.drop_left, Utf8.decode_encode]
  rfl

theorem length_textBytes (s : String) : (textBytes s).length = 8 + (Utf8.encode s).length := by
  rw [textBytes, List.length_append, length_littleEndian]

theorem length_bytes (r : EventRecord) : r.bytes.length = 33 + (Utf8.encode r.time).length +
    (Utf8.encode r.kind).length + (Utf8.encode r.payload).length := by
  simp only [bytes, List.length_append, length_littleEndian, length_textBytes, List.length_singleton]
  omega

/-- A record is read back from its bytes, whatever comes behind them. -/
theorem ofBytes_bytes_append {r : EventRecord} (hword : r.sequence < 2 ^ 64)
    (hfits : r.bytes.length < 2 ^ 32) (padding : List UInt8) : ofBytes (r.bytes ++ padding) = .ok r := by
  rw [length_bytes] at hfits
  have htime (rest : List UInt8) : takeText (textBytes r.time ++ rest) = .ok (r.time, rest) :=
    takeText_textBytes (by omega) rest
  have hkind (rest : List UInt8) : takeText (textBytes r.kind ++ rest) = .ok (r.kind, rest) :=
    takeText_textBytes (by omega) rest
  have hpayload (rest : List UInt8) :
      takeText (textBytes r.payload ++ rest) = .ok (r.payload, rest) :=
    takeText_textBytes (by omega) rest
  simp only [bytes, List.append_assoc, List.cons_append, List.nil_append]
  simp only [ofBytes, takeNumber_littleEndian (show r.sequence < 256 ^ 8 from hword), bind,
    Except.bind, htime, hkind, hpayload, takeMark_cons]
  rfl

theorem ofBytes_bytes {r : EventRecord} (hword : r.sequence < 2 ^ 64)
    (hfits : r.bytes.length < 2 ^ 32) : ofBytes r.bytes = .ok r := by
  simpa only [List.append_nil] using ofBytes_bytes_append hword hfits []

/-! ## Frames -/

theorem decodeFrames_frame_append {r : EventRecord} (hword : r.sequence < 2 ^ 64)
    (hfits : r.bytes.length < 2 ^ 32) (rest : List UInt8) :
    decodeFrames (r.frame ++ rest) = (r :: ·) <$> decodeFrames rest := by
  have hsize : ofLittleEndian (littleEndian 4 r.bytes.length) = r.bytes.length :=
    ofLittleEndian_littleEndian hfits
  obtain ⟨a, b, c, d, hfour⟩ : ∃ a b c d, littleEndian 4 r.bytes.length = [a, b, c, d] :=
    ⟨_, _, _, _, rfl⟩
  rw [hfour] at hsize
  rw [frame, hfour, List.append_assoc]
  simp only [List.cons_append, List.nil_append]
  rw [decodeFrames]
  simp only [hsize, List.take_left, List.drop_left, ofBytes_bytes hword hfits, bind, Except.bind]
  cases decodeFrames rest <;> rfl

theorem decodeFrames_flatMap_frame {records : List EventRecord}
    (hword : ∀ r ∈ records, r.sequence < 2 ^ 64)
    (hfits : ∀ r ∈ records, r.bytes.length < 2 ^ 32) :
    decodeFrames (records.flatMap frame) = .ok records := by
  induction records with
  | nil => rw [List.flatMap_nil, decodeFrames]; simp
  | cons r records ih =>
    rw [List.flatMap_cons, decodeFrames_frame_append (hword r (by simp)) (hfits r (by simp)),
      ih (fun q hq => hword q (List.mem_cons_of_mem _ hq))
        (fun q hq => hfits q (List.mem_cons_of_mem _ hq))]
    rfl

end EventRecord

/-! ## Events -/

/-- An event as programs hold it: its number is a word, and its payload is what a reader may build. -/
structure Event.Proper (e : Event) : Prop where
  word : e.sequence < 2 ^ 64
  payload : e.payload.proper = true

theorem encode_binary {e : Event} (hfits : e.record.bytes.length < 2 ^ 32) :
    Encoding.binary.encode e = .ok e.record.frame := if_pos hfits

theorem mapM_encode_binary {events : List Event}
    (hfits : ∀ e ∈ events, e.record.bytes.length < 2 ^ 32) :
    events.mapM Encoding.binary.encode = .ok (events.map fun e => e.record.frame) := by
  induction events with
  | nil => rfl
  | cons e events ih =>
    rw [List.mapM_cons, encode_binary (hfits e (by simp)),
      ih fun f hf => hfits f (List.mem_cons_of_mem _ hf)]
    rfl

/-- **A file of binary frames is read back.** The frames of events are split into the records of the
events in order, and the payload text of a record is the payload of its event, if that holds no real
number and is nested no deeper than a reader of texts admits. -/
theorem decodeFrames_encodings (events : List Event) (hproper : ∀ e ∈ events, e.Proper)
    (hfits : ∀ e ∈ events, e.record.bytes.length < 2 ^ 32) :
    ∃ frames, events.mapM Encoding.binary.encode = .ok frames ∧
      decodeFrames frames.flatten = .ok (events.map Event.record) ∧
      ∀ e ∈ events, e.payload.realFree = true → e.payload.depth < Json.maxDepth →
        Json.ofText e.record.payload = .ok e.payload := by
  refine ⟨_, mapM_encode_binary hfits, ?_, fun e he hreal hdepth =>
    Json.ofText_compact (hproper e he).payload hreal hdepth⟩
  have hword : ∀ r ∈ events.map Event.record, r.sequence < 2 ^ 64 := by
    simp only [List.forall_mem_map]
    exact fun e he => (hproper e he).word
  have hrecords := EventRecord.decodeFrames_flatMap_frame hword (by simpa using hfits)
  rwa [List.flatMap_map, List.flatMap_def] at hrecords

/-- Two events, one with a nested payload and one with the largest number. -/
theorem decodeFrames_encodings_two :
    let events : List Event :=
      [⟨1, "now", "progress", .obj [("a", .arr [.null, .num (.whole (-7))])], false⟩,
        ⟨2 ^ 64 - 1, "then", "finished", .str "done\n", true⟩]
    ∃ frames, events.mapM Encoding.binary.encode = .ok frames ∧
      decodeFrames frames.flatten = .ok (events.map Event.record) ∧
      ∀ e ∈ events, Json.ofText e.record.payload = .ok e.payload := by
  intro events
  have hproper : ∀ e ∈ events, e.Proper := by
    simp only [events, List.forall_mem_cons, List.not_mem_nil, false_imp_iff, implies_true, and_true]
    exact ⟨⟨by decide, by decide⟩, ⟨by decide, by decide⟩⟩
  have hreal : ∀ e ∈ events, e.payload.realFree = true := by decide
  have hdepth : ∀ e ∈ events, e.payload.depth < Json.maxDepth := by decide
  obtain ⟨frames, hframes, hrecords, hpayload⟩ :=
    decodeFrames_encodings events hproper (by decide +kernel)
  exact ⟨frames, hframes, hrecords, fun e he => hpayload e he (hreal e he) (hdepth e he)⟩

end EventUpload
