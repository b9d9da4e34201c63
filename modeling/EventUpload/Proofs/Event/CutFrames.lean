import Mathlib
import EventUpload.Proofs.Event.Frames

/-!
# Files of frames that are cut off

Writing a file may be cut short anywhere: inside the length of a frame, inside a number or a text of its
record, or inside the length of a text. What is left is some whole frames and a part of the next one
(`Cut`). Every part of a record is told from a cut one (`Reads`), so that the whole record is, wherever
it is cut; and as a frame that is cut holds its record cut, `decodeFrames` either finds the whole frames
or fails. It never has to look beyond the end of its bytes: `decodeIndexed` is the same loop with an
index for every byte and two ends for every slice, each of which is checked.

The reader takes the length of a frame for what is left of the file if the file is shorter. So it is not
the frame that tells that something is missing but the record in it, and this is why a record has to be
shown to fail on every proper prefix of its bytes. `Reads.andThen` does so for two parts in a row, and
the record is put together from its parts with it.

`Cut` counts the whole frames by lengths, `k` being the largest number of them that end within the first
`n` bytes. Less than four bytes of a further frame are silently left over: nobody can tell them from the
end of a file.

`decodeFrames` takes lists apart and cannot look beyond their end by its type. What there is to be shown
about ends is therefore shown of `decodeIndexed`, which fails with `none` at the first index that is out
of range, and the theorem says that this never happens, for any bytes.
-/

set_option autoImplicit false

namespace EventUpload

/-! ## Parts of records

A reader that fails on every proper beginning of what it reads stays one when it is put in front of
another. So a record that is cut off fails wherever the cut is. -/

section

variable {α β : Type} {read : List UInt8 → Except FrameFault (α × List UInt8)}
  {bytes more : List UInt8} {value : α}

/-- Nothing is read from bytes that are cut off. -/
def FailsCut (read : List UInt8 → Except FrameFault β) (bytes : List UInt8) : Prop :=
  ∀ part, part <+: bytes → part.length < bytes.length → ∃ fault, read part = .error fault

/-- Some bytes are read as a value, whatever follows them, and are not read when they are cut off. -/
structure Reads (read : List UInt8 → Except FrameFault (α × List UInt8)) (bytes : List UInt8)
    (value : α) : Prop where
  whole : ∀ rest, read (bytes ++ rest) = .ok (value, rest)
  cut : FailsCut read bytes

/-- Where two parts in a row are cut off, it is the first one that is cut, or the second one. -/
theorem Reads.andThen (h : Reads read bytes value) {next : α × List UInt8 → Except FrameFault β}
    (hnext : FailsCut (fun left => next (value, left)) more) :
    FailsCut (fun part => read part >>= next) (bytes ++ more) := by
  intro part hpart hlt
  rcases Nat.lt_or_ge part.length bytes.length with hshort | hlong
  · obtain ⟨fault, hread⟩ := h.cut part (List.prefix_of_prefix_length_le hpart
      (List.prefix_append _ _) (Nat.le_of_lt hshort)) hshort
    exact ⟨fault, by simp only [hread, bind, Except.bind]⟩
  · obtain ⟨left, rfl⟩ := List.prefix_of_prefix_length_le (List.prefix_append _ _) hpart hlong
    obtain ⟨fault, hleft⟩ := hnext left ((List.prefix_append_right_inj bytes).mp hpart)
      (by simpa using hlt)
    exact ⟨fault, by simpa only [h.whole, bind, Except.bind] using hleft⟩

end

theorem reads_number {width n : Nat} (h : n < 256 ^ width) :
    Reads (takeNumber width) (littleEndian width n) n where
  whole := takeNumber_littleEndian h
  cut part _ hlt := ⟨.cutNumber, if_pos (by simpa using hlt)⟩

theorem reads_mark (last : Bool) : Reads takeMark [if last then 1 else 0] last where
  whole := takeMark_cons last
  cut part _ hlt := by
    rw [List.length_singleton, Nat.lt_one_iff, List.length_eq_zero_iff] at hlt
    exact ⟨.cutNumber, by rw [hlt, takeMark]⟩

namespace EventRecord

theorem reads_text {s : String} (h : (Utf8.encode s).length < 2 ^ 64) :
    Reads takeText (textBytes s) s where
  whole := takeText_textBytes h
  cut := (reads_number h).andThen fun _ _ hlt => ⟨.cutText, if_pos hlt⟩

/-- **A record that is cut off anywhere** is not read. -/
theorem ofBytes_cut {r : EventRecord} (hword : r.sequence < 2 ^ 64)
    (hfits : r.bytes.length < 2 ^ 32) : FailsCut ofBytes r.bytes := by
  rw [length_bytes] at hfits
  have hnumber : Reads (takeNumber 8) (littleEndian 8 r.sequence) r.sequence := reads_number hword
  have htime : Reads takeText (textBytes r.time) r.time := reads_text (by omega)
  have hkind : Reads takeText (textBytes r.kind) r.kind := reads_text (by omega)
  have hpayload : Reads takeText (textBytes r.payload) r.payload := reads_text (by omega)
  simp only [bytes, List.append_assoc]
  refine hnumber.andThen (htime.andThen (hkind.andThen (hpayload.andThen fun part hpart hlt => ?_)))
  obtain ⟨fault, hmark⟩ := (reads_mark r.last).cut part hpart hlt
  exact ⟨fault, by simp only [hmark, bind, Except.bind]⟩

/-! ## Parts of frames -/

theorem length_frame (r : EventRecord) : r.frame.length = 4 + r.bytes.length := by
  rw [frame, List.length_append, length_littleEndian]

end EventRecord

theorem decodeFrames_of_short {bytes : List UInt8} (h : bytes.length < 4) :
    decodeFrames bytes = .ok [] := by
  match bytes with
  | [] | [_] | [_, _] | [_, _, _] => rw [decodeFrames]; simp
  | _ :: _ :: _ :: _ :: _ => simp only [List.length_cons] at h; omega

/-- At least four bytes of a frame hold its length, and the record behind it is cut off. -/
theorem EventRecord.decodeFrames_part {r : EventRecord} (hword : r.sequence < 2 ^ 64)
    (hfits : r.bytes.length < 2 ^ 32) {part : List UInt8} (hpart : part <+: r.frame)
    (hlt : part.length < r.frame.length) (hfour : 4 ≤ part.length) :
    ∃ fault, decodeFrames part = .error fault := by
  have hsize : ofLittleEndian (littleEndian 4 r.bytes.length) = r.bytes.length :=
    ofLittleEndian_littleEndian hfits
  obtain ⟨left, rfl⟩ := List.prefix_of_prefix_length_le (List.prefix_append _ _) hpart
    ((length_littleEndian 4 r.bytes.length).symm ▸ hfour)
  have hleft : left <+: r.bytes := (List.prefix_append_right_inj _).mp hpart
  have hless : left.length < r.bytes.length := by
    simpa [length_frame, length_littleEndian] using hlt
  obtain ⟨fault, hrecord⟩ := ofBytes_cut hword hfits left hleft hless
  obtain ⟨a, b, c, d, hbytes⟩ : ∃ a b c d, littleEndian 4 r.bytes.length = [a, b, c, d] :=
    ⟨_, _, _, _, rfl⟩
  rw [hbytes] at hsize ⊢
  refine ⟨fault, ?_⟩
  simp only [List.cons_append, List.nil_append]
  rw [decodeFrames, hsize, List.take_of_length_le (Nat.le_of_lt hless), hrecord]
  rfl

/-! ## Files that are cut off -/

/-- The first `n` bytes of some frames in a row: `k` frames are whole, and a part is left over. -/
structure Cut (frames : List (List UInt8)) (n k : Nat) (part : List UInt8) : Prop where
  le : k ≤ frames.length
  whole : ∀ j ≤ frames.length, (frames.take j).flatten.length ≤ n ↔ j ≤ k
  bytes : frames.flatten.take n = (frames.take k).flatten ++ part

theorem Cut.nil (n : Nat) : Cut [] n 0 [] where
  le := Nat.le_refl 0
  whole j hj := by simp at hj; simp [hj]
  bytes := by simp

theorem Cut.inside {frame : List UInt8} {n : Nat} (h : n < frame.length)
    (frames : List (List UInt8)) : Cut (frame :: frames) n 0 (frame.take n) where
  le := Nat.zero_le _
  whole j _ := by
    cases j with
    | zero => simp
    | succ j =>
      simp only [List.take_succ_cons, List.flatten_cons, List.length_append]
      omega
  bytes := by
    rw [List.flatten_cons, List.take_append_of_le_length (Nat.le_of_lt h)]
    rfl

theorem Cut.behind {frame part : List UInt8} {frames : List (List UInt8)} {n k : Nat}
    (hle : frame.length ≤ n) (h : Cut frames (n - frame.length) k part) :
    Cut (frame :: frames) n (k + 1) part where
  le := Nat.succ_le_succ h.le
  whole j hj := by
    cases j with
    | zero => simp
    | succ j =>
      have hwhole := h.whole j (Nat.le_of_succ_le_succ hj)
      simp only [List.take_succ_cons, List.flatten_cons, List.length_append]
      omega
  bytes := by
    rw [List.flatten_cons, List.take_append, List.take_of_length_le hle, h.bytes,
      List.take_succ_cons, List.flatten_cons, List.append_assoc]

/-- **A file of frames that is cut off** is read up to the cut, if that is between two frames or inside
the length of one. -/
theorem EventRecord.decodeFrames_take {records : List EventRecord}
    (hword : ∀ r ∈ records, r.sequence < 2 ^ 64)
    (hfits : ∀ r ∈ records, r.bytes.length < 2 ^ 32) (n : Nat) :
    ∃ k part, Cut (records.map frame) n k part ∧
      (part.length < 4 →
        decodeFrames ((records.map frame).flatten.take n) = .ok (records.take k)) ∧
      (4 ≤ part.length →
        ∃ fault, decodeFrames ((records.map frame).flatten.take n) = .error fault) := by
  induction records generalizing n with
  | nil => exact ⟨0, [], .nil n, fun _ => by simp [decodeFrames_of_short], by simp⟩
  | cons r records ih =>
    have hr := hword r (by simp)
    have hsize := hfits r (by simp)
    rw [List.map_cons, List.flatten_cons]
    rcases Nat.lt_or_ge n r.frame.length with hinside | hbehind
    · refine ⟨0, r.frame.take n, .inside hinside _, fun hshort => ?_, fun hfour => ?_⟩
      · rw [List.take_append_of_le_length (Nat.le_of_lt hinside), decodeFrames_of_short hshort,
          List.take_zero]
      · rw [List.take_append_of_le_length (Nat.le_of_lt hinside)]
        exact decodeFrames_part hr hsize (List.take_prefix _ _)
          (by rw [List.length_take]; omega) hfour
    · obtain ⟨k, part, hcut, hok, herror⟩ :=
        ih (fun q hq => hword q (List.mem_cons_of_mem _ hq))
          (fun q hq => hfits q (List.mem_cons_of_mem _ hq)) (n - r.frame.length)
      rw [List.take_append, List.take_of_length_le hbehind, decodeFrames_frame_append hr hsize]
      refine ⟨k + 1, part, hcut.behind hbehind, fun hshort => ?_, fun hfour => ?_⟩
      · rw [hok hshort]
        rfl
      · obtain ⟨fault, hfault⟩ := herror hfour
        exact ⟨fault, by rw [hfault]; rfl⟩

/-! ## Indices -/

/-- The bytes between two places, `none` if they do not lie in this order within the bytes. -/
def slice? (bytes : List UInt8) (start stop : Nat) : Option (List UInt8) :=
  if start ≤ stop ∧ stop ≤ bytes.length then some ((bytes.take stop).drop start) else none

/-- What the frame in front holds and what comes after it, `none` if an index is out of range or its end
is more than a word holds. -/
def splitFrame? (bytes : List UInt8) : Option (List UInt8 × List UInt8) := do
  let size := ofLittleEndian [← bytes[0]?, ← bytes[1]?, ← bytes[2]?, ← bytes[3]?]
  let stop ← if 4 + size < 2 ^ 64 then some (min (4 + size) bytes.length) else none
  return (← slice? bytes 4 stop, ← slice? bytes stop bytes.length)

theorem ofLittleEndian_lt (bytes : List UInt8) : ofLittleEndian bytes < 256 ^ bytes.length := by
  induction bytes with
  | nil => decide
  | cons b bytes ih =>
    have hb := b.toNat_lt
    rw [ofLittleEndian, List.length_cons, Nat.pow_succ']
    omega

/-- Every index is within the bytes, if there are four of them. -/
theorem splitFrame?_cons (a b c d : UInt8) (rest : List UInt8) :
    splitFrame? (a :: b :: c :: d :: rest) =
      some (rest.take (ofLittleEndian [a, b, c, d]), rest.drop (ofLittleEndian [a, b, c, d])) := by
  have hword : 4 + ofLittleEndian [a, b, c, d] < 2 ^ 64 := by
    have := ofLittleEndian_lt [a, b, c, d]
    simp only [List.length_cons, List.length_nil] at this
    omega
  generalize hsize : ofLittleEndian [a, b, c, d] = size at hword
  have hstop : min (4 + size) (rest.length + 4) = min size rest.length + 4 := by omega
  have hbody : slice? (a :: b :: c :: d :: rest) 4 (min size rest.length + 4) =
      some (rest.take size) := by
    rw [slice?, if_pos ⟨by omega, by simp⟩]
    simp only [List.take_succ_cons, List.drop_succ_cons, List.drop_zero]
    exact congrArg some (List.take_eq_take_iff.mpr (by omega))
  have hrest : slice? (a :: b :: c :: d :: rest) (min size rest.length + 4) (rest.length + 4) =
      some (rest.drop size) := by
    rw [slice?, if_pos ⟨by omega, by simp⟩]
    simp only [List.take_succ_cons, List.drop_succ_cons, List.take_length]
    exact congrArg some (List.drop_eq_drop_iff.mpr (by omega))
  simp only [splitFrame?, bind, Option.bind, List.getElem?_cons_zero, List.getElem?_cons_succ, hsize,
    if_pos hword, List.length_cons, hstop, hbody, hrest, pure]

theorem exists_of_four_le {bytes : List UInt8} (h : 4 ≤ bytes.length) :
    ∃ a b c d rest, bytes = a :: b :: c :: d :: rest := by
  match bytes with
  | [] | [_] | [_, _] | [_, _, _] => simp at h
  | a :: b :: c :: d :: rest => exact ⟨a, b, c, d, rest, rfl⟩

theorem splitFrame?_shorter {bytes body rest : List UInt8}
    (h : splitFrame? bytes = some (body, rest)) : rest.length < bytes.length := by
  match bytes with
  | [] | [_] | [_, _] | [_, _, _] => simp [splitFrame?] at h
  | a :: b :: c :: d :: tail =>
    rw [splitFrame?_cons] at h
    cases h
    simp only [List.length_drop, List.length_cons]
    omega

/-- The loop over the frames of a file, `none` as soon as an index is out of range. -/
def decodeIndexed (bytes : List UInt8) (records : List EventRecord) :
    Option (Except FrameFault (List EventRecord)) :=
  if 4 ≤ bytes.length then
    match _h : splitFrame? bytes with
    | none => none
    | some (body, rest) =>
      match EventRecord.ofBytes body with
      | .error fault => some (.error fault)
      | .ok record => decodeIndexed rest (records ++ [record])
  else some (.ok records)
termination_by bytes.length
decreasing_by exact splitFrame?_shorter _h

/-- A reader that cuts a frame off its input fails in the middle of a list only if the reader of the
list does, so the two agree whatever has been read before. -/
theorem decodeIndexed_eq (bytes : List UInt8) (records : List EventRecord) :
    decodeIndexed bytes records = some ((records ++ ·) <$> decodeFrames bytes) := by
  fun_induction decodeIndexed bytes records with
  | case1 bytes records hfour hnone =>
    obtain ⟨a, b, c, d, rest, rfl⟩ := exists_of_four_le hfour
    simp [splitFrame?_cons] at hnone
  | case2 bytes records hfour body rest hsplit fault hfault =>
    obtain ⟨a, b, c, d, rest, rfl⟩ := exists_of_four_le hfour
    rw [splitFrame?_cons] at hsplit
    cases hsplit
    rw [decodeFrames, hfault]
    rfl
  | case3 bytes records hfour body rest hsplit record hrecord ih =>
    obtain ⟨a, b, c, d, rest, rfl⟩ := exists_of_four_le hfour
    rw [splitFrame?_cons] at hsplit
    cases hsplit
    rw [decodeFrames, hrecord, ih]
    simp only [bind, Except.bind]
    cases decodeFrames (rest.drop _) <;> simp [Functor.map, Except.map, pure, Except.pure]
  | case4 bytes records hshort =>
    rw [decodeFrames_of_short (by omega)]
    simp [Functor.map, Except.map]

/-! ## The theorem -/

/-- Events have frames if their records fit. -/
theorem of_mapM_encode_binary {events : List Event} {frames : List (List UInt8)}
    (h : events.mapM Encoding.binary.encode = .ok frames) :
    (∀ e ∈ events, e.record.bytes.length < 2 ^ 32) ∧
      frames = (events.map Event.record).map EventRecord.frame := by
  have hfits : ∀ e ∈ events, e.record.bytes.length < 2 ^ 32 := by
    induction events generalizing frames with
    | nil => simp
    | cons e events ih =>
      rw [List.mapM_cons] at h
      by_cases hsize : e.record.bytes.length < 2 ^ 32
      · rw [encode_binary hsize] at h
        cases hmore : events.mapM Encoding.binary.encode with
        | error refusal =>
          rw [hmore] at h
          cases h
        | ok more => exact List.forall_mem_cons.mpr ⟨hsize, ih hmore⟩
      · have hrefused : Encoding.binary.encode e = .error (.tooLarge e.record.bytes.length) :=
          if_neg hsize
        rw [hrefused] at h
        cases h
  rw [mapM_encode_binary hfits, Except.ok.injEq] at h
  exact ⟨hfits, by rw [← h, List.map_map]; rfl⟩

/-- **A file of binary frames may be cut off anywhere.** If less than four bytes of a further frame are
left over, the records of the whole frames are read and nothing else; if more of it is left over, the
file is not read. No bytes at all make the reader look beyond their end. -/
theorem decodeFrames_cut {events : List Event} {frames : List (List UInt8)}
    (hword : ∀ e ∈ events, e.sequence < 2 ^ 64)
    (hframes : events.mapM Encoding.binary.encode = .ok frames) :
    (∀ n, ∃ k part, Cut frames n k part ∧
      (part.length < 4 →
        decodeFrames (frames.flatten.take n) = .ok ((events.take k).map Event.record)) ∧
      (4 ≤ part.length → ∃ fault, decodeFrames (frames.flatten.take n) = .error fault) ∧
      ∀ records, decodeFrames (frames.flatten.take n) = .ok records →
        records <+: events.map Event.record) ∧
      ∀ bytes, decodeIndexed bytes [] = some (decodeFrames bytes) := by
  obtain ⟨hfits, rfl⟩ := of_mapM_encode_binary hframes
  refine ⟨fun n => ?_, fun bytes => ?_⟩
  · obtain ⟨k, part, hcut, hok, herror⟩ := EventRecord.decodeFrames_take
      (List.forall_mem_map.mpr hword) (List.forall_mem_map.mpr hfits) n
    rw [← List.map_take] at hok
    refine ⟨k, part, hcut, hok, herror, fun records hrecords => ?_⟩
    rcases Nat.lt_or_ge part.length 4 with hshort | hfour
    · cases hrecords.symm.trans (hok hshort)
      exact (List.take_prefix _ _).map _
    · obtain ⟨fault, hfault⟩ := herror hfour
      cases hrecords.symm.trans hfault
  · rw [decodeIndexed_eq]
    cases decodeFrames bytes <;> rfl

/-- Two events, of which the first one takes 52 bytes. -/
theorem decodeFrames_cut_two :
    let events : List Event := [⟨1, "now", "progress", .null, false⟩,
      ⟨2, "then", "finished", .str "done\n", true⟩]
    ∃ frames, events.mapM Encoding.binary.encode = .ok frames ∧
      decodeFrames (frames.flatten.take 55) = .ok [⟨1, "now", "progress", "null", false⟩] ∧
      decodeFrames (frames.flatten.take 56) = .error .cutNumber ∧
      ∀ n records, decodeFrames (frames.flatten.take n) = .ok records →
        records <+: events.map Event.record := by
  intro events
  have hword : ∀ e ∈ events, e.sequence < 2 ^ 64 := by decide
  have hfits : ∀ e ∈ events, e.record.bytes.length < 2 ^ 32 := by decide +kernel
  have hframes := mapM_encode_binary hfits
  obtain ⟨hcut, -⟩ := decodeFrames_cut hword hframes
  refine ⟨_, hframes, by cbv, by cbv, fun n => ?_⟩
  obtain ⟨_, _, -, -, -, hprefix⟩ := hcut n
  exact hprefix

end EventUpload
