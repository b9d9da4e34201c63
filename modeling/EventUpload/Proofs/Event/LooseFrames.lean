import EventUpload.Proofs.Event.CutFrames
import EventUpload.Proofs.Json.Built
import EventUpload.Proofs.Text.Ending

/-!
# Files of frames that are read without being exact

The reader admits more than what is written. The length in front of a frame may be more than its record
takes, and whatever else it spans is skipped; the last length may reach beyond the end of the file; and
up to three bytes may be left at the end. `LooseFrame` is a frame with all this freedom, and `Laid` says
how such frames make up a file. These files are the ones that are read, and they are read as the records
of their frames (`decodeFrames_loose`). The reader never lets go of anything else: every part of a
record is written with the bytes it was read from (`Recovers`).

The proof has two halves that go in opposite directions. A file that is laid is read by running the
reader over it. From bytes that were read the frames are recovered one after the other, and here each
part of a record has to be unique: a number has one spelling of its length, a text one sequence of
bytes, the mark is zero or one.

Exactness is stated for a whole file, since a frame alone cannot be told to be inexact by its length:
with one that announces more, the next frame begins elsewhere. `announced_of_append` is the step that
compares a loose frame with the exact one at the same place.
-/

set_option autoImplicit false

namespace EventUpload

/-! ## What is read is what is written

A text is read from bytes that are those of the text, and every number has a fixed width, so nothing
inside a record leaves any choice. -/

theorem littleEndian_ofLittleEndian (bytes : List UInt8) :
    littleEndian bytes.length (ofLittleEndian bytes) = bytes := by
  induction bytes with
  | nil => rfl
  | cons b bytes ih =>
    have hb := b.toNat_lt
    have hlow : (b.toNat + 256 * ofLittleEndian bytes) % 256 = b.toNat := by omega
    have hhigh : (b.toNat + 256 * ofLittleEndian bytes) / 256 = ofLittleEndian bytes := by omega
    rw [List.length_cons, ofLittleEndian, littleEndian, hlow, hhigh, ih, UInt8.ofNat_toNat]

/-- Whatever is read was written in front of what is left. -/
def Recovers {α : Type} (read : List UInt8 → Except FrameFault (α × List UInt8))
    (write : α → List UInt8) : Prop :=
  ∀ ⦃bytes value rest⦄, read bytes = .ok (value, rest) → bytes = write value ++ rest

theorem takeNumber_lt {width n : Nat} {bytes rest : List UInt8}
    (h : takeNumber width bytes = .ok (n, rest)) : n < 256 ^ width := by
  rw [takeNumber] at h
  split at h
  · cases h
  · next hlong =>
    cases h
    have hlt := ofLittleEndian_lt (bytes.take width)
    rwa [List.length_take_of_le (Nat.le_of_not_lt hlong)] at hlt

theorem recovers_number (width : Nat) : Recovers (takeNumber width) (littleEndian width) := by
  intro bytes n rest h
  rw [takeNumber] at h
  split at h
  · cases h
  · next hlong =>
    cases h
    have hwritten := littleEndian_ofLittleEndian (bytes.take width)
    rw [List.length_take_of_le (Nat.le_of_not_lt hlong)] at hwritten
    rw [hwritten, List.take_append_drop]

theorem recovers_mark : Recovers takeMark fun last => [if last then 1 else 0] := by
  intro bytes last rest h
  cases bytes with
  | nil => cases h
  | cons b bytes =>
    rw [takeMark] at h
    split at h
    · next hzero => cases h; rw [hzero]; rfl
    · split at h
      · next hone => cases h; rw [hone]; rfl
      · cases h

namespace EventRecord

theorem recovers_text : Recovers takeText textBytes := by
  intro bytes text rest h
  obtain ⟨⟨size, left⟩, hsize, h⟩ := Json.exists_of_bind h
  simp only at h
  split at h
  · cases h
  · next hlong =>
    obtain ⟨found, hfound, h⟩ := Json.exists_of_bind h
    cases h
    cases hread : Utf8.decode (left.take size) with
    | error fault =>
      rw [hread] at hfound
      cases hfound
    | ok read =>
      rw [hread] at hfound
      cases hfound
      rw [textBytes, Utf8.encode_of_decode hread, List.length_take_of_le (Nat.le_of_not_lt hlong),
        List.append_assoc, List.take_append_drop]
      exact recovers_number 8 hsize

/-- A record is read from its own bytes, and from no others, with anything behind them. -/
theorem bytes_of_ofBytes {r : EventRecord} {body : List UInt8} (h : ofBytes body = .ok r) :
    r.sequence < 2 ^ 64 ∧ ∃ padding, body = r.bytes ++ padding := by
  obtain ⟨⟨sequence, left⟩, hsequence, h⟩ := Json.exists_of_bind h
  obtain ⟨⟨time, left₁⟩, htime, h⟩ := Json.exists_of_bind h
  obtain ⟨⟨kind, left₂⟩, hkind, h⟩ := Json.exists_of_bind h
  obtain ⟨⟨payload, left₃⟩, hpayload, h⟩ := Json.exists_of_bind h
  obtain ⟨⟨last, padding⟩, hlast, h⟩ := Json.exists_of_bind h
  cases h
  refine ⟨takeNumber_lt hsequence, padding, ?_⟩
  rw [recovers_number 8 hsequence, recovers_text htime, recovers_text hkind, recovers_text hpayload,
    recovers_mark hlast]
  simp only [bytes, List.append_assoc]

end EventRecord

/-! ## Loose frames -/

/-- A frame as the reader admits it: the length it announces is at least that of its record and of the
bytes behind the record. -/
structure LooseFrame where
  announced : Nat
  record : EventRecord
  padding : List UInt8
  word : record.sequence < 2 ^ 64
  fits : announced < 2 ^ 32
  within : (record.bytes ++ padding).length ≤ announced

namespace LooseFrame

def body (f : LooseFrame) : List UInt8 := f.record.bytes ++ f.padding

def bytes (f : LooseFrame) : List UInt8 := littleEndian 4 f.announced ++ f.body

/-- Nothing is behind the record, and the frame announces its length. -/
structure Exact (f : LooseFrame) : Prop where
  announced : f.announced = f.record.bytes.length
  padding : f.padding = []

variable {f : LooseFrame} {more tail : List UInt8}

theorem length_record (f : LooseFrame) : f.record.bytes.length < 2 ^ 32 := by
  have hwithin := f.within
  have hfits := f.fits
  rw [List.length_append] at hwithin
  omega

/-- A frame is read up to the length it announces, or up to the end of the file. -/
theorem decodeFrames_append (f : LooseFrame) (more : List UInt8)
    (h : f.announced = f.body.length ∨ more = []) :
    decodeFrames (f.bytes ++ more) = (f.record :: ·) <$> decodeFrames more := by
  have hsize : ofLittleEndian (littleEndian 4 f.announced) = f.announced :=
    ofLittleEndian_littleEndian f.fits
  obtain ⟨a, b, c, d, hfour⟩ : ∃ a b c d, littleEndian 4 f.announced = [a, b, c, d] :=
    ⟨_, _, _, _, rfl⟩
  have hspan : (f.body ++ more).take f.announced = f.body ∧ (f.body ++ more).drop f.announced = more := by
    rcases h with h | rfl
    · rw [h]
      exact ⟨List.take_left, List.drop_left⟩
    · rw [List.append_nil]
      exact ⟨List.take_of_length_le f.within, List.drop_of_length_le f.within⟩
  rw [hfour] at hsize
  rw [bytes, hfour, List.append_assoc]
  simp only [List.cons_append, List.nil_append]
  rw [decodeFrames]
  have hrecord : EventRecord.ofBytes f.body = .ok f.record :=
    EventRecord.ofBytes_bytes_append f.word f.length_record f.padding
  simp only [hsize, hspan, hrecord, bind, Except.bind]
  cases decodeFrames more <;> rfl

theorem Exact.bytes_eq (h : f.Exact) : f.bytes = f.record.frame := by
  rw [bytes, body, h.announced, h.padding, List.append_nil, EventRecord.frame]

/-- The length in front of a frame that stands where the exact one would stand is the right one. -/
theorem announced_of_append (h : f.bytes ++ more = f.record.frame ++ tail) :
    f.announced = f.record.bytes.length ∧ f.padding ++ more = tail := by
  rw [bytes, body, EventRecord.frame] at h
  simp only [List.append_assoc] at h
  obtain ⟨hlength, hrest⟩ := List.append_inj h (by simp only [length_littleEndian])
  have hannounced := congrArg ofLittleEndian hlength
  rw [ofLittleEndian_littleEndian (show f.announced < 256 ^ 4 from f.fits),
    ofLittleEndian_littleEndian (show f.record.bytes.length < 256 ^ 4 from f.length_record)] at hannounced
  exact ⟨hannounced, List.append_cancel_left hrest⟩

theorem exact_of_announced (h : f.announced = f.record.bytes.length) : f.Exact := by
  have hwithin := f.within
  rw [List.length_append] at hwithin
  exact ⟨h, List.eq_nil_of_length_eq_zero (by omega)⟩

end LooseFrame

/-! ## Files of loose frames

Whole frames of that kind, one at the end that may be shorter than it says, and less than four bytes. -/

/-- How frames and the bytes that are left make up a file. Every frame takes the length it announces, the
last one what there is of it, and then nothing is left; less than four bytes are. -/
inductive Laid : List LooseFrame → List UInt8 → Prop
  | rest {left : List UInt8} (hshort : left.length < 4) : Laid [] left
  | last {f : LooseFrame} (hend : f.body.length < f.announced) : Laid [f] []
  | frame {f : LooseFrame} {frames : List LooseFrame} {left : List UInt8}
      (hspan : f.announced = f.body.length) (hrest : Laid frames left) : Laid (f :: frames) left

variable {frames : List LooseFrame} {left bytes : List UInt8} {records : List EventRecord}

/-- The file that frames and the bytes that are left make up. -/
def looseFile (frames : List LooseFrame) (left : List UInt8) : List UInt8 :=
  frames.flatMap LooseFrame.bytes ++ left

theorem looseFile_cons (f : LooseFrame) (frames : List LooseFrame) (left : List UInt8) :
    looseFile (f :: frames) left = f.bytes ++ looseFile frames left := by
  rw [looseFile, List.flatMap_cons, List.append_assoc, looseFile]

theorem Laid.decodeFrames (h : Laid frames left) :
    EventUpload.decodeFrames (looseFile frames left) = .ok (frames.map LooseFrame.record) := by
  induction h with
  | rest hshort => exact decodeFrames_of_short hshort
  | @last f hend =>
    rw [looseFile_cons, f.decodeFrames_append (looseFile [] []) (.inr rfl),
      decodeFrames_of_short (by decide)]
    rfl
  | @frame f frames left hspan hrest ih =>
    rw [looseFile_cons, f.decodeFrames_append _ (.inl hspan), ih]
    rfl

/-- What is read from four bytes and more is a loose frame and what is read behind it. -/
theorem exists_frame {a b c d : UInt8} {rest : List UInt8}
    (h : decodeFrames (a :: b :: c :: d :: rest) = .ok records) :
    ∃ f : LooseFrame, ∃ more, decodeFrames (rest.drop f.announced) = .ok more ∧
      records = f.record :: more ∧
      a :: b :: c :: d :: rest = f.bytes ++ rest.drop f.announced ∧
      f.body = rest.take f.announced := by
  rw [decodeFrames] at h
  obtain ⟨record, hrecord, h⟩ := Json.exists_of_bind h
  obtain ⟨more, hmore, h⟩ := Json.exists_of_bind h
  cases h
  obtain ⟨hword, padding, hbody⟩ := EventRecord.bytes_of_ofBytes hrecord
  have hnumber : littleEndian 4 (ofLittleEndian [a, b, c, d]) = [a, b, c, d] :=
    littleEndian_ofLittleEndian [a, b, c, d]
  have hfits : ofLittleEndian [a, b, c, d] < 2 ^ 32 := by simpa using ofLittleEndian_lt [a, b, c, d]
  refine ⟨⟨_, record, padding, hword, hfits, hbody ▸ List.length_take_le _ _⟩, more, hmore, rfl, ?_,
    hbody.symm⟩
  simp only [LooseFrame.bytes, LooseFrame.body, hnumber, ← hbody, List.take_append_drop,
    List.cons_append, List.nil_append]

/-- Whatever is read is made up of loose frames. The induction is on the length of the file, of which the
reader takes one frame after the other. -/
theorem exists_laid (bytes : List UInt8) {records : List EventRecord}
    (h : decodeFrames bytes = .ok records) :
    ∃ frames left, Laid frames left ∧ bytes = looseFile frames left ∧
      frames.map LooseFrame.record = records := by
  rcases Nat.lt_or_ge bytes.length 4 with hshort | hfour
  · rw [decodeFrames_of_short hshort] at h
    cases h
    exact ⟨[], bytes, .rest hshort, rfl, rfl⟩
  obtain ⟨a, b, c, d, rest, heq⟩ := exists_of_four_le hfour
  rw [heq] at h ⊢
  obtain ⟨f, more, hmore, rfl, hbytes, hbody⟩ := exists_frame h
  rcases Nat.lt_or_ge rest.length f.announced with hend | hspan
  · -- The frame announces more than there is, so that nothing comes after it.
    have hnone : rest.drop f.announced = [] := List.drop_of_length_le (Nat.le_of_lt hend)
    rw [hnone, decodeFrames_of_short (by decide)] at hmore
    cases hmore
    refine ⟨[f], [], .last ?_, ?_, rfl⟩
    · rwa [hbody, List.take_of_length_le (Nat.le_of_lt hend)]
    · rw [hbytes, hnone, looseFile_cons]
      rfl
  · obtain ⟨frames, left, hlaid, hrest, hrecords⟩ := exists_laid (rest.drop f.announced) hmore
    refine ⟨f :: frames, left, .frame ?_ hlaid, ?_, ?_⟩
    · rw [hbody, List.length_take_of_le hspan]
    · rw [hbytes, hrest, looseFile_cons]
    · rw [List.map_cons, hrecords]
termination_by bytes.length
decreasing_by simp only [heq, List.length_drop, List.length_cons]; omega

/-- A file is made of nothing but the frames of its records if every frame is exact and nothing is left. -/
theorem Laid.eq_flatMap_frame_iff (h : Laid frames left) :
    looseFile frames left = (frames.map LooseFrame.record).flatMap EventRecord.frame ↔
      left = [] ∧ ∀ f ∈ frames, f.Exact := by
  constructor
  · intro heq
    induction h with
    | rest hshort => exact ⟨heq, by simp⟩
    | @last f hend =>
      rw [looseFile_cons, List.map_singleton, List.flatMap_cons] at heq
      have hexact := LooseFrame.exact_of_announced (LooseFrame.announced_of_append heq).1
      exact ⟨rfl, by simpa using hexact⟩
    | @frame f frames left hspan hrest ih =>
      rw [looseFile_cons, List.map_cons, List.flatMap_cons] at heq
      obtain ⟨hannounced, htail⟩ := LooseFrame.announced_of_append heq
      have hexact := LooseFrame.exact_of_announced hannounced
      rw [hexact.padding, List.nil_append] at htail
      obtain ⟨hleft, hframes⟩ := ih htail
      exact ⟨hleft, List.forall_mem_cons.mpr ⟨hexact, hframes⟩⟩
  · rintro ⟨rfl, hexact⟩
    rw [looseFile, List.append_nil, List.flatMap_map]
    exact List.flatMap_congr fun f hf => (hexact f hf).bytes_eq

/-- **The files that are read** are the ones made up of loose frames and of less than four bytes at the
end, and they are read as the records of these frames in order. Such a file is the concatenation of the
frames of its records exactly if no bytes are left over, no frame has bytes behind its record, and every
frame announces the length of its record. -/
theorem decodeFrames_loose (bytes : List UInt8) (records : List EventRecord) :
    (decodeFrames bytes = .ok records ↔ ∃ frames left, Laid frames left ∧
      bytes = looseFile frames left ∧ frames.map LooseFrame.record = records) ∧
    ∀ frames left, Laid frames left → bytes = looseFile frames left →
      frames.map LooseFrame.record = records →
      (bytes = records.flatMap EventRecord.frame ↔ left = [] ∧ ∀ f ∈ frames, f.Exact) := by
  refine ⟨⟨exists_laid bytes, ?_⟩, ?_⟩
  · rintro ⟨frames, left, hlaid, rfl, rfl⟩
    exact hlaid.decodeFrames
  · rintro frames left hlaid rfl rfl
    exact hlaid.eq_flatMap_frame_iff

/-- A byte that is left over, a byte behind the record, and a length that reaches beyond the end: none of
these files is made of the frames of its records. -/
theorem decodeFrames_not_exact :
    let r : EventRecord := ⟨1, "", "", "", false⟩
    let behind := littleEndian 4 34 ++ r.bytes ++ [7]
    let beyond := littleEndian 4 34 ++ r.bytes
    (decodeFrames [0] = .ok [] ∧ decodeFrames behind = .ok [r] ∧ decodeFrames beyond = .ok [r]) ∧
      ([0] ≠ [].flatMap EventRecord.frame ∧ behind ≠ [r].flatMap EventRecord.frame ∧
        beyond ≠ [r].flatMap EventRecord.frame) ∧
      ¬∀ bytes records, decodeFrames bytes = .ok records →
        bytes = records.flatMap EventRecord.frame := by
  intro r behind beyond
  have hleft : decodeFrames [0] = .ok [] := decodeFrames_of_short (by decide)
  refine ⟨⟨hleft, by cbv, by cbv⟩, ⟨by decide, by decide, by decide⟩, fun h => ?_⟩
  exact absurd (h [0] [] hleft) (by decide)

end EventUpload
