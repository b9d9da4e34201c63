import EventUpload.Proofs.Text.Ending

/-!
# Boundaries between characters

The bytes of a text show where its characters begin: with a byte that continues none, and all bytes up
to the next character continue this one (`Spells.tails`). So who looks at the bytes alone finds just the
places between characters, and the end (`isBoundary_iff`), and finds the last of them before some place
by stepping back (`lastBoundary_eq`).

The test of a place looks at one byte. On bytes that are no text it may call places boundaries that are
none, and the lemmas are about the bytes of texts for that reason; what is cut into chunks has been
decoded before. Stepping back never needs more than three steps, but nothing here depends on that.
-/

set_option autoImplicit false

namespace EventUpload.Utf8

/-- Whether a place in some bytes is their end, or in front of a byte that continues no character. -/
def isBoundary (bytes : List UInt8) (place : Nat) : Bool :=
  match bytes[place]? with
  | some b => !isTail b
  | none => place == bytes.length

/-- Steps back from a place to the last boundary; to the front if there is none behind it. -/
def lastBoundary (bytes : List UInt8) : Nat → Nat
  | 0 => 0
  | place + 1 => if isBoundary bytes (place + 1) then place + 1 else lastBoundary bytes place

/-- How many bytes there are of the character at the front. -/
def frontLength (bytes : List UInt8) : Nat := 1 + (bytes.tail.takeWhile isTail).length

variable {bytes : List UInt8} {cs : List Char} {place : Nat}

theorem length_bytesOf (cs : List Char) : (bytesOf cs).length = (String.ofList cs).utf8ByteSize :=
  List.size_toByteArray.symm

theorem length_encode (text : String) : (encode text).length = text.utf8ByteSize := by
  rw [encode_eq, length_bytesOf, String.ofList_toList]

/-! ## Where the boundaries are -/

theorem isBoundary_zero (cs : List Char) : isBoundary (bytesOf cs) 0 = true := by
  cases cs with
  | nil => rfl
  | cons c cs =>
    obtain ⟨a, tail, hbytes, ha, -, -⟩ := (spells_encodeChar c).tails
    rw [isBoundary, bytesOf_cons, hbytes]
    simp [ha]

/-- The boundaries behind some bytes are those of what comes there. -/
theorem isBoundary_append (front bytes : List UInt8) (place : Nat) :
    isBoundary (front ++ bytes) (front.length + place) = isBoundary bytes place := by
  rw [isBoundary, isBoundary, List.getElem?_append_right (Nat.le_add_right _ _),
    Nat.add_sub_cancel_left, List.length_append]
  cases bytes[place]? with
  | some b => rfl
  | none => exact Bool.eq_iff_iff.mpr (by simp only [beq_iff_eq, Nat.add_left_cancel_iff])

/-- There is no boundary inside a character. -/
theorem isBoundary_inside (c : Char) (more : List UInt8) (hpos : 0 < place) (hlt : place < c.utf8Size) :
    isBoundary (String.utf8EncodeChar c ++ more) place = false := by
  obtain ⟨a, tail, hbytes, -, htail, -⟩ := (spells_encodeChar c).tails
  rw [← String.length_utf8EncodeChar, hbytes, List.length_cons] at hlt
  obtain ⟨place, rfl⟩ := Nat.exists_eq_add_of_lt hpos
  have hin : place < tail.length := by omega
  rw [isBoundary, hbytes, Nat.zero_add, List.cons_append, List.getElem?_cons_succ,
    List.getElem?_append_left hin, List.getElem?_eq_getElem hin]
  simp [htail _ (List.getElem_mem hin)]

/-- There is none between two boundaries with a single character between them. -/
theorem isBoundary_between {before : List Char} (c : Char) (after : List Char)
    (hlt : (bytesOf before).length < place) (hplace : place < (bytesOf before).length + c.utf8Size) :
    isBoundary (bytesOf (before ++ c :: after)) place = false := by
  obtain ⟨inside, rfl⟩ := Nat.exists_eq_add_of_le (Nat.le_of_lt hlt)
  rw [bytesOf_append, isBoundary_append, bytesOf_cons]
  exact isBoundary_inside c _ (by omega) (by omega)

/-- **The boundaries that the bytes of a text show** are the places between its characters, and its two
ends. -/
theorem isBoundary_iff : isBoundary (bytesOf cs) place = true ↔
    ∃ before after, cs = before ++ after ∧ place = (bytesOf before).length := by
  constructor
  · intro h
    induction cs generalizing place with
    | nil =>
      refine ⟨[], [], rfl, ?_⟩
      simpa [isBoundary] using h
    | cons c cs ih =>
      rw [bytesOf_cons] at h
      rcases Nat.eq_zero_or_pos place with rfl | hpos
      · exact ⟨[], c :: cs, rfl, rfl⟩
      rcases Nat.lt_or_ge place c.utf8Size with hlt | hge
      · rw [isBoundary_inside c _ hpos hlt] at h
        exact absurd h (by simp)
      · obtain ⟨rest, rfl⟩ := Nat.exists_eq_add_of_le hge
        rw [← String.length_utf8EncodeChar, isBoundary_append] at h
        obtain ⟨before, after, rfl, rfl⟩ := ih h
        exact ⟨c :: before, after, rfl, by simp⟩
  · rintro ⟨before, after, rfl, rfl⟩
    have h := isBoundary_append (bytesOf before) (bytesOf after) 0
    rwa [Nat.add_zero, isBoundary_zero, ← bytesOf_append] at h

/-! ## Finding them -/

/-- Stepping back ends at a boundary with none between it and the place, or at the front. -/
theorem lastBoundary_eq {last : Nat} (hlast : last = 0 ∨ isBoundary bytes last = true)
    (hle : last ≤ place) (hnone : ∀ n, last < n → n ≤ place → isBoundary bytes n = false) :
    lastBoundary bytes place = last := by
  induction place with
  | zero => exact (Nat.le_zero.mp hle).symm
  | succ place ih =>
    rw [lastBoundary]
    rcases Nat.eq_or_lt_of_le hle with rfl | hlt
    · rw [if_pos (hlast.resolve_left (Nat.succ_ne_zero _))]
    · rw [hnone _ hlt (Nat.le_refl _), if_neg (by simp)]
      exact ih (Nat.le_of_lt_succ hlt) fun n hn hnp => hnone n hn (Nat.le_succ_of_le hnp)

/-- The character at the front of a text has as many bytes as come before the next boundary. -/
theorem frontLength_bytesOf (c : Char) (cs : List Char) : frontLength (bytesOf (c :: cs)) = c.utf8Size := by
  obtain ⟨a, tail, hbytes, -, htail, -⟩ := (spells_encodeChar c).tails
  have hnext : (bytesOf cs).takeWhile isTail = [] := by
    cases cs with
    | nil => rfl
    | cons d cs =>
      obtain ⟨b, rest, hb, hfirst, -, -⟩ := (spells_encodeChar d).tails
      rw [bytesOf_cons, hb, List.cons_append, List.takeWhile_cons_of_neg (by simp [hfirst])]
  rw [frontLength, bytesOf_cons, hbytes, List.cons_append, List.tail_cons,
    List.takeWhile_append_of_pos htail, hnext, List.append_nil, ← String.length_utf8EncodeChar, hbytes,
    List.length_cons, Nat.add_comm]

end EventUpload.Utf8
