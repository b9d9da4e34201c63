import Mathlib.Data.List.Chain
import EventUpload.Proofs.Output.Taking
import EventUpload.Proofs.Text.Boundary

/-!
# How texts are cut

The chunks of a text are as long as they can be: whole characters of at most so many bytes, or a single
character that has more, and the first character of the next chunk would not have fitted
(`chunked_textChunks`). They are also what comes of cutting the bytes of the text without a look at its
characters (`byteChunks`): a cut is where stepping back from the end of the room ends, at a boundary, or
behind the first character if it ends at the front.

The definition that runs goes over characters and adds up their lengths. `byteChunks` is the other way
to say it, with a place in the bytes that is moved back until it is a boundary, and `cutPlace_bytesOf`
is where the two meet: if there is room for the first character they find the same place, and if there
is none both take this character, which is why chunks may be longer than the size.

A size of nothing would leave no room for anything, and is counted as one. Chunks are never empty, so
their number is bounded by the number of characters (`Chunked.length_le`); that is how it is seen that
the cutting comes to an end.
-/

set_option autoImplicit false

namespace EventUpload

open Utf8

/-! ## Cutting bytes

The place to cut is found from the end of the room, going back over bytes that continue a character. -/

/-- Where the first chunk of some bytes ends: at the last boundary that there is room for, or behind the
first character if that needs more room. -/
def cutPlace (size : Nat) (bytes : List UInt8) : Nat :=
  match lastBoundary bytes (min size bytes.length) with
  | 0 => frontLength bytes
  | place + 1 => place + 1

theorem cutPlace_pos (size : Nat) (bytes : List UInt8) : 0 < cutPlace size bytes := by
  rw [cutPlace]
  split
  · exact Nat.lt_of_lt_of_le Nat.one_pos (Nat.le_add_right _ _)
  · exact Nat.succ_pos _

/-- The chunks of some bytes, one cut after the other. -/
def byteChunks (size : Nat) : List UInt8 → List (List UInt8)
  | [] => []
  | b :: rest =>
    let place := cutPlace size (b :: rest)
    (b :: rest).take place :: byteChunks size ((b :: rest).drop place)
termination_by bytes => bytes.length
decreasing_by
  have := cutPlace_pos size (b :: rest)
  simp only [List.length_drop, List.length_cons]
  omega

/-! ## One chunk -/

variable {size room : Nat} {c d : Char} {rest more cs : List Char}

theorem length_splitAtBytes_le_room (room : Nat) (cs : List Char) :
    (bytesOf (splitAtBytes room cs).1).length ≤ room := by
  induction cs generalizing room with
  | nil => exact Nat.zero_le _
  | cons c cs ih =>
    rw [splitAtBytes]
    split
    next hfits =>
      have := ih (room - c.utf8Size)
      simp only [bytesOf_cons, List.length_append, String.length_utf8EncodeChar]
      omega
    next => exact Nat.zero_le _

/-- The first character that is left over has no room. -/
theorem room_lt_of_splitAtBytes (h : (splitAtBytes room cs).2 = d :: more) :
    room < (bytesOf (splitAtBytes room cs).1).length + d.utf8Size := by
  induction cs generalizing room with
  | nil => exact absurd h (by simp [splitAtBytes])
  | cons c cs ih =>
    rw [splitAtBytes] at h ⊢
    split at h
    next hfits =>
      have := ih h
      simp only [if_pos hfits, bytesOf_cons, List.length_append, String.length_utf8EncodeChar]
      omega
    next hfull =>
      obtain ⟨rfl, -⟩ := List.cons.inj h
      simp only [if_neg hfull, bytesOf_nil, List.length_nil]
      omega

theorem splitAtBytes_zero (cs : List Char) : splitAtBytes 0 cs = ([], cs) := by
  cases cs with
  | nil => rfl
  | cons c cs => rw [splitAtBytes, if_neg (Nat.not_le_of_lt c.utf8Size_pos)]

/-- The first chunk of a text that begins with some character. -/
def firstChunk (size : Nat) (c : Char) (rest : List Char) : List Char :=
  c :: (splitAtBytes (size - c.utf8Size) rest).1

/-- What comes behind the first chunk. -/
def afterFirst (size : Nat) (c : Char) (rest : List Char) : List Char :=
  (splitAtBytes (size - c.utf8Size) rest).2

theorem chunks_cons (size : Nat) (c : Char) (rest : List Char) :
    chunks size (c :: rest) = firstChunk size c rest :: chunks size (afterFirst size c rest) := by
  rw [chunks]
  rfl

theorem firstChunk_append (size : Nat) (c : Char) (rest : List Char) :
    firstChunk size c rest ++ afterFirst size c rest = c :: rest :=
  congrArg (c :: ·) (splitAtBytes_append _ rest)

theorem length_firstChunk (size : Nat) (c : Char) (rest : List Char) :
    (bytesOf (firstChunk size c rest)).length =
      c.utf8Size + (bytesOf (splitAtBytes (size - c.utf8Size) rest).1).length := by
  rw [firstChunk, bytesOf_cons, List.length_append, String.length_utf8EncodeChar]

/-- The first chunk has room, or it is a single character that has none. -/
theorem firstChunk_fits (size : Nat) (c : Char) (rest : List Char) :
    (bytesOf (firstChunk size c rest)).length ≤ size ∨
      firstChunk size c rest = [c] ∧ size < c.utf8Size := by
  rcases Nat.lt_or_ge size c.utf8Size with hlt | hge
  · right
    rw [firstChunk, Nat.sub_eq_zero_of_le (Nat.le_of_lt hlt), splitAtBytes_zero]
    exact ⟨rfl, hlt⟩
  · left
    have := length_splitAtBytes_le_room (size - c.utf8Size) rest
    rw [length_firstChunk]
    omega

/-- The character behind the first chunk would not have fitted. -/
theorem size_lt_of_afterFirst (h : afterFirst size c rest = d :: more) :
    size < (bytesOf (firstChunk size c rest)).length + d.utf8Size := by
  have := room_lt_of_splitAtBytes h
  rw [length_firstChunk]
  omega

theorem length_firstChunk_pos (size : Nat) (c : Char) (rest : List Char) :
    0 < (bytesOf (firstChunk size c rest)).length := by
  rw [length_firstChunk]
  exact Nat.add_pos_left c.utf8Size_pos _

/-- If there is room for the first character, the last boundary that there is room for is the end of the
first chunk. -/
theorem lastBoundary_of_fits (hfits : (bytesOf (firstChunk size c rest)).length ≤ size) :
    lastBoundary (bytesOf (c :: rest)) (min size (bytesOf (c :: rest)).length) =
      (bytesOf (firstChunk size c rest)).length := by
  rw [← firstChunk_append size c rest]
  refine lastBoundary_eq (.inr (isBoundary_iff.mpr ⟨_, _, rfl, rfl⟩)) ?le fun n hn hle => ?none
  case le =>
    rw [bytesOf_append, List.length_append]
    omega
  case none =>
    cases hafter : afterFirst size c rest with
    | nil =>
      -- The text ends with the chunk.
      rw [hafter, List.append_nil] at hle
      omega
    | cons d more =>
      have := size_lt_of_afterFirst hafter
      exact isBoundary_between d more hn (by omega)

/-- If there is none, stepping back ends at the front. -/
theorem lastBoundary_of_lt (hlt : size < c.utf8Size) :
    lastBoundary (bytesOf (c :: rest)) (min size (bytesOf (c :: rest)).length) = 0 :=
  lastBoundary_eq (.inl rfl) (Nat.zero_le _) fun n hn hle =>
    isBoundary_inside c (bytesOf rest) hn (by omega)

/-- **Stepping back finds the first cut.** -/
theorem cutPlace_bytesOf (size : Nat) (c : Char) (rest : List Char) :
    cutPlace size (bytesOf (c :: rest)) = (bytesOf (firstChunk size c rest)).length := by
  rcases firstChunk_fits size c rest with hfits | ⟨hsingle, hlt⟩
  · have hpos := length_firstChunk_pos size c rest
    rw [cutPlace, lastBoundary_of_fits hfits]
    split
    next hzero => exact absurd hzero (Nat.ne_of_gt hpos)
    next place heq => exact heq.symm
  · rw [cutPlace, lastBoundary_of_lt hlt, frontLength_bytesOf, hsingle, bytesOf_cons, bytesOf_nil,
      List.append_nil, String.length_utf8EncodeChar]

/-! ## All chunks -/

theorem byteChunks_of_ne_nil {bytes : List UInt8} (h : bytes ≠ []) : byteChunks size bytes =
    bytes.take (cutPlace size bytes) :: byteChunks size (bytes.drop (cutPlace size bytes)) := by
  cases bytes with
  | nil => exact absurd rfl h
  | cons b rest => rw [byteChunks]

/-- **Cutting the bytes of a text** gives the bytes of its chunks. -/
theorem byteChunks_bytesOf (size : Nat) (cs : List Char) :
    byteChunks size (bytesOf cs) = (chunks size cs).map bytesOf := by
  fun_induction chunks size cs with
  | case1 => rw [bytesOf_nil, byteChunks, List.map_nil]
  | case2 c rest split ih =>
    have hne : bytesOf (c :: rest) ≠ [] := by simp [String.utf8EncodeChar_ne_nil]
    show _ = bytesOf (firstChunk size c rest) :: (chunks size (afterFirst size c rest)).map bytesOf
    rw [byteChunks_of_ne_nil hne, cutPlace_bytesOf, ← firstChunk_append size c rest, bytesOf_append,
      List.take_left, List.drop_left]
    exact congrArg (_ :: ·) ih

theorem length_chunks_le (size : Nat) (cs : List Char) : (chunks size cs).length ≤ cs.length := by
  fun_induction chunks size cs with
  | case1 => exact Nat.le_refl _
  | case2 c rest split ih =>
    exact Nat.succ_le_succ (Nat.le_trans ih (length_splitAtBytes_le _ rest))

theorem fits_of_mem_chunks {chunk : List Char} (h : chunk ∈ chunks size cs) :
    (bytesOf chunk).length ≤ size ∨ ∃ c, chunk = [c] ∧ size < c.utf8Size := by
  fun_induction chunks size cs with
  | case1 => exact absurd h List.not_mem_nil
  | case2 c rest split ih =>
    rcases List.mem_cons.mp h with rfl | h
    · exact (firstChunk_fits size c rest).imp_right fun hsingle => ⟨c, hsingle⟩
    · exact ih h

/-- The first character of a chunk would not have fitted into the chunk before. -/
theorem isChain_chunks (size : Nat) (cs : List Char) : (chunks size cs).IsChain fun chunk next =>
    ∀ d more, next = d :: more → size < (bytesOf chunk).length + d.utf8Size := by
  fun_induction chunks size cs with
  | case1 => exact .nil
  | case2 c rest split ih =>
    refine List.isChain_cons.mpr ⟨fun next hnext d more heq => ?_, ih⟩
    cases hafter : split.2 with
    | nil =>
      rw [hafter, chunks] at hnext
      exact absurd hnext (by simp)
    | cons e after =>
      -- The next chunk begins with the character that is left over.
      rw [hafter, chunks_cons] at hnext
      obtain rfl := Option.some.inj hnext
      obtain ⟨rfl, -⟩ := List.cons.inj heq
      exact size_lt_of_afterFirst hafter

/-! ## The result -/

/-- A text that is cut into chunks of at most so many bytes. -/
structure Chunked (size : Nat) (text : String) (parts : List String) : Prop where
  nonempty : ∀ part ∈ parts, part ≠ ""
  /-- Every cut takes at least a character, so the text is used up at last. -/
  length_le : parts.length ≤ text.length
  whole : String.join parts = text
  /-- Every chunk begins and ends at a boundary. -/
  boundaries : ∀ before after, parts = before ++ after →
    isBoundary (encode text) (String.join before).utf8ByteSize = true
  /-- A chunk has room, or it is a single character that has none. -/
  fits : ∀ part ∈ parts, part.utf8ByteSize ≤ size ∨ ∃ c, part = .singleton c ∧ size < c.utf8Size
  /-- With the first character of the next chunk a chunk would have no room. -/
  maximal : parts.IsChain fun part next =>
    ∀ c more, next = .ofList (c :: more) → size < part.utf8ByteSize + c.utf8Size
  /-- The cuts are found by stepping back in the bytes. -/
  cuts : parts.map encode = byteChunks size (encode text)

/-- **The chunks of a text** are as long as they can be. -/
theorem chunked_textChunks (size : Nat) (text : String) :
    Chunked (max size 1) text (textChunks size text) where
  nonempty part hpart := ne_empty_of_mem_textChunks hpart
  length_le := by
    rw [textChunks, List.length_map, ← String.length_toList]
    exact length_chunks_le _ _
  whole := join_textChunks size text
  boundaries before after heq := by
    rw [← join_textChunks size text, heq, String.join_append, encode_eq, String.toList_append,
      ← length_encode, encode_eq]
    exact isBoundary_iff.mpr ⟨_, _, rfl, rfl⟩
  fits part hpart := by
    obtain ⟨chunk, hchunk, rfl⟩ := List.mem_map.mp hpart
    rw [← length_bytesOf]
    rcases fits_of_mem_chunks hchunk with hfits | ⟨c, rfl, hlt⟩
    · exact .inl hfits
    · exact .inr ⟨c, String.singleton_eq_ofList.symm, hlt⟩
  maximal := by
    refine (List.isChain_map _).mpr ((isChain_chunks _ _).imp fun chunk next hnext c more heq => ?_)
    rw [← length_bytesOf]
    exact hnext c more (String.ofList_inj.mp heq)
  cuts := by
    rw [encode_eq, byteChunks_bytesOf, textChunks, List.map_map]
    exact List.map_congr_left fun chunk _ => by simp [encode_eq]

end EventUpload
