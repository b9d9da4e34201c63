import EventUpload.Output.Captured
import EventUpload.Proofs.Text.Utf8

/-!
# What is taken

Taking captured output neither loses nor invents anything: the chunks of a text put together are that
text, none of them is empty, and pairing the chunks of two streams only fills up the shorter list. So as
long as a stream holds the bytes of a text, cut short or not, what was taken of it and what it still
holds stay the same bytes (`Listener.take_keeps`).

Putting the pairs together gives back the chunks of each stream, since what the shorter list was filled
up with are empty texts (`join_pairChunks_out`, `join_pairChunks_err`). Empty texts are harmless for
what the texts amount to; that there is no event with two of them is `mem_of_mem_pairChunks`.
-/

set_option autoImplicit false

namespace EventUpload

/-! ## Chunks -/

theorem splitAtBytes_append (room : Nat) (cs : List Char) :
    (splitAtBytes room cs).1 ++ (splitAtBytes room cs).2 = cs := by
  induction cs generalizing room with
  | nil => rfl
  | cons c rest ih =>
    rw [splitAtBytes]
    split
    · exact congrArg (c :: ·) (ih _)
    · rfl

theorem flatten_chunks (size : Nat) (cs : List Char) : (chunks size cs).flatten = cs := by
  fun_induction chunks size cs with
  | case1 => rfl
  | case2 c rest split ih =>
    rw [List.flatten_cons, ih, List.cons_append, splitAtBytes_append]

theorem ne_nil_of_mem_chunks {size : Nat} {cs chunk : List Char} (h : chunk ∈ chunks size cs) :
    chunk ≠ [] := by
  fun_induction chunks size cs with
  | case1 => exact absurd h (by simp)
  | case2 c rest split ih =>
    rcases List.mem_cons.mp h with rfl | h
    · simp
    · exact ih h

theorem join_textChunks (size : Nat) (text : String) : String.join (textChunks size text) = text := by
  rw [← String.toList_inj, String.toList_join, textChunks, List.flatMap_map]
  simp only [String.toList_ofList, List.flatMap_id', flatten_chunks]

theorem ne_empty_of_mem_textChunks {size : Nat} {text chunk : String}
    (h : chunk ∈ textChunks size text) : chunk ≠ "" := by
  obtain ⟨cs, hcs, rfl⟩ := List.mem_map.mp h
  simpa using ne_nil_of_mem_chunks hcs

/-! ## Pairs of chunks -/

/-- The part of a pair of chunks that comes from one of the streams. -/
def OutputChannel.part : OutputChannel → String × String → String
  | .out, pair => pair.1
  | .err, pair => pair.2

namespace Listener

theorem join_pairChunks_out (outs errs : List String) :
    String.join ((pairChunks outs errs).map OutputChannel.out.part) = String.join outs := by
  fun_induction pairChunks outs errs <;> simp_all [OutputChannel.part, String.join_cons]

theorem join_pairChunks_err (outs errs : List String) :
    String.join ((pairChunks outs errs).map OutputChannel.err.part) = String.join errs := by
  fun_induction pairChunks outs errs <;> simp_all [OutputChannel.part, String.join_cons]

/-- A pair has a chunk of at least one of the streams. -/
theorem mem_of_mem_pairChunks {outs errs : List String} {pair : String × String}
    (h : pair ∈ pairChunks outs errs) : pair.1 ∈ outs ∨ pair.2 ∈ errs := by
  fun_induction pairChunks outs errs <;> grind

/-! ## Taking -/

theorem join_take (l : Listener) (channel : OutputChannel) :
    String.join (l.take.2.map channel.part) = Utf8.wholeText (l.held channel) := by
  cases channel with
  | out => exact (join_pairChunks_out _ _).trans (join_textChunks _ _)
  | err => exact (join_pairChunks_err _ _).trans (join_textChunks _ _)

theorem held_take (l : Listener) (channel : OutputChannel) :
    l.take.1.held channel = (l.held channel).drop (Utf8.completePart (l.held channel)) := by
  cases channel <;> rfl

/-- There is nothing to be taken of what is empty. -/
theorem take_empty (buffer chunk : Nat) :
    (Listener.empty buffer chunk).take = (.empty buffer chunk, []) := by
  have htake : takeHeld chunk [] = ([], []) := by
    simp [takeHeld, textChunks, Utf8.decodeLossy, Utf8.lossyChars, chunks]
  simp only [take, empty, htake, pairChunks]

theorem ne_empty_of_mem_take {l : Listener} {pair : String × String} (h : pair ∈ l.take.2) :
    pair.1 ≠ "" ∨ pair.2 ≠ "" :=
  (mem_of_mem_pairChunks h).imp ne_empty_of_mem_textChunks ne_empty_of_mem_textChunks

/-- **Taking keeps the bytes of a text together**: what is taken and what stays are what was held, and
only the beginning of a character stays. -/
theorem take_keeps (l : Listener) (channel : OutputChannel) {text : List Char}
    (h : l.held channel <+: Utf8.bytesOf text) :
    Utf8.encode (String.join (l.take.2.map channel.part)) ++ l.take.1.held channel = l.held channel ∧
      Utf8.Begins (l.take.1.held channel) := by
  obtain ⟨cs, part, hheld, hpart⟩ := Utf8.exists_begins h
  rw [join_take, held_take, hheld, Utf8.wholeText_bytesOf_append cs hpart,
    Utf8.completePart_bytesOf_append cs hpart, List.drop_left, Utf8.encode_eq, String.toList_ofList]
  exact ⟨rfl, hpart⟩

end Listener

end EventUpload
