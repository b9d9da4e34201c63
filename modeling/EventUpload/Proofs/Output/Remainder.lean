import EventUpload.Output.Captured

/-!
# What is left after taking

Taking captured output leaves at most the beginning of a character in each of the two streams. So there
is nothing more to be taken until somebody writes: `Listener.take_take`.

For bytes that are no text this needs an argument. What is left is the tail of some bytes from a place
on, and decoding had stopped at that place because the bytes ended there; decoding the tail by itself
has to stop at its front for the same reason (`decodeFrom_drop`). Nothing is left behind bytes that are
broken.
-/

set_option autoImplicit false

namespace EventUpload

namespace Utf8

/-- The beginning of a character that cuts some bytes short is all there is from there on. -/
theorem decodeFrom_drop {bytes : List UInt8} {offset n : Nat}
    (h : decodeFrom offset bytes = .error (.cut n)) :
    offset ≤ n ∧ decodeFrom 0 (bytes.drop (n - offset)) = .error (.cut 0) := by
  fun_induction decodeFrom offset bytes with
  | case1 offset => exact absurd h (by simp)
  | case2 offset a rest c more hf ih =>
    -- The rest after the character is where the cut is.
    cases hrest : decodeFrom (offset + 1 + more) (rest.drop more) with
    | ok cs =>
      rw [hrest] at h
      exact absurd h (by simp [bind, Except.bind, pure, Except.pure])
    | error f =>
      rw [hrest] at h
      obtain rfl : f = .cut n := by simpa [bind, Except.bind] using h
      obtain ⟨hle, hcut⟩ := ih hrest
      refine ⟨by omega, ?_⟩
      have hdrop : (a :: rest).drop (n - offset) =
          (rest.drop more).drop (n - (offset + 1 + more)) := by
        obtain ⟨k, rfl⟩ := Nat.exists_eq_add_of_le hle
        rw [Nat.add_sub_cancel_left, List.drop_drop,
          show offset + 1 + more + k - offset = (more + k) + 1 by omega, List.drop_succ_cons]
      rw [hdrop]
      exact hcut
  | case3 offset a rest more hf => exact absurd h (by simp)
  | case4 offset a rest hf =>
    obtain rfl : offset = n := by simpa using h
    refine ⟨Nat.le_refl _, ?_⟩
    rw [Nat.sub_self, List.drop_zero, decodeFrom, hf]

/-- What comes after the complete part has no complete part. -/
theorem completePart_drop (bytes : List UInt8) :
    completePart (bytes.drop (completePart bytes)) = 0 := by
  have hnil : completePart [] = 0 := by rw [completePart, decodeFrom]; rfl
  unfold completePart
  cases h : decodeFrom 0 bytes with
  | ok cs =>
    rw [List.drop_length]
    exact hnil
  | error f =>
    cases f with
    | broken length offset =>
      rw [List.drop_length]
      exact hnil
    | cut n =>
      have hcut := (decodeFrom_drop h).2
      rw [Nat.sub_zero] at hcut
      simp only [hcut]

end Utf8

theorem takeHeld_takeHeld (size : Nat) (held : List UInt8) :
    takeHeld size (takeHeld size held).2 = ([], (takeHeld size held).2) := by
  have hempty : textChunks size (Utf8.decodeLossy []) = [] := by
    rw [Utf8.decodeLossy, Utf8.lossyChars, textChunks, String.toList_ofList, chunks]
    rfl
  simp only [takeHeld, Utf8.completePart_drop, List.take_zero, List.drop_zero, hempty]

/-- Nothing is left to be taken right after everything was. -/
theorem Listener.take_take (l : Listener) : l.take.1.take = (l.take.1, []) := by
  simp only [take, takeHeld_takeHeld, pairChunks]

end EventUpload
