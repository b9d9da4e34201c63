import Mathlib
import EventUpload.Proofs.Output.Remainder
import EventUpload.Proofs.Output.Taking
import EventUpload.Proofs.Text.Ending

/-!
# Output that comes in pieces

A program may write any bytes, in pieces that end anywhere, and after each of them everything that can
be taken is taken. The beginning of a character at the very end of a piece should wait for the next one.
It does so as long as nothing is broken before it (`Utf8.Sound`), and then the texts that are taken are
what the bytes amount to, however they were cut: `endings_wait`. But behind bytes that are no character
it does not wait: it is taken at once, as a replacement, and what is written next has lost its beginning
(`not_kept_brokenOutput`).

The reason is where the search for the complete part stops. It reads characters from the front, and when
it comes to bytes that are no character it stops looking and counts everything as complete, the ending
included. `TakenAtOnce.kept` has the exact condition for bytes that come at once: the ending stays if
and only if nothing is broken before it, or there is none.

In pieces it depends on where they are cut. What is broken does harm only to an ending that is held
together with it. If it came in an earlier piece it has been taken by then, and so the hypothesis of
`endings_wait` is about each piece and what is held in front of it, and not about all bytes.
-/

set_option autoImplicit false

namespace EventUpload

/-- Takes what is held each time that a piece has been written: all the chunks, and the bytes that
stay. -/
def takeEach (size : Nat) (held : List UInt8) : List (List UInt8) → List String × List UInt8
  | [] => ([], held)
  | piece :: pieces =>
    let (chunks, held) := takeHeld size (held ++ piece)
    let (more, held) := takeEach size held pieces
    (chunks ++ more, held)

/-- Bytes in which nothing is broken, or which end with nothing that would have to wait. -/
def Utf8.Sound (bytes : List UInt8) : Prop := Intact bytes ∨ Utf8.Ending bytes []

open Utf8

variable {held init part : List UInt8} {pieces : List (List UInt8)}

/-! ## Taking once -/

theorem join_takeHeld (size : Nat) (held : List UInt8) :
    String.join (takeHeld size held).1 = wholeText held := join_textChunks size _

theorem takeHeld_of_broken (size : Nat) (h : ¬Intact held) :
    (takeHeld size held).2 = [] ∧ String.join (takeHeld size held).1 = decodeLossy held := by
  have hcomplete := completePart_of_broken h
  rw [join_takeHeld, wholeText, hcomplete, List.take_length, takeHeld, hcomplete, List.drop_length]
  exact ⟨rfl, rfl⟩

/-- Of sound bytes everything is taken but their ending. -/
theorem takeHeld_of_sound (size : Nat) (h : Sound held) : (takeHeld size held).2 = ending held ∧
    String.join (takeHeld size held).1 = .ofList (beforeEnding held) := by
  by_cases hintact : Intact held
  · rw [join_takeHeld]
    exact completePart_of_intact hintact
  · have hnone : ending held = [] :=
      ((ending_spec held).unique (h.resolve_left hintact))
    have htext := lossyChars_eq held
    rw [hnone, if_pos rfl, List.append_nil] at htext
    obtain ⟨hleft, htaken⟩ := takeHeld_of_broken size hintact
    rw [hleft, htaken, hnone, decodeLossy, htext]
    exact ⟨rfl, rfl⟩

/-! ## Taking again and again -/

/-- However sound bytes are cut, everything is taken but the ending of the whole. What is held between
two pieces is the beginning of a character, and the next piece is read behind it. -/
theorem takeEach_of_sound (size : Nat) (hheld : Begins held)
    (hsound : ∀ before piece after, pieces = before ++ piece :: after →
      Sound (ending (held ++ before.flatten) ++ piece)) :
    (takeEach size held pieces).2 = ending (held ++ pieces.flatten) ∧
      String.join (takeEach size held pieces).1 = .ofList (beforeEnding (held ++ pieces.flatten)) := by
  induction pieces generalizing held with
  | nil =>
    rw [List.flatten_nil, List.append_nil, ending_of_begins hheld, beforeEnding_of_begins hheld]
    exact ⟨rfl, rfl⟩
  | cons piece pieces ih =>
    have hfirst := hsound [] piece pieces rfl
    rw [List.flatten_nil, List.append_nil, ending_of_begins hheld] at hfirst
    obtain ⟨hleft, htaken⟩ := takeHeld_of_sound size hfirst
    have hbegins := (ending_spec (held ++ piece)).begins
    have hread (more : List UInt8) := reading_append (held ++ piece) more
    rw [← hleft] at hbegins
    obtain ⟨hlast, htexts⟩ := ih hbegins fun before piece' after heq => by
      have hlater := hsound (piece :: before) piece' after (by rw [heq]; rfl)
      rw [List.flatten_cons, ← List.append_assoc, (hread _).1] at hlater
      rwa [hleft]
    rw [List.flatten_cons, ← List.append_assoc, (hread _).1, (hread _).2, ← hleft, takeEach]
    refine ⟨hlast, ?_⟩
    show String.join (_ ++ _) = _
    rw [String.join_append, htaken, htexts, String.ofList_append]

/-! ## The result -/

/-- What is taken at once of bytes that are `init` and then their ending. -/
structure TakenAtOnce (size : Nat) (init part : List UInt8) : Prop where
  /-- The ending stays exactly if nothing is broken before it, or there is none. -/
  kept : (takeHeld size (init ++ part)).2 = part ↔ Intact (init ++ part) ∨ part = []
  /-- Then the text is that of all bytes before it. -/
  text : (takeHeld size (init ++ part)).2 = part →
    String.join (takeHeld size (init ++ part)).1 = decodeLossy init
  /-- Otherwise nothing stays, and the text has a replacement for the ending. -/
  lost : (takeHeld size (init ++ part)).2 ≠ part → (takeHeld size (init ++ part)).2 = [] ∧
    String.join (takeHeld size (init ++ part)).1 = decodeLossy init ++ .singleton replacement
  /-- What stays does so until somebody writes. -/
  waits : takeHeld size (takeHeld size (init ++ part)).2 = ([], (takeHeld size (init ++ part)).2)

theorem takenAtOnce (size : Nat) (hending : Utf8.Ending (init ++ part) part) :
    TakenAtOnce size init part := by
  have hpart : ending (init ++ part) = part := (ending_spec _).unique hending
  have hinit : lossyChars init = beforeEnding (init ++ part) := lossyChars_of_ending (by rw [hpart])
  by_cases hsound : Intact (init ++ part) ∨ part = []
  · obtain ⟨hleft, htaken⟩ := takeHeld_of_sound size
      (hsound.imp_right fun (h : part = []) => by rw [← h]; exact hending)
    rw [hpart] at hleft
    refine ⟨iff_of_true hleft hsound, fun _ => ?_, fun hne => absurd hleft hne, takeHeld_takeHeld _ _⟩
    rw [htaken, decodeLossy, hinit]
  · obtain ⟨hbroken, hne⟩ := not_or.mp hsound
    obtain ⟨hleft, htaken⟩ := takeHeld_of_broken size hbroken
    have hnot : (takeHeld size (init ++ part)).2 ≠ part := by
      rw [hleft]
      exact fun h => hne h.symm
    refine ⟨iff_of_false hnot hsound, fun h => absurd h hnot, fun _ => ⟨hleft, ?_⟩,
      takeHeld_takeHeld _ _⟩
    rw [htaken, decodeLossy, lossyChars_eq, hpart, if_neg hne, decodeLossy, hinit, String.ofList_append]
    rfl

/-- **The beginning of a character waits for its rest, unless something is broken before it.** Any
bytes are `init` and their ending `part`. If they come at once, the ending stays exactly if nothing is
broken before it. If they come in pieces, and whatever comes before an ending in what is held after a
piece is whole, the texts are that of `init` and the ending stays, however they were cut. -/
theorem endings_wait (size : Nat) (hending : Utf8.Ending (init ++ part) part)
    (hpieces : pieces.flatten = init ++ part)
    (hsound : ∀ before piece after, pieces = before ++ piece :: after →
      ∀ rest, Utf8.Ending before.flatten rest → Sound (rest ++ piece)) :
    TakenAtOnce size init part ∧ String.join (takeEach size [] pieces).1 = decodeLossy init ∧
      (takeEach size [] pieces).2 = part := by
  have hpart : ending (init ++ part) = part := (ending_spec _).unique hending
  obtain ⟨hleft, htexts⟩ := takeEach_of_sound size begins_nil fun before piece after heq =>
    hsound before piece after heq _ (ending_spec _)
  rw [List.nil_append, hpieces] at hleft htexts
  refine ⟨takenAtOnce size hending, ?_, hleft.trans hpart⟩
  rw [htexts, decodeLossy, lossyChars_of_ending (by rw [hpart])]

/-- A broken byte and a letter, and then a sign of three bytes that comes in pieces, without the last
one. At once it would be lost, but what comes with it is whole. -/
theorem endings_wait_cutSign :
    let pieces : List (List UInt8) := [[0xFF, 0x41], [0xE2], [0x82]]
    TakenAtOnce 1 [0xFF, 0x41] [0xE2, 0x82] ∧
      String.join (takeEach 1 [] pieces).1 = decodeLossy [0xFF, 0x41] ∧
      (takeEach 1 [] pieces).2 = [0xE2, 0x82] := by
  intro pieces
  have hpieces : pieces.flatten = [0xFF, 0x41] ++ [0xE2, 0x82] := rfl
  refine endings_wait 1 (.of_eq (by cbv)) hpieces fun before piece after heq rest hends => ?_
  obtain rfl := (ending_spec before.flatten).unique hends
  rcases before with _ | ⟨first, _ | ⟨second, _ | ⟨third, before⟩⟩⟩
  · obtain ⟨rfl, -⟩ := List.cons.inj heq
    exact .inr (.of_eq (by cbv))
  · obtain ⟨rfl, hrest⟩ := List.cons.inj heq
    obtain ⟨rfl, -⟩ := List.cons.inj hrest
    exact .inl ⟨[], [0xE2], ⟨'€', 1, by decide, rfl⟩, by cbv⟩
  · obtain ⟨rfl, hrest⟩ := List.cons.inj heq
    obtain ⟨rfl, hlast⟩ := List.cons.inj hrest
    obtain ⟨rfl, -⟩ := List.cons.inj hlast
    exact .inl ⟨[], [0xE2, 0x82], ⟨'€', 2, by decide, rfl⟩, by cbv⟩
  · have hlength := congrArg List.length heq
    simp [pieces] at hlength

/-- A broken byte makes a sign that is cut behind it come out as replacements. -/
theorem not_kept_brokenOutput :
    Utf8.Ending [0xFF, 0xE2, 0x82] [0xE2, 0x82] ∧ (takeHeld 1 [0xFF, 0xE2, 0x82]).2 = [] ∧
      Utf8.Ending [0xFF, 0xE2, 0x82, 0xAC] [] ∧
      String.join (takeEach 1 [] [[0xFF, 0xE2, 0x82], [0xAC]]).1 = "\uFFFD\uFFFD\uFFFD" ∧
      decodeLossy [0xFF, 0xE2, 0x82, 0xAC] = "\uFFFD€" :=
  ⟨.of_eq (by cbv), by cbv, .of_eq (by cbv), by cbv, by cbv⟩

end EventUpload
