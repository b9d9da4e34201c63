import Mathlib.Data.List.Infix
import EventUpload.Event.Encoding
import EventUpload.Proofs.Json.Pretty
import EventUpload.Proofs.Text.Utf8

/-!
# Blocks of readable event files

Every block of a readable file ends with a line of three dashes, which separates it from the next one. A
payload never has such a line, and neither have the names and numbers of a block. Kind and time are
written as they are, so that a line of theirs may be one: `dashLines` counts these lines, and a file has
one more separator for each of them (`separators_file`). Splitting a file at its separators, as `pieces`
does from the left, gives back its blocks if there are none, and only then (`textFile_split`).

A separator is a line feed, three dashes and a line feed. Two of them may share a line feed, as in a
kind that has two lines of dashes in a row, so the number of places where one stands and the number of
pieces that splitting finds are different things. They agree if no piece has a separator inside it, and
the theorem says when that is.

The first line of a kind or a time is not counted: it stands behind its label, on the same line. What
stands behind the last line of a kind is the label of the time and behind that of the time another
label, none of which begins with a dash, so these lines are whole lines of the file.
-/

set_option autoImplicit false

namespace EventUpload.TextFile

open Json (Indented)

/-- A line of three dashes, with the line feed in front of it. -/
def separator : List Char := ['\n', '-', '-', '-', '\n']

/-- In how many places of a text a separator stands. -/
def separators (cs : List Char) : Nat := cs.tails.countP (separator <+: ·)

/-- What is between the separators of a text, found from the left. -/
def pieces : List Char → List (List Char)
  | [] => [[]]
  | c :: cs =>
    if separator <+: c :: cs then [] :: pieces (cs.drop 4)
    else (pieces cs).modifyHead (c :: ·)
termination_by cs => cs.length
decreasing_by all_goals simp only [List.length_drop, List.length_cons]; omega

/-- How many lines of a text consist of three dashes, the first line aside. -/
def dashLines (text : String) : Nat := (text.toList.splitOn '\n').tail.count ['-', '-', '-']

/-- The lines of kind and time that look like the end of a block. -/
def hidden (e : Event) : Nat := dashLines e.kind + dashLines e.time

variable {c : Char} {cs t rest : List Char}

/-! ## Counting separators

Separators are counted place by place before anything is split. A line feed divides the places, so a
text can be counted line by line. -/

@[simp] theorem separators_nil : separators [] = 0 := rfl

theorem separators_cons (c : Char) (cs : List Char) :
    separators (c :: cs) = separators cs + if separator <+: c :: cs then 1 else 0 := by
  simp only [separators, List.tails_cons, List.countP_cons, decide_eq_true_eq]

/-- Separators are found from the start of their line. -/
theorem separators_cons_of_ne (h : ¬separator <+: c :: cs) : separators (c :: cs) = separators cs := by
  rw [separators_cons, if_neg h, Nat.add_zero]

theorem not_separator_of_ne (h : c ≠ '\n') : ¬separator <+: c :: cs := fun hstarts =>
  h (List.cons_prefix_cons.mp hstarts).1.symm

theorem not_separator_of_dash (h : c ≠ '-') : ¬separator <+: '\n' :: c :: cs := fun hstarts =>
  h (List.cons_prefix_cons.mp (List.cons_prefix_cons.mp hstarts).2).1.symm

theorem separators_le_append (t rest : List Char) : separators rest ≤ separators (t ++ rest) := by
  induction t with
  | nil => exact Nat.le_refl _
  | cons c t ih =>
    rw [List.cons_append, separators_cons]
    omega

/-- No separator begins in a text none of whose lines begins with a dash. -/
theorem separators_indented (h : Indented t) (rest : List Char) :
    separators (t ++ rest) = separators rest := by
  induction h with
  | nil => rfl
  | char hc _ ih => rwa [List.cons_append, separators_cons_of_ne (not_separator_of_ne hc)]
  | line hc _ ih => rwa [List.cons_append, List.cons_append,
      separators_cons_of_ne (not_separator_of_dash hc)]

/-- A separator that begins before a line feed is over with it. -/
theorem separator_prefix_append_iff (c : Char) (t rest : List Char) :
    separator <+: c :: (t ++ '\n' :: rest) ↔ separator <+: c :: (t ++ ['\n']) := by
  match t with
  | [] | [_] | [_, _] | [_, _, _] | _ :: _ :: _ :: _ :: _ => simp [separator]

/-- A line feed divides the separators of a text. -/
theorem separators_append_newline (t rest : List Char) :
    separators (t ++ '\n' :: rest) = separators (t ++ ['\n']) + separators ('\n' :: rest) := by
  induction t with
  | nil => simp [separators_cons, separator]
  | cons c t ih =>
    simp only [List.cons_append, separators_cons c, separator_prefix_append_iff c t rest, ih]
    omega

theorem separators_newline_cons (hc : c ≠ '-') (cs : List Char) :
    separators ('\n' :: c :: cs) = separators (c :: cs) :=
  separators_cons_of_ne (not_separator_of_dash hc)

/-! ## Lines of dashes

The places where a separator stands are the line feeds in front of a line of three dashes. A kind or a
time may have such lines, and they are counted the same way. -/

theorem splitOn_cons (c : Char) (cs : List Char) : (c :: cs).splitOn '\n' =
    if c = '\n' then [] :: cs.splitOn '\n' else (cs.splitOn '\n').modifyHead (c :: ·) := by
  simp only [List.splitOn, List.splitOnP_cons_eq_if_modifyHead, beq_iff_eq]

/-- The first line of a text, behind which comes a line feed. -/
theorem exists_splitOn (t : List Char) : ∃ line lines more, t.splitOn '\n' = line :: lines ∧
    t ++ ['\n'] = line ++ '\n' :: more ∧ '\n' ∉ line := by
  induction t with
  | nil => exact ⟨[], [], [], rfl, rfl, by simp⟩
  | cons c t ih =>
    obtain ⟨line, lines, more, hsplit, happend, hline⟩ := ih
    by_cases hc : c = '\n'
    · exact ⟨[], line :: lines, t ++ ['\n'], by rw [splitOn_cons, if_pos hc, hsplit], by simp [hc],
        by simp⟩
    · refine ⟨c :: line, lines, more, by rw [splitOn_cons, if_neg hc, hsplit]; rfl, ?_, ?_⟩
      · rw [List.cons_append, happend, List.cons_append]
      · simp [hline, Ne.symm hc]

/-- A separator begins where a line of three dashes does. -/
theorem separator_prefix_iff {line more : List Char} (h : '\n' ∉ line) :
    separator <+: '\n' :: (line ++ '\n' :: more) ↔ line = ['-', '-', '-'] := by
  rw [eq_comm]
  match line with
  | [] | [_] | [_, _] | [_, _, _] => simp [separator]
  | a :: b :: c :: d :: line =>
    simp only [List.mem_cons, not_or] at h
    simp [separator, h.2.2.2.1]

/-- The separators in a text with a line feed behind it are the lines of three dashes. -/
theorem separators_concat (t : List Char) :
    separators (t ++ ['\n']) = (t.splitOn '\n').tail.count ['-', '-', '-'] := by
  induction t with
  | nil => decide
  | cons c t ih =>
    obtain ⟨line, lines, more, hsplit, happend, hline⟩ := exists_splitOn t
    rw [hsplit] at ih
    by_cases hc : c = '\n'
    · have hseparator : separator <+: '\n' :: (t ++ ['\n']) ↔ line = ['-', '-', '-'] := by
        rw [happend, separator_prefix_iff hline]
      rw [splitOn_cons, if_pos hc, hsplit, List.cons_append, hc, separators_cons, ih, List.tail_cons,
        List.tail_cons, List.count_cons]
      simp only [hseparator, beq_iff_eq]
    · rw [splitOn_cons, if_neg hc, hsplit, List.cons_append,
        separators_cons_of_ne (not_separator_of_ne hc), ih]
      rfl

theorem separators_separator (rest : List Char) :
    separators (separator ++ rest) = separators ('\n' :: rest) + 1 := by
  have hdashes : Indented ['-', '-', '-'] := Json.indented_of_notMem (by decide)
  have hskip : separators ('-' :: '-' :: '-' :: '\n' :: rest) = separators ('\n' :: rest) :=
    separators_indented hdashes ('\n' :: rest)
  have hstarts : separator <+: '\n' :: '-' :: '-' :: '-' :: '\n' :: rest :=
    List.prefix_append separator rest
  rw [show separator ++ rest = '\n' :: '-' :: '-' :: '-' :: '\n' :: rest from rfl, separators_cons,
    if_pos hstarts, hskip]

/-- A text that is followed by a line with no dash in front. -/
theorem separators_text (text : String) (hc : c ≠ '-') (rest : List Char) :
    separators (text.toList ++ '\n' :: c :: rest) = dashLines text + separators (c :: rest) := by
  rw [separators_append_newline, separators_concat, separators_newline_cons hc, dashLines]

/-! ## Blocks

What is written of one event. The payload is indented, and the other parts behind the time begin with a
label, so only the kind and the time can have lines of dashes. -/

/-- A block without the separator at its end. -/
def body (e : Event) : List Char :=
  "sequence: ".toList ++ Nat.toDigits 10 e.sequence ++ "\ntype: ".toList ++ e.kind.toList
    ++ "\ntimestamp: ".toList ++ e.time.toList ++ "\n".toList
    ++ (if e.last then "last_message: true\n".toList else []) ++ "payload: ".toList
    ++ Json.prettyChars 0 e.payload

/-- The file of some events. -/
def file (events : List Event) : List Char := events.flatMap fun e => body e ++ separator

theorem toList_textBlock (e : Event) : (Encoding.textBlock e).toList = body e ++ separator := by
  have hnumber : (toString e.sequence).toList = Nat.toDigits 10 e.sequence := by
    rw [Nat.toString_eq_repr, Nat.repr_eq_ofList_toDigits, String.toList_ofList]
  have hmark : (if e.last then "last_message: true\n" else "").toList =
      if e.last then "last_message: true\n".toList else [] := by
    rw [apply_ite String.toList, String.toList_empty]
  have hpayload : e.payload.pretty.toList = Json.prettyChars 0 e.payload := String.toList_ofList
  have hseparator : "\n---\n".toList = separator := by decide
  unfold Encoding.textBlock body
  rw [String.toList_append, String.toList_append, hpayload, String.toList_append,
    String.toList_append, hmark, String.toList_append, String.toList_append, String.toList_append,
    String.toList_append, String.toList_append, String.toList_append, hnumber, hseparator]

theorem indented_payload (e : Event) :
    Indented ("payload: ".toList ++ Json.prettyChars 0 e.payload) :=
  (Json.indented_of_notMem (by decide)).append (Json.indented_prettyChars e.payload 0)

/-- What comes behind the time of a block. -/
theorem indented_tail (e : Event) : ∃ c cs, c ≠ '-' ∧ Indented (c :: cs) ∧
    (if e.last then "last_message: true\n".toList else []) ++ ("payload: ".toList ++
      Json.prettyChars 0 e.payload) = c :: cs := by
  have hpayload := indented_payload e
  cases e.last with
  | false => exact ⟨'p', _, by decide, hpayload, rfl⟩
  | true =>
    have hmark : Indented "last_message: true".toList := Json.indented_of_notMem (by decide)
    exact ⟨'l', _, by decide, hmark.append (.line (by decide) hpayload), rfl⟩

/-- A block has a separator at its end, and one for every hidden line. -/
theorem separators_block (e : Event) (rest : List Char) :
    separators (body e ++ (separator ++ rest)) = hidden e + 1 + separators ('\n' :: rest) := by
  have hnumber : Indented ("sequence: ".toList ++ Nat.toDigits 10 e.sequence ++ "\ntype: ".toList) :=
    ((Json.indented_of_notMem (by decide)).append
      (Json.indented_of_notMem (Json.newline_notMem_digits _))).append
        (.line (by decide) (Json.indented_of_notMem (by decide)))
  have htime : Indented ('t' :: "imestamp: ".toList) := Json.indented_of_notMem (by decide)
  obtain ⟨c, cs, hc, htail, heq⟩ := indented_tail e
  have hbody : body e ++ (separator ++ rest) =
      "sequence: ".toList ++ Nat.toDigits 10 e.sequence ++ "\ntype: ".toList ++ (e.kind.toList ++
        '\n' :: 't' :: ("imestamp: ".toList ++ (e.time.toList ++ '\n' :: (c :: cs ++
          (separator ++ rest))))) := by
    have hline : "\ntimestamp: ".toList = '\n' :: 't' :: "imestamp: ".toList := by decide
    have hbreak : "\n".toList = ['\n'] := by decide
    unfold body
    rw [← heq, hline, hbreak]
    simp only [List.append_assoc, List.cons_append, List.nil_append]
  rw [hbody, separators_indented hnumber, separators_text e.kind (by decide), ← List.cons_append,
    separators_indented htime, List.cons_append, separators_text e.time hc, ← List.cons_append,
    separators_indented htail, separators_separator, hidden]
  omega

/-! ## Files

A file is the blocks of its events, one after the other. -/

theorem file_cons (e : Event) (events : List Event) :
    file (e :: events) = body e ++ (separator ++ file events) := by
  rw [file, List.flatMap_cons, List.append_assoc, file]

/-- A block begins with a line of its own. -/
theorem separators_newline_file (events : List Event) :
    separators ('\n' :: file events) = separators (file events) := by
  cases events with
  | nil => decide
  | cons e events =>
    have hlabel : "sequence: ".toList = 's' :: "equence: ".toList := by decide
    rw [file_cons]
    unfold body
    rw [hlabel]
    exact separators_newline_cons (by decide) _

/-- A file has a separator for every block, and one for every hidden line. -/
theorem separators_file (events : List Event) :
    separators (file events) = events.length + (events.map hidden).sum := by
  induction events with
  | nil => rfl
  | cons e events ih =>
    rw [file_cons, separators_block, separators_newline_file, ih, List.length_cons, List.map_cons,
      List.sum_cons]
    omega

/-! ## Splitting

Splitting is defined for any text, without reference to blocks. It goes from the left and takes a
separator whole, so of two that share a line feed only the first is found. -/

theorem pieces_separator (rest : List Char) : pieces (separator ++ rest) = [] :: pieces rest := by
  have hstarts : separator <+: '\n' :: '-' :: '-' :: '-' :: '\n' :: rest :=
    List.prefix_append separator rest
  rw [show separator ++ rest = '\n' :: '-' :: '-' :: '-' :: '\n' :: rest from rfl, pieces,
    if_pos hstarts]
  rfl

theorem pieces_cons (h : ¬separator <+: c :: cs) :
    pieces (c :: cs) = (pieces cs).modifyHead (c :: ·) := by
  rw [pieces, if_neg h]

/-- A text with no separator in it but the one behind it is the first piece. -/
theorem pieces_append (h : separators (t ++ separator) = 1) (rest : List Char) :
    pieces (t ++ (separator ++ rest)) = t :: pieces rest := by
  induction t with
  | nil => exact pieces_separator rest
  | cons c t ih =>
    rw [List.cons_append, separators_cons] at h
    have hend : 1 ≤ separators (t ++ separator) := separators_le_append t separator
    have hnone : ¬separator <+: c :: (t ++ separator) := fun hstarts => by
      rw [if_pos hstarts] at h
      omega
    rw [if_neg hnone] at h
    have hfirst : ¬separator <+: c :: (t ++ (separator ++ rest)) := fun hstarts => by
      refine hnone (List.prefix_of_prefix_length_le hstarts ⟨rest, ?_⟩ ?_)
      · simp only [List.cons_append, List.append_assoc]
      · simp [separator]
    rw [List.cons_append, pieces_cons hfirst, ih h]
    rfl

/-- What is in front of the first separator. -/
theorem prefix_of_pieces {p q : List Char} {ps : List (List Char)} (h : pieces cs = p :: q :: ps) :
    p ++ separator <+: cs := by
  fun_induction pieces cs generalizing p q ps with
  | case1 => cases h
  | case2 c cs hstarts ih =>
    obtain rfl : [] = p := (List.cons.inj h).1
    exact hstarts
  | case3 c cs hnone ih =>
    obtain ⟨p', hp', rfl⟩ : ∃ p', pieces cs = p' :: q :: ps ∧ p = c :: p' := by
      cases hcs : pieces cs with
      | nil => rw [hcs] at h; cases h
      | cons p' ps' => rw [hcs] at h; cases h; exact ⟨p', rfl, rfl⟩
    exact List.cons_prefix_cons.mpr ⟨rfl, ih hp'⟩

theorem pieces_ne_nil (cs : List Char) : pieces cs ≠ [] := by
  fun_induction pieces cs with
  | case1 => exact List.cons_ne_nil _ _
  | case2 => exact List.cons_ne_nil _ _
  | case3 c cs hnone ih =>
    cases hcs : pieces cs with
    | nil => exact absurd hcs ih
    | cons => exact List.cons_ne_nil _ _

/-- The only separator in a piece and the separator behind it is that one. -/
theorem separators_of_mem_pieces {p : List Char} (h : p ∈ (pieces cs).dropLast) :
    separators (p ++ separator) = 1 := by
  fun_induction pieces cs generalizing p with
  | case1 => simp at h
  | case2 c cs hstarts ih =>
    rw [List.dropLast_cons_of_ne_nil (pieces_ne_nil _)] at h
    rcases List.mem_cons.mp h with rfl | h
    · decide
    · exact ih h
  | case3 c cs hnone ih =>
    match hcs : pieces cs with
    | [] => exact absurd hcs (pieces_ne_nil cs)
    | [q] => rw [hcs] at h; simp at h
    | q :: r :: ps =>
      rw [hcs] at h ih
      rcases List.mem_cons.mp h with rfl | h
      · have hq : ¬separator <+: c :: (q ++ separator) := fun hstarts =>
          hnone (hstarts.trans (List.cons_prefix_cons.mpr ⟨rfl, prefix_of_pieces hcs⟩))
        rw [List.cons_append, separators_cons_of_ne hq]
        exact ih List.mem_cons_self
      · exact ih (List.mem_cons_of_mem _ h)

/-! ## The theorem

The count is exact, so it also says when splitting gives the events back and when it does not. -/

theorem mapM_encode_text (events : List Event) : events.mapM Encoding.text.encode =
    .ok (events.map fun e => Utf8.bytesOf (body e ++ separator)) := by
  induction events with
  | nil => rfl
  | cons e events ih =>
    have he : Encoding.text.encode e = .ok (Utf8.bytesOf (body e ++ separator)) := by
      rw [← toList_textBlock]
      rfl
    rw [List.mapM_cons, he, ih]
    rfl

theorem decode_file (events : List Event) :
    Utf8.decode (events.map fun e => Utf8.bytesOf (body e ++ separator)).flatten =
      .ok (String.ofList (file events)) := by
  have hbytes : (events.map fun e => Utf8.bytesOf (body e ++ separator)).flatten =
      Utf8.encode (String.ofList (file events)) := by
    rw [Utf8.encode_eq, String.toList_ofList]
    induction events with
    | nil => rfl
    | cons e events ih =>
      rw [List.map_cons, List.flatten_cons, ih, file_cons]
      simp only [Utf8.bytesOf_append, List.append_assoc]
  rw [hbytes, Utf8.decode_encode]

/-- The only separator of a block is the one at its end if no line of it is hidden. -/
theorem separators_body (e : Event) : separators (body e ++ separator) = hidden e + 1 := by
  have h := separators_block e []
  rwa [List.append_nil, show separators ['\n'] = 0 by decide, Nat.add_zero] at h

theorem pieces_file {events : List Event} (h : ∀ e ∈ events, hidden e = 0) :
    pieces (file events) = events.map body ++ [[]] := by
  induction events with
  | nil => exact pieces.eq_1
  | cons e events ih =>
    have he : separators (body e ++ separator) = 1 := by rw [separators_body, h e (by simp)]
    rw [file_cons, pieces_append he, ih fun f hf => h f (List.mem_cons_of_mem _ hf)]
    rfl

/-- **A file of readable blocks** is the text of the blocks in order, each a text of its own with a
separator behind it. The file has one separator for each block, and one more for each line of a kind or
of a time, other than its first, that consists of three dashes. If there are no such lines, and only
then, splitting the file at its separators gives back the blocks in order, with nothing behind the last. -/
theorem textFile_split (events : List Event) : ∃ blocks encodings text,
    blocks.length = events.length ∧
    encodings = blocks.map (fun block => Utf8.bytesOf (block ++ separator)) ∧
    events.mapM Encoding.text.encode = .ok encodings ∧
    Utf8.decode encodings.flatten = .ok text ∧
    separators text.toList =
      events.length + (events.map fun e => dashLines e.kind + dashLines e.time).sum ∧
    (pieces text.toList = blocks ++ [[]] ↔
      ∀ e ∈ events, dashLines e.kind = 0 ∧ dashLines e.time = 0) := by
  refine ⟨events.map body, _, String.ofList (file events), List.length_map _, List.map_map.symm,
    mapM_encode_text events, decode_file events, ?_, ?_⟩
  · rw [String.toList_ofList]
    exact separators_file events
  · rw [String.toList_ofList]
    constructor
    · intro h e he
      have hmem : body e ∈ (pieces (file events)).dropLast := by
        rw [h, List.dropLast_concat]
        exact List.mem_map_of_mem he
      have hone := separators_of_mem_pieces hmem
      rw [separators_body, hidden] at hone
      omega
    · intro h
      exact pieces_file fun e he => by rw [hidden, (h e he).1, (h e he).2]

/-- The kind of this event has a line of three dashes, so that its file is split in the middle of its
only block. -/
theorem separators_not_one :
    let e : Event := ⟨0, "t", "a\n---\nb", .null, false⟩
    let text := "sequence: 0\ntype: a\n---\nb\ntimestamp: t\npayload: null\n---\n"
    ([e].mapM Encoding.text.encode = .ok [Utf8.encode text] ∧ separators text.toList = 2 ∧
      pieces text.toList =
        ["sequence: 0\ntype: a".toList, "b\ntimestamp: t\npayload: null".toList, []]) ∧
      ¬∀ (events : List Event) (encodings : List (List UInt8)) (text : String),
        events.mapM Encoding.text.encode = .ok encodings → Utf8.decode encodings.flatten = .ok text →
          separators text.toList = events.length := by
  intro e text
  have hblock : Encoding.textBlock e = text := by decide +kernel
  have hencode : [e].mapM Encoding.text.encode = .ok [Utf8.encode text] := by
    rw [← hblock]
    rfl
  have htwo : separators text.toList = 2 := by decide +kernel
  refine ⟨⟨hencode, htwo, by decide +kernel⟩, fun h => ?_⟩
  have hdecode : Utf8.decode [Utf8.encode text].flatten = .ok text := by
    rw [List.flatten_singleton, Utf8.decode_encode]
  have hone := h [e] _ text hencode hdecode
  rw [htwo] at hone
  exact absurd hone (by decide)

end EventUpload.TextFile
