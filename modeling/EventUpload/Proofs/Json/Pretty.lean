import EventUpload.Proofs.Json.RoundTrip

/-!
# Lines of readable JSON texts

The readable text of a value has one item or member per line. No such line begins with a dash: an item
and a member are indented, and what is not indented is a closing bracket (`indented_prettyChars`). So
whatever is written in front of a line of dashes, a payload is never mistaken for one. Line feeds of
strings are escaped, and numbers have none, real ones included.

`Indented` says so of characters, and it only speaks of lines that begin within the text: the first line
of a value stands behind whatever was written before it, and a negative number at the top does begin
with a dash. Whoever puts a payload behind a line of his own need not care. The rule for a line feed
asks for the character behind it to be there, so a text that ends with a line feed is not indented, and
none of these texts does.
-/

set_option autoImplicit false

namespace EventUpload.Json

/-- Every line feed is followed, within the text, by a character that is no dash. -/
inductive Indented : List Char → Prop
  | nil : Indented []
  | char {c : Char} {cs : List Char} (hc : c ≠ '\n') (h : Indented cs) : Indented (c :: cs)
  | line {c : Char} {cs : List Char} (hc : c ≠ '-') (h : Indented (c :: cs)) : Indented ('\n' :: c :: cs)

variable {cs ds : List Char}

theorem Indented.append (h : Indented cs) (hds : Indented ds) : Indented (cs ++ ds) := by
  induction h with
  | nil => exact hds
  | char hc _ ih => exact .char hc ih
  | line hc _ ih => exact .line hc ih

theorem indented_of_notMem (h : '\n' ∉ cs) : Indented cs := by
  induction cs with
  | nil => exact .nil
  | cons c cs ih =>
    rw [List.mem_cons, not_or] at h
    exact .char (Ne.symm h.1) (ih h.2)

/-- A line break below the outermost level. -/
theorem indented_lineBreak (level : Nat) : Indented (lineBreak (level + 1)) := by
  have hblanks : Indented (List.replicate (2 * level + 2) ' ') := indented_of_notMem (by simp)
  exact .line (by decide) hblanks

/-- A line that begins with a bracket, at any level. -/
theorem indented_lineBreak_append (level : Nat) {c : Char} (hc : c ≠ '-') (h : Indented (c :: cs)) :
    Indented (lineBreak level ++ c :: cs) := by
  cases level with
  | zero => exact .line hc h
  | succ level => exact (indented_lineBreak level).append h

/-! ## Items and members -/

theorem indented_prettyItems {level : Nat} {items : List Json}
    (h : ∀ v ∈ items, Indented (prettyChars (level + 1) v)) :
    Indented (prettyItems (level + 1) items) := by
  induction items with
  | nil => exact .nil
  | cons v items ih =>
    have hv : Indented (lineBreak (level + 1) ++ prettyChars (level + 1) v) :=
      (indented_lineBreak level).append (h v (by simp))
    cases items with
    | nil => exact hv
    | cons w items => exact hv.append (.char (by decide) (ih fun u hu => h u (List.mem_cons_of_mem _ hu)))

theorem indented_prettyMembers {level : Nat} {members : List (String × Json)}
    (h : ∀ m ∈ members, Indented (prettyChars (level + 1) m.2)) :
    Indented (prettyMembers (level + 1) members) := by
  induction members with
  | nil => exact .nil
  | cons m members ih =>
    obtain ⟨k, v⟩ := m
    have hkey : Indented (lineBreak (level + 1) ++ quote k) :=
      (indented_lineBreak level).append (indented_of_notMem (newline_notMem_quote k))
    have hv : Indented (prettyChars (level + 1) v) := h (k, v) (by simp)
    cases members with
    | nil => exact hkey.append (.char (by decide) (.char (by decide) hv))
    | cons n members =>
      have hmore := ih fun m hm => h m (List.mem_cons_of_mem _ hm)
      exact hkey.append (.char (by decide) (.char (by decide) (hv.append (.char (by decide) hmore))))

/-- **No line of a readable text begins with a dash**, at whatever level it is written. -/
theorem indented_prettyChars (v : Json) (level : Nat) : Indented (prettyChars level v) := by
  induction v generalizing level with
  | null => exact indented_of_notMem (newline_notMem_chars .null)
  | bool b => exact indented_of_notMem (newline_notMem_chars (.bool b))
  | num n => exact indented_of_notMem (newline_notMem_chars (.num n))
  | str s => exact indented_of_notMem (newline_notMem_chars (.str s))
  -- An empty container is written on one line. In any other the brackets stand on lines of their own.
  | arr items ih =>
    cases items with
    | nil => exact indented_of_notMem (newline_notMem_chars (.arr []))
    | cons v items =>
      have hitems : Indented (prettyItems (level + 1) (v :: items)) :=
        indented_prettyItems fun w hw => ih w hw (level + 1)
      have hclose : Indented (lineBreak level ++ [']']) :=
        indented_lineBreak_append level (by decide) (indented_of_notMem (by decide))
      rw [prettyChars.eq_2 _ _ (by simp), List.append_assoc]
      exact .char (by decide) (hitems.append hclose)
  | obj members ih =>
    cases members with
    | nil => exact indented_of_notMem (newline_notMem_chars (.obj []))
    | cons m members =>
      have hmembers : Indented (prettyMembers (level + 1) (m :: members)) :=
        indented_prettyMembers fun n hn => ih n hn (level + 1)
      have hclose : Indented (lineBreak level ++ ['}']) :=
        indented_lineBreak_append level (by decide) (indented_of_notMem (by decide))
      rw [prettyChars.eq_4 _ _ (by simp), List.append_assoc]
      exact .char (by decide) (hmembers.append hclose)

end EventUpload.Json
