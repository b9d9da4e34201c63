import EventUpload.Json.Record
import EventUpload.Proofs.Json.Tokens

/-!
# Values of JSON texts

A value without real numbers is read back from its compact text, as long as its containers are not
nested deeper than the reader admits (`ofText_compact`). Real numbers are left out because the reader
may miss the last place of a double. A value of the type `Json` may hold whole numbers that no text can
say and objects that no reader builds; `proper` are the values that programs hold.

The statement by induction on the value, `readValue_chars`, is about a text that goes on. Both kinds of
containers are read in a loop, whose state is the list of what has been read, so each loop has a
statement of its own about the rest of the items or members (`readItems_joined`, `readMembers_joined`).
A record is read in such a loop as well, but into a draft: `Fills` says which members lead from one
draft to another.

What may go on behind a value is limited by numbers alone: a digit behind a number would be taken for
more of it. Inside a container a value is followed by a comma or by the bracket that closes the
container, and `continuesNumber_joined` is the remark that both will do. At the top there is nothing
behind the value.

The loops of the reader run on a bound that is taken from the length of the text, as every item takes a
character at least (`lt_length_joined`), so for a text that was written the bound does not matter.

The compact text of a value is on one line (`newline_notMem_chars`), as strings escape their line feeds.
-/

set_option autoImplicit false

namespace EventUpload.Json

/-! ## Values by their structure

The recursor of `Json` has its own motives for lists of items and members. This form of it has
membership instead, which is how the other lemmas speak of containers. -/

/-- Values by their structure. -/
@[induction_eliminator]
theorem inductOn {P : Json → Prop} (null : P .null) (bool : ∀ b, P (.bool b)) (num : ∀ n, P (.num n))
    (str : ∀ s, P (.str s)) (arr : ∀ items, (∀ v ∈ items, P v) → P (.arr items))
    (obj : ∀ members, (∀ m ∈ members, P m.2) → P (.obj members)) : (v : Json) → P v
  | .null => null
  | .bool b => bool b
  | .num n => num n
  | .str s => str s
  | .arr items => arr items fun v _ => inductOn null bool num str arr obj v
  | .obj members => obj members fun m _ => inductOn null bool num str arr obj m.2
termination_by v => sizeOf v
decreasing_by
  · have := List.sizeOf_lt_of_mem ‹v ∈ items›
    simp only [Json.arr.sizeOf_spec]
    omega
  · have hm := List.sizeOf_lt_of_mem ‹m ∈ members›
    obtain ⟨k, v⟩ := m
    simp only [Json.obj.sizeOf_spec, Prod.mk.sizeOf_spec] at hm ⊢
    omega

mutual

/-- How deep the containers of a value are nested. -/
def depth : Json → Nat
  | .arr items => depthItems items + 1
  | .obj members => depthMembers members + 1
  | _ => 0

def depthItems : List Json → Nat
  | [] => 0
  | v :: rest => max (depth v) (depthItems rest)

def depthMembers : List (String × Json) → Nat
  | [] => 0
  | (_, v) :: rest => max (depth v) (depthMembers rest)

end

/-- The keys of members are in their order, and no two are the same. -/
def Sorted (members : List (String × Json)) : Prop := (members.map Prod.fst).Pairwise (· < ·)

instance (members : List (String × Json)) : Decidable (Sorted members) :=
  inferInstanceAs (Decidable (List.Pairwise _ _))

mutual

/-- A value as programs hold it: whole numbers of at most 64 bits, and the members of an object sorted
by their keys, one for each key. -/
def proper : Json → Bool
  | .num (.whole n) => decide (-2 ^ 63 ≤ n ∧ n < 2 ^ 64)
  | .arr items => properItems items
  | .obj members => decide (Sorted members) && properMembers members
  | _ => true

def properItems : List Json → Bool
  | [] => true
  | v :: rest => proper v && properItems rest

def properMembers : List (String × Json) → Bool
  | [] => true
  | (_, v) :: rest => proper v && properMembers rest

end

theorem properItems_eq (items : List Json) : properItems items = items.all proper := by
  induction items with
  | nil => rfl
  | cons v rest ih => rw [properItems, ih, List.all_cons]

theorem properMembers_eq (members : List (String × Json)) :
    properMembers members = members.all fun m => m.2.proper := by
  induction members with
  | nil => rfl
  | cons m rest ih => rw [properMembers, ih, List.all_cons]

theorem realFreeItems_eq (items : List Json) : realFreeItems items = items.all realFree := by
  induction items with
  | nil => rfl
  | cons v rest ih => rw [realFreeItems, ih, List.all_cons]

theorem realFreeMembers_eq (members : List (String × Json)) :
    realFreeMembers members = members.all fun m => m.2.realFree := by
  induction members with
  | nil => rfl
  | cons m rest ih => rw [realFreeMembers, ih, List.all_cons]

theorem depth_le_depthItems {items : List Json} {v : Json} (h : v ∈ items) :
    v.depth ≤ depthItems items := by
  induction h with
  | head rest => exact Nat.le_max_left _ _
  | tail w _ ih => exact Nat.le_trans ih (Nat.le_max_right _ _)

theorem depth_le_depthMembers {members : List (String × Json)} {m : String × Json} (h : m ∈ members) :
    m.2.depth ≤ depthMembers members := by
  induction h with
  | head rest => exact Nat.le_max_left _ _
  | tail w _ ih => exact Nat.le_trans ih (Nat.le_max_right _ _)

/-! ## The text of a value

The writer puts a comma between two texts, and the reader expects one in front of all but the first; so
`joined` has the comma in front. -/

/-- Texts with a comma between them; the first one has a comma in front as well unless it is the
first of all. -/
def joined (first : Bool) : List (List Char) → List Char
  | [] => []
  | t :: ts => (if first then [] else [',']) ++ t ++ joined false ts

theorem itemChars_eq (items : List Json) : itemChars items = joined true (items.map chars) := by
  induction items with
  | nil => rfl
  | cons v items ih =>
    cases items with
    | nil => simp [itemChars, joined]
    | cons w items => simpa [itemChars, joined] using ih

/-- A member as it is written. -/
def memberText (m : String × Json) : List Char := quote m.1 ++ ':' :: chars m.2

theorem memberChars_eq (members : List (String × Json)) :
    memberChars members = joined true (members.map memberText) := by
  induction members with
  | nil => rfl
  | cons m members ih =>
    cases members with
    | nil => simp [memberChars, joined, memberText]
    | cons n members => simpa [memberChars, joined, memberText] using ih

/-- Behind a text comes a comma or what closes the container, so a number ends there. -/
theorem continuesNumber_joined (ts : List (List Char)) (close : Char)
    (h : continuesNumber [close] = false) (rest : List Char) :
    continuesNumber (joined false ts ++ close :: rest) = false := by
  cases ts with
  | nil => exact h
  | cons t ts => rfl

/-- Every text takes at least one character, so there are fewer texts than the reader's bound. -/
theorem lt_length_joined (first : Bool) (ts : List (List Char)) (rest : List Char)
    (h : ∀ t ∈ ts, t ≠ []) : ts.length < (joined first ts ++ rest).length + 1 := by
  induction ts generalizing first with
  | nil => exact Nat.succ_pos _
  | cons t ts ih =>
    have hmore := ih false fun u hu => h u (List.mem_cons_of_mem _ hu)
    have hone := List.length_pos_iff.mpr (h t (by simp))
    simp only [joined, List.length_append, List.length_cons] at hmore ⊢
    omega

theorem memberText_ne_nil (m : String × Json) : memberText m ≠ [] := by
  rw [memberText, quote, List.cons_append]
  exact List.cons_ne_nil _ _

/-- What begins a value: no blank, no comma and no closing bracket. -/
def opens (c : Char) : Prop := isBlank c = false ∧ c ≠ ',' ∧ c ≠ ']' ∧ c ≠ '}'

theorem opens_of_isDigit {c : Char} (h : isDigit c = true) : opens c := by
  refine ⟨?_, ?_, ?_, ?_⟩
  · rw [← Bool.not_eq_true]
    intro hb
    simp only [isBlank, Bool.or_eq_true, decide_eq_true_eq] at hb
    rcases hb with ((rfl | rfl) | rfl) | rfl <;> exact absurd h (by decide)
  all_goals
    rintro rfl
    exact absurd h (by decide)

theorem exists_opens (v : Json) (h : v.realFree = true) :
    ∃ c tail, chars v = c :: tail ∧ opens c := by
  cases v with
  | null => exact ⟨_, _, rfl, by unfold opens; decide⟩
  | bool b => cases b <;> exact ⟨_, _, rfl, by unfold opens; decide⟩
  | num n =>
    cases n with
    | whole n =>
      rw [chars, chars_whole]
      split
      · obtain ⟨d, ds, hds, hd⟩ := exists_digit n.toNat
        exact ⟨d, ds, hds, opens_of_isDigit hd⟩
      · exact ⟨_, _, rfl, by unfold opens; decide⟩
    | real x => exact absurd h (by simp [realFree])
  | str s => exact ⟨_, _, rfl, by unfold opens; decide⟩
  | arr items => exact ⟨_, _, rfl, by unfold opens; decide⟩
  | obj members => exact ⟨_, _, rfl, by unfold opens; decide⟩

theorem chars_ne_nil {v : Json} (h : v.realFree = true) : chars v ≠ [] := by
  obtain ⟨c, tail, hv, -⟩ := exists_opens v h
  rw [hv]
  exact List.cons_ne_nil c tail

theorem skipBlanks_cons {c : Char} (h : isBlank c = false) (cs : List Char) :
    skipBlanks (c :: cs) = c :: cs := by
  simp [skipBlanks, h]

/-! ## Containers

Each loop is shown to read the joined texts from any point on, given that it reads each of them. -/

theorem nextItem_chars {v : Json} (h : v.realFree = true) (first : Bool) (rest : List Char) :
    nextItem first ((if first then [] else [',']) ++ chars v ++ rest) =
      .ok (true, chars v ++ rest) := by
  obtain ⟨c, tail, hv, hblank, -, hclose, -⟩ := exists_opens v h
  cases first with
  | true =>
    simp only [hv, if_true, List.nil_append, List.cons_append]
    rw [nextItem, skipBlanks_cons hblank]
    simp
  | false =>
    simp only [hv, Bool.false_eq_true, if_false, List.cons_append, List.nil_append]
    rw [nextItem, skipBlanks_cons (by decide)]
    simp [skipBlanks_cons hblank, hclose]

theorem nextItem_end (first : Bool) (cs : List Char) :
    nextItem first (']' :: cs) = .ok (false, ']' :: cs) := by
  rw [nextItem, skipBlanks_cons (by decide)]
  rfl

theorem nextKey_quote (k : String) (first : Bool) (cs : List Char) :
    nextKey first ((if first then [] else [',']) ++ quote k ++ cs) = .ok (some k, cs) := by
  have hquote : skipBlanks ('"' :: (k.toList.flatMap escapeChar ++ '"' :: cs)) =
      '"' :: (k.toList.flatMap escapeChar ++ '"' :: cs) := skipBlanks_cons (by decide) _
  cases first with
  | true =>
    simp only [quote, if_true, List.nil_append, List.cons_append, List.append_assoc]
    rw [nextKey, hquote]
    simp [readStringTail_quoted]
  | false =>
    simp only [quote, Bool.false_eq_true, if_false, List.cons_append, List.nil_append,
      List.append_assoc]
    rw [nextKey, skipBlanks_cons (by decide)]
    simp [hquote, readStringTail_quoted]

theorem nextKey_end (first : Bool) (cs : List Char) :
    nextKey first ('}' :: cs) = .ok (none, '}' :: cs) := by
  rw [nextKey, skipBlanks_cons (by decide)]
  rfl

theorem readColon_colon (cs : List Char) : readColon (':' :: cs) = .ok cs := by
  rw [readColon, skipBlanks_cons (by decide)]
  rfl

/-- A reader reads a value that was written, whatever comes next, if that is no more of a number. -/
def Reads {α : Type} (item : Reader α) (v : Json) (a : α) : Prop :=
  ∀ rest, continuesNumber rest = false → item (chars v ++ rest) = .ok (a, rest)

theorem readItems_joined {item : Reader Json} {items : List Json}
    (hread : ∀ v ∈ items, Reads item v v) (hreal : ∀ v ∈ items, v.realFree = true) {fuel : Nat}
    (hfuel : items.length < fuel) (first : Bool) (acc : List Json) (rest : List Char) :
    readItems item fuel first acc (joined first (items.map chars) ++ ']' :: rest) =
      .ok (acc.reverse ++ items, ']' :: rest) := by
  induction items generalizing fuel first acc with
  | nil =>
    obtain ⟨fuel, rfl⟩ := Nat.exists_eq_add_one.mpr hfuel
    rw [List.map_nil, joined, List.nil_append, readItems, nextItem_end, List.append_nil]
    rfl
  | cons v items ih =>
    obtain ⟨fuel, rfl⟩ := Nat.exists_eq_add_one.mpr (Nat.zero_lt_of_lt hfuel)
    have hitem := hread v (by simp) _ (continuesNumber_joined (items.map chars) ']' rfl rest)
    have hmore := ih (fun w hw => hread w (List.mem_cons_of_mem _ hw))
      (fun w hw => hreal w (List.mem_cons_of_mem _ hw)) (Nat.lt_of_succ_lt_succ hfuel) false (v :: acc)
    rw [List.map_cons, joined, List.append_assoc, readItems, nextItem_chars (hreal v (by simp))]
    simp only [bind, Except.bind, hitem, hmore]
    rw [List.reverse_cons, List.append_assoc, List.singleton_append]

theorem insertMember_of_lt {k : String} {v : Json} {members : List (String × Json)}
    (h : ∀ m ∈ members, m.1 < k) : insertMember k v members = members ++ [(k, v)] := by
  induction members with
  | nil => rfl
  | cons m members ih =>
    have hm := h m (by simp)
    have hne : k ≠ m.1 := fun heq => String.lt_irrefl _ (heq ▸ hm)
    rw [insertMember, if_neg (String.lt_asymm hm), if_neg hne,
      ih fun n hn => h n (List.mem_cons_of_mem _ hn), List.cons_append]

theorem Sorted.insertMember {members more : List (String × Json)} {m : String × Json}
    (h : Sorted (members ++ m :: more)) : Json.insertMember m.1 m.2 members = members ++ [m] := by
  refine insertMember_of_lt fun n hn => ?_
  rw [Sorted, List.map_append, List.pairwise_append] at h
  exact h.2.2 _ (List.mem_map_of_mem hn) _ (by simp)

theorem readMembers_joined {value : Reader Json} {members : List (String × Json)}
    (hread : ∀ m ∈ members, Reads value m.2 m.2) {fuel : Nat} (hfuel : members.length < fuel)
    (first : Bool) (acc : List (String × Json)) (hsorted : Sorted (acc ++ members))
    (rest : List Char) :
    readMembers value fuel first acc (joined first (members.map memberText) ++ '}' :: rest) =
      .ok (acc ++ members, '}' :: rest) := by
  induction members generalizing fuel first acc with
  | nil =>
    obtain ⟨fuel, rfl⟩ := Nat.exists_eq_add_one.mpr hfuel
    rw [List.map_nil, joined, List.nil_append, readMembers, nextKey_end, List.append_nil]
    rfl
  | cons m members ih =>
    obtain ⟨fuel, rfl⟩ := Nat.exists_eq_add_one.mpr (Nat.zero_lt_of_lt hfuel)
    have hvalue :=
      hread m (by simp) _ (continuesNumber_joined (members.map memberText) '}' rfl rest)
    have hinsert := hsorted.insertMember
    rw [List.append_cons] at hsorted
    have hmore := ih (fun n hn => hread n (List.mem_cons_of_mem _ hn))
      (Nat.lt_of_succ_lt_succ hfuel) false _ hsorted
    rw [List.map_cons, joined, memberText, ← List.append_assoc, List.append_assoc,
      List.append_assoc, List.cons_append, readMembers, nextKey_quote]
    simp only [bind, Except.bind, readColon_colon, hvalue, hinsert, hmore]
    rw [List.append_assoc, List.singleton_append]

theorem endItems_close (cs : List Char) : endItems (']' :: cs) = .ok cs := by
  rw [endItems, skipBlanks_cons (by decide)]
  rfl

theorem endMembers_close (cs : List Char) : endMembers ('}' :: cs) = .ok cs := by
  rw [endMembers, skipBlanks_cons (by decide)]
  rfl

/-! ## Values

All values but numbers are read whatever comes next. For numbers it is asked that they do not go on. -/

theorem readValue_digit {c : Char} (h : isDigit c = true) (cs : List Char) (depth : Nat) :
    readValue depth (c :: cs) = (do
      let (n, rest) ← readNumber true (c :: cs)
      return (.num n, rest)) := by
  rw [readValue, skipBlanks_cons (opens_of_isDigit h).1]
  split <;> try (next heq => cases heq; exact absurd h (by decide))
  · next heq => cases heq
  · next heq => cases heq; rw [if_pos h]

theorem readValue_whole {n : Int} (h : proper (.num (.whole n)) = true) (depth : Nat) :
    Reads (readValue depth) (.num (.whole n)) (.num (.whole n)) := by
  intro rest hrest
  simp only [proper, decide_eq_true_eq] at h
  rw [chars, chars_whole]
  split
  · next hn =>
    have hread := readNumber_natural (n := n.toNat) (by omega) hrest
    obtain ⟨d, ds, hds, hd⟩ := exists_digit n.toNat
    rw [hds, List.cons_append] at hread ⊢
    rw [readValue_digit hd, hread, Int.toNat_of_nonneg hn]
    rfl
  · next hn =>
    have hread := readNumber_negative (n := (-n).toNat) (by omega) (by omega) hrest
    rw [Int.toNat_of_nonneg (by omega), Int.neg_neg] at hread
    rw [List.cons_append, readValue, skipBlanks_cons (by decide)]
    simp only [hread]
    rfl

/-- A value is read from its text. The induction goes over the value and takes the admitted depth
along, which is one less inside a container. -/
theorem readValue_chars (v : Json) {depth : Nat} (hv : v.proper = true) (hreal : v.realFree = true)
    (hdepth : v.depth < depth) : Reads (readValue depth) v v := by
  induction v generalizing depth with
  | null =>
    intro rest _
    rw [readValue]
    rfl
  | bool b =>
    intro rest _
    rw [readValue]
    cases b <;> rfl
  | num n =>
    cases n with
    | real x => exact absurd hreal (by simp [realFree])
    | whole n => exact readValue_whole hv depth
  | str s =>
    intro rest _
    rw [readValue, chars, quote, List.cons_append, List.append_assoc, List.singleton_append,
      skipBlanks_cons (by decide)]
    simp only [readStringTail_quoted]
    rfl
  | arr items ih =>
    intro rest _
    simp only [proper, properItems_eq, List.all_eq_true] at hv
    simp only [realFree, realFreeItems_eq, List.all_eq_true] at hreal
    rw [Json.depth] at hdepth
    -- The container itself takes one level, so there is a level left for what it holds.
    obtain ⟨inner, rfl⟩ : ∃ inner, depth = inner + 2 := ⟨depth - 2, by omega⟩
    have hread (v : Json) (hmem : v ∈ items) : Reads (readValue (inner + 1)) v v :=
      ih v hmem (hv v hmem) (hreal v hmem) (by have := depth_le_depthItems hmem; omega)
    -- The loop is bounded by the characters that are left, and there are more of these than items.
    have hfuel := lt_length_joined true (items.map chars) (']' :: rest)
      (List.forall_mem_map.mpr fun v hmem => chars_ne_nil (hreal v hmem))
    rw [List.length_map] at hfuel
    have hitems := readItems_joined hread hreal hfuel true [] rest
    rw [chars, itemChars_eq, List.cons_append, List.append_assoc, List.singleton_append, readValue,
      skipBlanks_cons (by decide)]
    simp only [bind, Except.bind, hitems, endItems_close]
    rfl
  | obj members ih =>
    intro rest _
    simp only [proper, properMembers_eq, Bool.and_eq_true, decide_eq_true_eq, List.all_eq_true] at hv
    simp only [realFree, realFreeMembers_eq, List.all_eq_true] at hreal
    rw [Json.depth] at hdepth
    obtain ⟨inner, rfl⟩ : ∃ inner, depth = inner + 2 := ⟨depth - 2, by omega⟩
    have hread (m : String × Json) (hmem : m ∈ members) : Reads (readValue (inner + 1)) m.2 m.2 :=
      ih m hmem (hv.2 m hmem) (hreal m hmem) (by have := depth_le_depthMembers hmem; omega)
    have hfuel := lt_length_joined true (members.map memberText) ('}' :: rest)
      (List.forall_mem_map.mpr fun m _ => memberText_ne_nil m)
    rw [List.length_map] at hfuel
    have hmembers := readMembers_joined hread hfuel true [] hv.1 rest
    rw [chars, memberChars_eq, List.cons_append, List.append_assoc, List.singleton_append, readValue,
      skipBlanks_cons (by decide)]
    simp only [bind, Except.bind, hmembers, endMembers_close]
    rfl

theorem readWhole_of_reads {α : Type} {reader : Reader α} {text : String} {a : α}
    (h : reader text.toList = .ok (a, [])) : readWhole reader text = .ok a := by
  rw [readWhole, h]
  rfl

/-- **What was written is read back.** -/
theorem ofText_compact {v : Json} (hv : v.proper = true) (hreal : v.realFree = true)
    (hdepth : v.depth < maxDepth) : ofText v.compact = .ok v := by
  refine readWhole_of_reads ?_
  have h := readValue_chars v hv hreal hdepth [] rfl
  rw [List.append_nil] at h
  rw [compact, String.toList_ofList, h]

/-! ## Records

A record may have fields that are left out when they have their default, and so a written record need
not have all of its fields. `Fills` is about those that are there. -/

theorem reads_word {n : Nat} (h : n < 2 ^ 64) : Reads readWord64 (.ofNat n) n := by
  intro rest hrest
  have hread := readNumber_natural h hrest
  obtain ⟨d, ds, hds, hd⟩ := exists_digit n
  have hminus : d ≠ '-' := by
    rintro rfl
    exact absurd hd (by decide)
  rw [ofNat, chars, chars_whole, if_pos (Int.natCast_nonneg n), Int.toNat_natCast]
  rw [hds, List.cons_append] at hread ⊢
  rw [readWord64, skipBlanks_cons (opens_of_isDigit hd).1]
  simp only [hd, hread, bind, Except.bind, if_true]
  rfl

theorem reads_string (s : String) : Reads readString (.str s) s := by
  intro rest _
  rw [chars, quote, List.cons_append, List.append_assoc, List.singleton_append, readString,
    skipBlanks_cons (by decide)]
  exact readStringTail_quoted s rest

theorem reads_bool (b : Bool) : Reads readBool (.bool b) b := by
  intro rest _
  rw [readBool]
  cases b <;> rfl

/-- Members fill a draft: each is a field that is not there yet, and its reader takes the value. -/
inductive Fills {δ : Type} (fields : List (Field δ)) : δ → List (String × Json) → δ → Prop where
  | nil (draft : δ) : Fills fields draft [] draft
  | cons {draft next last : δ} {m : String × Json} {members : List (String × Json)} {f : Field δ}
      (hfind : fields.find? (fun f => f.key = m.1) = some f) (hnew : f.given draft = false)
      (hread : Reads (f.read draft) m.2 next) (hmore : Fills fields next members last) :
      Fills fields draft (m :: members) last

theorem Fills.readFields {δ : Type} {fields : List (Field δ)} {draft last : δ}
    {members : List (String × Json)} (h : Fills fields draft members last) {fuel : Nat}
    (hfuel : members.length < fuel) (first : Bool) (rest : List Char) :
    Json.readFields fields fuel first draft
      (joined first (members.map memberText) ++ '}' :: rest) = .ok (last, '}' :: rest) := by
  induction h generalizing fuel first with
  | nil draft =>
    obtain ⟨fuel, rfl⟩ := Nat.exists_eq_add_one.mpr hfuel
    rw [List.map_nil, joined, List.nil_append, Json.readFields, nextKey_end]
    rfl
  | @cons draft next last m members f hfind hnew hread _ ih =>
    obtain ⟨fuel, rfl⟩ := Nat.exists_eq_add_one.mpr (Nat.zero_lt_of_lt hfuel)
    have hvalue := hread _ (continuesNumber_joined (members.map memberText) '}' rfl rest)
    have hmore := ih (Nat.lt_of_succ_lt_succ hfuel) false
    rw [List.map_cons, joined, memberText, ← List.append_assoc, List.append_assoc,
      List.append_assoc, List.cons_append, Json.readFields, nextKey_quote]
    simp only [bind, Except.bind, hfind, hnew, readColon_colon, hvalue, hmore]
    rfl

theorem Fills.readRecord {δ : Type} {fields : List (Field δ)} {empty last : δ}
    {members : List (String × Json)} (h : Fills fields empty members last)
    (hall : firstMissing? fields last = none) (name : String) :
    Reads (Json.readRecord name fields empty) (.obj members) last := by
  intro rest _
  have hfuel := lt_length_joined true (members.map memberText) ('}' :: rest)
    (List.forall_mem_map.mpr fun m _ => memberText_ne_nil m)
  rw [List.length_map] at hfuel
  have hfields := h.readFields hfuel true rest
  rw [chars, memberChars_eq, List.cons_append, List.append_assoc, List.singleton_append,
    Json.readRecord, skipBlanks_cons (by decide)]
  simp only [bind, Except.bind, hfields, hall, endMembers_close]
  rfl

/-! ## No line feed

Files with one event in a line depend on this, and on nothing else about the texts of values. -/

theorem hexDigit_ne_newline {n : Nat} (h : n < 16) : hexDigit n ≠ '\n' := by
  interval_cases n <;> decide

theorem newline_notMem_escapeChar (c : Char) : '\n' ∉ escapeChar c := by
  rcases escapeChar_cases c with ⟨letter, heq, -, hletter, -⟩ | ⟨hlt, heq⟩ | ⟨heq, -, -, hle⟩
  · simp [heq, hletter.symm]
  · have h1 := hexDigit_ne_newline (n := c.toNat / 16) (by omega)
    have h2 := hexDigit_ne_newline (n := c.toNat % 16) (by omega)
    simp [heq, h1.symm, h2.symm]
  · rw [heq, List.mem_singleton]
    rintro rfl
    exact absurd hle (by decide)

theorem newline_notMem_quote (s : String) : '\n' ∉ quote s := by
  have h : '\n' ∉ s.toList.flatMap escapeChar := by
    rw [List.mem_flatMap]
    rintro ⟨c, -, hc⟩
    exact newline_notMem_escapeChar c hc
  simp [quote, h]

theorem newline_notMem_digits (n : Nat) : '\n' ∉ Nat.toDigits 10 n :=
  fun h => absurd (isDigit_of_mem_toDigits h) (by decide)

theorem newline_notMem_joined {ts : List (List Char)} (h : ∀ t ∈ ts, '\n' ∉ t) (first : Bool) :
    '\n' ∉ joined first ts := by
  induction ts generalizing first with
  | nil => exact List.not_mem_nil
  | cons t ts ih =>
    have hmore := ih (fun u hu => h u (List.mem_cons_of_mem _ hu)) false
    cases first <;> simp [joined, h t (by simp), hmore]

theorem newline_notMem_decimal (layout : Decimal.Layout) (d : Decimal) :
    '\n' ∉ (d.text layout).toList := by
  have hdigits : '\n' ∉ Nat.toDigits 10 d.digits := newline_notMem_digits _
  fun_cases Decimal.text layout d with
  | case1 digits count point whole _ => simp [whole, digits, hdigits]
  | case2 digits count point whole =>
    have htake : '\n' ∉ digits.take point.toNat := fun h => hdigits (List.mem_of_mem_take h)
    have hdrop : '\n' ∉ digits.drop point.toNat := fun h => hdigits (List.mem_of_mem_drop h)
    simp [whole, htake, hdrop]
  | case3 digits count point whole => simp [whole, digits, hdigits]
  | case4 digits count point whole _ _ _ exponent sign power c hc =>
    have hsign : '\n' ∉ sign.toList := by unfold sign; split <;> [skip; split] <;> decide
    have hfirst : '\n' ≠ c := by simpa using (show '\n' ∉ [c] from hc ▸ hdigits)
    simp [whole, power, hsign, hfirst, newline_notMem_digits]
  | case5 digits count point whole _ _ _ exponent sign power c rest _ hc =>
    have hsign : '\n' ∉ sign.toList := by unfold sign; split <;> [skip; split] <;> decide
    have hrest : '\n' ≠ c ∧ '\n' ∉ rest := by simpa using (show '\n' ∉ c :: rest from hc ▸ hdigits)
    simp [whole, power, hsign, hrest, newline_notMem_digits]
  | case6 => decide

theorem newline_notMem_number (n : Number) : '\n' ∉ n.chars := by
  cases n with
  | whole n =>
    rw [chars_whole]
    split
    · exact newline_notMem_digits _
    · simp [newline_notMem_digits]
  | real x =>
    have hsize := newline_notMem_decimal Decimal.jsonLayout (.ofDouble x.abs)
    rw [Number.chars, Decimal.textOfDouble]
    split <;> split <;> simp [hsize]

/-- A value is written on one line. -/
theorem newline_notMem_chars (v : Json) : '\n' ∉ chars v := by
  induction v with
  | null => decide
  | bool b => cases b <;> decide
  | num n => exact newline_notMem_number n
  | str s => exact newline_notMem_quote s
  | arr items ih =>
    have hitems : '\n' ∉ joined true (items.map chars) :=
      newline_notMem_joined (List.forall_mem_map.mpr ih) true
    simp [chars, itemChars_eq, hitems]
  | obj members ih =>
    have hmember (m : String × Json) (hmem : m ∈ members) : '\n' ∉ memberText m := by
      simp [memberText, newline_notMem_quote, ih m hmem]
    have hmembers : '\n' ∉ joined true (members.map memberText) :=
      newline_notMem_joined (List.forall_mem_map.mpr hmember) true
    simp [chars, memberChars_eq, hmembers]

end EventUpload.Json
