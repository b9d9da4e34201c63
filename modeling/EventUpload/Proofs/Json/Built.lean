import EventUpload.Proofs.Json.RoundTrip

/-!
# What readers build

`Json.proper` says of a value that programs may hold it. This file shows that the readers build no
others, and that they admit no deeper nesting than they say (`readValue_builds`); so whatever was read
once, without real numbers, is read again from its compact text (`ofText_ofText`).

`Builds` says of a reader that every value it gives is of some kind. A record is read into a draft, and
its reader builds what the reader of each field makes of such a draft (`readRecord_builds`).

Nothing is said about which texts are read, or that the value has anything to do with the text. A
statement of the form "whatever a reader gives" goes through a reader without looking at what it
refuses, so the readers are taken apart at their binds (`exists_of_bind`) and each part gets a lemma of
one shape. Whole numbers are of at most 64 bits because the scanner makes a real number of larger ones,
and members are sorted because each is put in its place when it has been read (`sorted_insertMember`), a
later one with the same key in place of the earlier one.
-/

set_option autoImplicit false

namespace EventUpload.Json

/-- Whatever a reader gives is of some kind. -/
def Builds {α : Type} (reader : Reader α) (P : α → Prop) : Prop :=
  ∀ cs a rest, reader cs = .ok (a, rest) → P a

theorem exists_of_bind {ε α β : Type} {x : Except ε α} {f : α → Except ε β} {b : β}
    (h : x >>= f = .ok b) : ∃ a, x = .ok a ∧ f a = .ok b := by
  cases x with
  | error e => cases h
  | ok a => exact ⟨a, rfl, h⟩

/-! ## Numbers

The scanner drops digits that a word cannot hold, and a number with dropped digits is a real one. So the
bound on whole numbers comes from the scanner, and no reader has to check it. -/

theorem absorb_le {n : Nat} (h : n ≤ maxWord) (taken : Nat) (cs : List Char) :
    (absorb n taken cs).1 ≤ maxWord := by
  fun_induction absorb n taken cs with
  | case1 => exact h
  | case2 n taken c rest next hle ih => exact ih hle
  | case3 => exact h

theorem realNumber_builds {positive : Bool} {digits : Nat} {exponent : Int} {cs rest : List Char}
    {n : Number} (h : realNumber positive digits exponent cs = .ok (n, rest)) :
    proper (.num n) = true := by
  unfold realNumber at h
  split at h
  · cases h
    rfl
  · cases h

theorem readExponent_builds {positive : Bool} {digits : Nat} {start : Int} {cs rest : List Char}
    {n : Number} (h : readExponent positive digits start cs = .ok (n, rest)) :
    proper (.num n) = true := by
  simp only [readExponent] at h
  split at h
  · cases h
  · split at h
    · split at h
      · exact realNumber_builds h
      · -- An exponent that is too large makes a zero, or nothing at all.
        repeat' split at h
        all_goals cases h
        all_goals rfl
    · cases h

theorem readFraction_builds {positive : Bool} {digits : Nat} {start : Int} {cs rest : List Char}
    {n : Number} (h : readFraction positive digits start cs = .ok (n, rest)) :
    proper (.num n) = true := by
  simp only [readFraction] at h
  split at h
  · cases h
  · cases h
  · split at h
    · exact readExponent_builds h
    · exact readExponent_builds h
    · exact realNumber_builds h

/-- The readers of fractions and exponents build real numbers; a number without either is a word,
because more digits than a word has are dropped and counted. -/
theorem readNumberTail_builds {positive : Bool} {digits dropped : Nat} (hdigits : digits ≤ maxWord)
    {cs rest : List Char} {n : Number}
    (h : readNumberTail positive digits dropped cs = .ok (n, rest)) : proper (.num n) = true := by
  rw [maxWord_eq] at hdigits
  simp only [readNumberTail] at h
  split at h
  · exact readFraction_builds h
  · exact readExponent_builds h
  · exact readExponent_builds h
  · split at h
    · exact realNumber_builds h
    · split at h
      · cases h
        simp only [proper, decide_eq_true_eq]
        omega
      · split at h
        · cases h
          rfl
        · next hrange =>
          cases h
          simp only [Bool.or_eq_true, decide_eq_true_eq, not_or, Nat.not_lt, Nat.pow_eq] at hrange
          simp only [proper, decide_eq_true_eq]
          omega

theorem readNumber_builds (positive : Bool) :
    Builds (readNumber positive) fun n => proper (.num n) = true := by
  intro cs n rest h
  unfold readNumber at h
  split at h
  · cases h
  · split at h
    · cases h
    · exact readNumberTail_builds (Nat.zero_le _) h
  · next c rest _ =>
    split at h
    · have hle := absorb_le (Nat.zero_le maxWord) 0 (c :: rest.takeWhile isDigit)
      dsimp only at h
      generalize absorb 0 0 (c :: rest.takeWhile isDigit) = absorbed at h hle
      exact readNumberTail_builds hle h
    · cases h

/-! ## Containers

Members are put in their places one at a time. That the keys stay sorted, and that a key which is given
twice occurs once, are both `sorted_insertMember`. -/

theorem depthItems_le {items : List Json} {d : Nat} (h : ∀ v ∈ items, v.depth ≤ d) :
    depthItems items ≤ d := by
  induction items with
  | nil => exact Nat.zero_le d
  | cons v items ih =>
    exact Nat.max_le.mpr ⟨h v (by simp), ih fun w hw => h w (List.mem_cons_of_mem _ hw)⟩

theorem depthMembers_le {members : List (String × Json)} {d : Nat}
    (h : ∀ m ∈ members, m.2.depth ≤ d) : depthMembers members ≤ d := by
  induction members with
  | nil => exact Nat.zero_le d
  | cons m members ih =>
    exact Nat.max_le.mpr ⟨h m (by simp), ih fun n hn => h n (List.mem_cons_of_mem _ hn)⟩

theorem mem_insertMember {k : String} {v : Json} {members : List (String × Json)}
    {m : String × Json} (h : m ∈ insertMember k v members) : m = (k, v) ∨ m ∈ members := by
  induction members with
  | nil => exact .inl (List.mem_singleton.mp h)
  | cons n members ih =>
    unfold insertMember at h
    split at h
    · exact (List.mem_cons.mp h)
    · split at h
      · exact (List.mem_cons.mp h).imp_right (List.mem_cons_of_mem _)
      · rcases List.mem_cons.mp h with rfl | h
        · exact .inr List.mem_cons_self
        · exact (ih h).imp_right (List.mem_cons_of_mem _)

/-- Putting a member at its place keeps the keys in their order. -/
theorem sorted_insertMember {members : List (String × Json)} (h : Sorted members) (k : String)
    (v : Json) : Sorted (insertMember k v members) := by
  induction members with
  | nil => exact List.pairwise_singleton _ _
  | cons m members ih =>
    obtain ⟨l, w⟩ := m
    obtain ⟨hfirst, hrest⟩ := List.pairwise_cons.mp h
    -- The member comes in front of the first one, in its place, or further on.
    unfold insertMember
    split
    · next hlt =>
      refine List.pairwise_cons.mpr ⟨?_, h⟩
      intro key hkey
      rcases List.mem_cons.mp hkey with rfl | hkey
      · exact hlt
      · exact String.lt_trans hlt (hfirst key hkey)
    · next hnot =>
      split
      · next heq =>
        subst heq
        exact h
      · next hne =>
        refine List.pairwise_cons.mpr ⟨?_, ih hrest⟩
        intro key hkey
        obtain ⟨n, hn, rfl⟩ := List.mem_map.mp hkey
        rcases mem_insertMember hn with rfl | hn
        · by_contra hge
          exact hne (String.le_antisymm (String.not_lt.mp hge) (String.not_lt.mp hnot))
        · exact hfirst n.1 (List.mem_map_of_mem hn)

theorem readItems_builds {item : Reader Json} {P : Json → Prop} (hitem : Builds item P) {fuel : Nat}
    {first : Bool} {acc items : List Json} {cs rest : List Char} (hacc : ∀ v ∈ acc, P v)
    (h : readItems item fuel first acc cs = .ok (items, rest)) : ∀ v ∈ items, P v := by
  induction fuel generalizing first acc cs with
  | zero => cases h
  | succ fuel ih =>
    obtain ⟨⟨more, rest'⟩, -, h⟩ := exists_of_bind h
    cases more with
    | false =>
      cases h
      exact fun v hv => hacc v (List.mem_reverse.mp hv)
    | true =>
      obtain ⟨⟨v, rest''⟩, hv, h⟩ := exists_of_bind h
      exact ih (List.forall_mem_cons.mpr ⟨hitem _ _ _ hv, hacc⟩) h

theorem readMembers_builds {value : Reader Json} {P : Json → Prop} (hvalue : Builds value P)
    {fuel : Nat} {first : Bool} {acc members : List (String × Json)} {cs rest : List Char}
    (hsorted : Sorted acc) (hacc : ∀ m ∈ acc, P m.2)
    (h : readMembers value fuel first acc cs = .ok (members, rest)) :
    Sorted members ∧ ∀ m ∈ members, P m.2 := by
  induction fuel generalizing first acc cs with
  | zero => cases h
  | succ fuel ih =>
    obtain ⟨⟨key, rest'⟩, -, h⟩ := exists_of_bind h
    cases key with
    | none =>
      cases h
      exact ⟨hsorted, hacc⟩
    | some k =>
      obtain ⟨rest'', -, h⟩ := exists_of_bind h
      obtain ⟨⟨v, rest'''⟩, hv, h⟩ := exists_of_bind h
      refine ih (sorted_insertMember hsorted k v) (fun m hm => ?_) h
      rcases mem_insertMember hm with rfl | hm
      · exact hvalue _ _ _ hv
      · exact hacc m hm

/-! ## Values

Values are read by recursion on the depth that is still admitted, and within it on the text, so the
induction has the same shape. -/

/-- A value that a reader builds that admits containers nested less than `depth` deep. -/
def Admitted (depth : Nat) (v : Json) : Prop := v.proper = true ∧ v.depth ≤ depth - 1

/-- **Whatever a reader builds is proper**, and nested no deeper than the reader admits. -/
theorem readValue_builds (depth : Nat) : Builds (readValue depth) (Admitted depth) := by
  induction depth using Nat.strong_induction_on with
  | _ depth ih =>
    intro cs v rest h
    rw [readValue] at h
    split at h
    -- The characters that begin a value, in the order of the definition. Words, numbers and strings
    -- hold nothing; the two containers hold values that a reader of less depth has built.
    · cases h
    · obtain ⟨_, -, h⟩ := exists_of_bind h
      cases h
      exact ⟨rfl, Nat.zero_le _⟩
    · obtain ⟨_, -, h⟩ := exists_of_bind h
      cases h
      exact ⟨rfl, Nat.zero_le _⟩
    · obtain ⟨_, -, h⟩ := exists_of_bind h
      cases h
      exact ⟨rfl, Nat.zero_le _⟩
    · obtain ⟨⟨n, rest'⟩, hn, h⟩ := exists_of_bind h
      cases h
      exact ⟨readNumber_builds false _ _ _ hn, Nat.zero_le _⟩
    · obtain ⟨⟨s, rest'⟩, -, h⟩ := exists_of_bind h
      cases h
      exact ⟨rfl, Nat.zero_le _⟩
    · split at h
      · cases h
      · cases h
      · next inner hpos =>
        obtain ⟨⟨items, rest'⟩, hitems, h⟩ := exists_of_bind h
        obtain ⟨_, -, h⟩ := exists_of_bind h
        cases h
        have hall := readItems_builds (ih inner (Nat.lt_succ_self inner)) (by simp) hitems
        refine ⟨?_, ?_⟩
        · rw [proper, properItems_eq, List.all_eq_true]
          exact fun v hv => (hall v hv).1
        · have hdepth := depthItems_le fun v hv => (hall v hv).2
          have hne : inner ≠ 0 := hpos
          rw [Json.depth, Nat.succ_sub_one]
          omega
    · split at h
      · cases h
      · cases h
      · next inner hpos =>
        obtain ⟨⟨members, rest'⟩, hmembers, h⟩ := exists_of_bind h
        obtain ⟨_, -, h⟩ := exists_of_bind h
        cases h
        have hnil : Sorted [] := List.Pairwise.nil
        obtain ⟨hsorted, hall⟩ :=
          readMembers_builds (ih inner (Nat.lt_succ_self inner)) hnil (by simp) hmembers
        refine ⟨?_, ?_⟩
        · rw [proper, properMembers_eq, Bool.and_eq_true, decide_eq_true_eq, List.all_eq_true]
          exact ⟨hsorted, fun m hm => (hall m hm).1⟩
        · have hdepth := depthMembers_le fun m hm => (hall m hm).2
          have hne : inner ≠ 0 := hpos
          rw [Json.depth, Nat.succ_sub_one]
          omega
    · split at h
      · obtain ⟨⟨n, rest'⟩, hn, h⟩ := exists_of_bind h
        cases h
        exact ⟨readNumber_builds true _ _ _ hn, Nat.zero_le _⟩
      · cases h

theorem readWhole_builds {α : Type} {reader : Reader α} {P : α → Prop} (hreader : Builds reader P)
    {text : String} {a : α} (h : readWhole reader text = .ok a) : P a := by
  obtain ⟨⟨b, rest⟩, hb, h⟩ := exists_of_bind h
  dsimp only at h
  split at h
  · cases h
    exact hreader _ _ _ hb
  · cases h

/-- What was read once is read again from its compact text. -/
theorem ofText_ofText {text : String} {v : Json} (h : ofText text = .ok v)
    (hreal : v.realFree = true) : ofText v.compact = .ok v := by
  obtain ⟨hproper, hdepth⟩ := readWhole_builds (readValue_builds maxDepth) h
  exact ofText_compact hproper hreal (by unfold maxDepth at hdepth ⊢; omega)

/-! ## Records

A record is not read into a value first: its reader goes through the members and hands each to the
reader of its field. What is known of the draft is therefore carried from member to member. -/

section

variable {δ : Type} {fields : List (Field δ)} {P : δ → Prop}

/-- The draft of a record stays of a kind as long as each field keeps it so, in whatever order they
come and however often. -/
theorem readFields_builds (hfields : ∀ f ∈ fields, ∀ draft, P draft → Builds (f.read draft) P)
    {fuel : Nat} {first : Bool} {draft last : δ} {cs rest : List Char} (hdraft : P draft)
    (h : readFields fields fuel first draft cs = .ok (last, rest)) : P last := by
  induction fuel generalizing first draft cs with
  | zero => cases h
  | succ fuel ih =>
    obtain ⟨⟨key, rest'⟩, -, h⟩ := exists_of_bind h
    cases key with
    | none =>
      cases h
      exact hdraft
    | some k =>
      dsimp only at h
      split at h
      · obtain ⟨_, -, h⟩ := exists_of_bind h
        obtain ⟨_, -, h⟩ := exists_of_bind h
        exact ih hdraft h
      · next f hf =>
        split at h
        · cases h
        · obtain ⟨_, -, h⟩ := exists_of_bind h
          obtain ⟨⟨next, _⟩, hnext, h⟩ := exists_of_bind h
          exact ih (hfields f (List.mem_of_find?_eq_some hf) _ hdraft _ _ _ hnext) h

theorem readPositions_builds (hfields : ∀ f ∈ fields, ∀ draft, P draft → Builds (f.read draft) P)
    {first : Bool} {draft last : δ} {cs rest : List Char} (hdraft : P draft)
    (h : readPositions fields first draft cs = .ok (last, rest)) : P last := by
  induction fields generalizing first draft cs with
  | nil =>
    cases h
    exact hdraft
  | cons f fields ih =>
    obtain ⟨⟨more, rest'⟩, -, h⟩ := exists_of_bind h
    cases more with
    | false =>
      cases h
      exact hdraft
    | true =>
      obtain ⟨⟨next, _⟩, hnext, h⟩ := exists_of_bind h
      exact ih (fun g hg => hfields g (List.mem_cons_of_mem _ hg))
        (hfields f (by simp) _ hdraft _ _ _ hnext) h

theorem ok_of_mapError {ε ε' α : Type} {x : Except ε α} {f : ε → ε'} {a : α}
    (h : x.mapError f = .ok a) : x = .ok a := by
  cases x with
  | error e => cases h
  | ok b => cases h; rfl

/-- What the reader of every field makes of a draft, the reader of a record makes of the empty one. -/
theorem readRecord_builds (hfields : ∀ f ∈ fields, ∀ draft, P draft → Builds (f.read draft) P)
    {empty : δ} (hempty : P empty) (name : String) : Builds (readRecord name fields empty) P := by
  intro cs last rest h
  unfold readRecord at h
  split at h
  · obtain ⟨⟨draft, _⟩, hread, h⟩ := exists_of_bind (ok_of_mapError h)
    dsimp only at h
    split at h
    · cases h
    · obtain ⟨_, -, h⟩ := exists_of_bind h
      cases h
      exact readFields_builds hfields hempty hread
  · obtain ⟨⟨draft, _⟩, hread, h⟩ := exists_of_bind (ok_of_mapError h)
    dsimp only at h
    split at h
    · cases h
    · obtain ⟨_, -, h⟩ := exists_of_bind h
      cases h
      exact readPositions_builds hfields hempty hread
  · cases h

end

theorem readWord64_builds : Builds readWord64 (· < 2 ^ 64) := by
  intro cs n rest h
  unfold readWord64 at h
  extract_lets number at h
  have hnumber : ∀ positive cs, number positive cs = .ok (n, rest) → n < 2 ^ 64 := by
    intro positive cs h
    obtain ⟨⟨m, _⟩, hm, h⟩ := exists_of_bind h
    have hproper := readNumber_builds positive _ _ _ hm
    dsimp only at h
    split at h
    · cases h
      simp only [proper, decide_eq_true_eq, Int.ofNat_eq_natCast] at hproper
      omega
    · cases h
    · cases h
  split at h
  · exact hnumber _ _ h
  · split at h
    · exact hnumber _ _ h
    · cases h
  · cases h

end EventUpload.Json
