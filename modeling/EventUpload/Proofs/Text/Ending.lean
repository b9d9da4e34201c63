import EventUpload.Proofs.Text.Utf8

/-!
# How bytes end

Any bytes at all, text or not, may end with the beginning of a character whose other bytes are still to
come. `Ending bytes part` says which bytes these are, without a word about reading, and `ending`
computes them by reading: what comes before them is whole characters and bytes that are no character. So
whatever is written behind some bytes is read as if it were written behind their ending alone
(`reading_append`).

Bytes are `Intact` if they are the bytes of a text, cut short or not. Only these have their ending left
out of the complete part: where anything is broken, the complete part is everything
(`completePart_of_intact`, `completePart_of_broken`).

That both notions of an ending agree (`ending_spec`) rests on what `front` says of bytes, and `Fronts`
says what that means: a character is there, or something is broken off by the byte behind it, or more
bytes would make a character of it. In the last case these bytes have to be found, and the lowest ones
that the first two admit will do. The other two cases are stable, in that what is written later does not
change them, and this is why reading can be taken up again at the ending.

An ending does not reach back into what was taken from the front before it: it would have to begin with
a byte that continues a character, and a character begins with one that does not. For the same reason an
ending has at most three bytes.
-/

set_option autoImplicit false

namespace EventUpload.Utf8

/-! ## What stands at the front of bytes

Reading takes one character or one broken sequence at a time from the front. What a decision rests on
are the bytes that it has looked at, and these include the one behind what is taken. -/

theorem isTail_iff {b : UInt8} : isTail b = true ↔ 0x80 ≤ b.toNat ∧ b.toNat ≤ 0xBF := by
  simp [isTail, UInt8.le_iff_toNat_le]

theorem isTail_of_bounds {b least most : UInt8} (h : least ≤ b ∧ b ≤ most) (hleast : 0x80 ≤ least)
    (hmost : most ≤ 0xBF) : isTail b = true := by
  simpa [isTail] using And.intro (UInt8.le_trans hleast h.1) (UInt8.le_trans h.2 hmost)

/-- A character starts with a byte that continues none, and goes on with bytes that do. -/
theorem Spells.tails {bytes : List UInt8} {c : Char} (h : Spells bytes c) :
    ∃ a tail, bytes = a :: tail ∧ isTail a = false ∧ (∀ b ∈ tail, isTail b = true) ∧
      tail.length ≤ 3 := by
  have not_isTail {a : UInt8} (h : 0xC0 ≤ a) : isTail a = false := by
    rw [Bool.eq_false_iff, ne_eq, isTail_iff]
    simp only [UInt8.le_iff_toNat_le, UInt8.reduceToNat] at h
    omega
  cases h with
  | one ha =>
    refine ⟨_, [], rfl, ?_, by simp, by simp⟩
    rw [Bool.eq_false_iff, ne_eq, isTail_iff]
    simp only [UInt8.lt_iff_toNat_lt, UInt8.reduceToNat] at ha
    omega
  | two ha hb =>
    exact ⟨_, _, rfl, not_isTail (UInt8.le_trans (by decide) ha.1), by simpa using hb, by simp⟩
  | three ha hb hc =>
    have hb := isTail_of_bounds hb (by split <;> decide) (by split <;> decide)
    exact ⟨_, _, rfl, not_isTail (UInt8.le_trans (by decide) ha.1), by simp [hb, hc], by simp⟩
  | four ha hb hc hd =>
    have hb := isTail_of_bounds hb (by split <;> decide) (by split <;> decide)
    exact ⟨_, _, rfl, not_isTail (UInt8.le_trans (by decide) ha.1), by simp [hb, hc, hd], by simp⟩

/-- What it means that something stands at the front of bytes that begin with `a`. A character is
broken off by the byte behind what there is of it, whatever comes after that. -/
def Fronts (a : UInt8) (rest : List UInt8) : Front → Prop
  | .char c n => n ≤ rest.length ∧ Spells (a :: rest.take n) c
  | .broken n => n ≤ rest.length ∧ (∀ b ∈ rest.take n, isTail b = true) ∧
      ∀ more, front a (rest.take (n + 1) ++ more) = .broken n
  | .cut => ∃ more c, more ≠ [] ∧ Spells (a :: (rest ++ more)) c

/-- `front` tells the truth. What is cut short can be completed with the lowest bytes that its
beginning admits. -/
theorem fronts_front (a : UInt8) (rest : List UInt8) : Fronts a rest (front a rest) := by
  have within {b least most : UInt8} (h : ¬(decide (b < least) || decide (most < b)) = true) :
      least ≤ b ∧ b ≤ most := by
    simpa [UInt8.not_lt] using h
  have le {a b : UInt8} (h : ¬a < b) : b ≤ a := UInt8.not_lt.mp h
  have htail : isTail 0x80 = true := by decide
  -- The cases are those of the definition. Where something is missing, the lowest bytes that may stand
  -- there complete the character.
  fun_cases front a rest with
  | case1 rest ha => exact ⟨Nat.zero_le _, .one ha⟩
  | case2 rest h1 h2 => exact ⟨by simp, by simp, fun more => by simp [front, h1, h2]⟩
  | case3 h1 h2 h3 => exact ⟨[0x80], _, by simp, .two ⟨le h2, h3⟩ htail⟩
  | case4 h1 h2 h3 b rest hb => exact ⟨by simp, .two ⟨le h2, h3⟩ hb⟩
  | case5 h1 h2 h3 b rest hb =>
    exact ⟨by simp, by simp, fun more => by simp [front, h1, h2, h3, hb]⟩
  | case6 h1 h2 h3 h4 =>
    have hle : (if a = 0xE0 then 0xA0 else 0x80 : UInt8) ≤ if a = 0xED then 0x9F else 0xBF := by
      split
      · next h => subst h; decide
      · split <;> decide
    exact ⟨[_, 0x80], _, by simp, .three ⟨le h3, h4⟩ ⟨UInt8.le_refl _, hle⟩ htail⟩
  | case7 h1 h2 h3 h4 least most b rest hb =>
    refine ⟨by simp, by simp, fun more => ?_⟩
    simp only [front, h1, h2, h3, h4, List.take, List.cons_append, if_true, if_false]
    exact if_pos hb
  | case8 h1 h2 h3 h4 least most b hb =>
    exact ⟨[0x80], _, by simp, .three ⟨le h3, h4⟩ (within hb) htail⟩
  | case9 h1 h2 h3 h4 least most b hb c rest hc =>
    exact ⟨by simp, .three ⟨le h3, h4⟩ (within hb) hc⟩
  | case10 h1 h2 h3 h4 least most b hb c rest hc =>
    -- The second byte continues a character, whatever the bounds for it are, so it is broken off with
    -- the first one.
    have hb' := isTail_of_bounds (within hb) (by unfold least; split <;> decide)
      (by unfold most; split <;> decide)
    refine ⟨by simp, by simpa using hb', fun more => ?_⟩
    simp only [front, h1, h2, h3, h4, List.take, List.cons_append, if_true, if_false]
    exact (if_neg hb).trans (if_neg hc)
  | case11 h1 h2 h3 h4 h5 =>
    have hle : (if a = 0xF0 then 0x90 else 0x80 : UInt8) ≤ if a = 0xF4 then 0x8F else 0xBF := by
      split
      · next h => subst h; decide
      · split <;> decide
    exact ⟨[_, 0x80, 0x80], _, by simp, .four ⟨le h4, h5⟩ ⟨UInt8.le_refl _, hle⟩ htail htail⟩
  | case12 h1 h2 h3 h4 h5 least most b rest hb =>
    refine ⟨by simp, by simp, fun more => ?_⟩
    simp only [front, h1, h2, h3, h4, h5, List.take, List.cons_append, if_true, if_false]
    exact if_pos hb
  | case13 h1 h2 h3 h4 h5 least most b hb =>
    exact ⟨[0x80, 0x80], _, by simp, .four ⟨le h4, h5⟩ (within hb) htail htail⟩
  | case14 h1 h2 h3 h4 h5 least most b hb c rest hc =>
    have hb' := isTail_of_bounds (within hb) (by unfold least; split <;> decide)
      (by unfold most; split <;> decide)
    refine ⟨by simp, by simpa using hb', fun more => ?_⟩
    simp only [front, h1, h2, h3, h4, h5, List.take, List.cons_append, if_true, if_false]
    exact (if_neg hb).trans (if_pos hc)
  | case15 h1 h2 h3 h4 h5 least most b hb c hc =>
    exact ⟨[0x80], _, by simp, .four ⟨le h4, h5⟩ (within hb) (by simpa using hc) htail⟩
  | case16 h1 h2 h3 h4 h5 least most b hb c hc d rest hd =>
    exact ⟨by simp, .four ⟨le h4, h5⟩ (within hb) (by simpa using hc) hd⟩
  | case17 h1 h2 h3 h4 h5 least most b hb c hc d rest hd =>
    have hb' := isTail_of_bounds (within hb) (by unfold least; split <;> decide)
      (by unfold most; split <;> decide)
    refine ⟨by simp, by simpa using And.intro hb' (by simpa using hc), fun more => ?_⟩
    simp only [front, h1, h2, h3, h4, h5, List.take, List.cons_append, if_true, if_false]
    exact (if_neg hb).trans ((if_neg hc).trans (if_neg hd))
  | case18 rest h1 h2 h3 h4 h5 =>
    exact ⟨by simp, by simp, fun more => by simp [front, h1, h2, h3, h4, h5]⟩

variable {a : UInt8} {rest bytes part : List UInt8} {c : Char} {n : Nat}

theorem spells_of_front (h : front a rest = .char c n) :
    n ≤ rest.length ∧ Spells (a :: rest.take n) c := by
  have hfronts := fronts_front a rest
  rwa [h] at hfronts

/-- What is taken from the front goes no further than the bytes that continue its first one. -/
theorem tails_of_char (h : front a rest = .char c n) : ∀ b ∈ rest.take n, isTail b = true := by
  obtain ⟨_, _, heq, -, htails, -⟩ := (spells_of_front h).2.tails
  cases heq
  exact htails

theorem tails_of_broken (h : front a rest = .broken n) :
    n ≤ rest.length ∧ ∀ b ∈ rest.take n, isTail b = true := by
  have hfronts := fronts_front a rest
  rw [h] at hfronts
  exact ⟨hfronts.1, hfronts.2.1⟩

/-- A character broken off stays so as long as the byte behind it stays. -/
theorem front_of_broken (h : front a rest = .broken n) {bytes : List UInt8}
    (hbytes : rest.take (n + 1) <+: bytes) : front a bytes = .broken n := by
  have hfronts := fronts_front a rest
  rw [h] at hfronts
  obtain ⟨more, rfl⟩ := hbytes
  exact hfronts.2.2 more

/-- More bytes at the end change what stands at the front only if that was cut short. -/
theorem front_append (h : front a rest ≠ .cut) (more : List UInt8) :
    front a (rest ++ more) = front a rest := by
  cases hfront : front a rest with
  | char c n =>
    obtain ⟨hn, hspells⟩ := spells_of_front hfront
    obtain ⟨_, _, heq, hread⟩ := hspells.front (rest.drop n ++ more)
    cases heq
    rwa [← List.append_assoc, List.take_append_drop, List.length_take_of_le hn] at hread
  | broken n =>
    exact front_of_broken hfront ((List.take_prefix _ _).trans (List.prefix_append _ _))
  | cut => exact absurd hfront h

/-! ## Beginnings of characters

A beginning is what lacks at least one byte to a character. That one exists is a matter of finding the
missing bytes, for which the encoding of a character is taken apart by its length. -/

theorem val_ofNat {n : Nat} (h : n < 0xD800 ∨ 0xDFFF < n ∧ n < 0x110000) :
    (Char.ofNat n).val.toNat = n := by
  have hvalid : n.isValidChar := h
  rw [Char.ofNat, dif_pos hvalid]
  rfl

/-- Whatever is spelled like a character is what that character is written as. -/
theorem Spells.encodeChar (h : Spells bytes c) : String.utf8EncodeChar c = bytes := by
  have ofNat_eq {m : Nat} {a : UInt8} (h : m = a.toNat) : UInt8.ofNat m = a := by
    rw [h, UInt8.ofNat_toNat]
  cases h with
  | @one a ha =>
    simp only [UInt8.lt_iff_toNat_lt, UInt8.reduceToNat] at ha
    simp only [String.utf8EncodeChar, val_ofNat (.inl (show a.toNat < 0xD800 by omega)),
      if_pos (show a.toNat ≤ 127 by omega), UInt8.ofNat_toNat]
  | @two a b ha hb =>
    rw [isTail_iff] at hb
    simp only [UInt8.le_iff_toNat_le, UInt8.lt_iff_toNat_lt, UInt8.reduceToNat] at ha
    generalize hn : a.toNat % 32 * 64 + low b = n
    rw [low] at hn
    -- Each rule gives a range of numbers, and in that range the writer uses as many bytes.
    simp only [String.utf8EncodeChar, val_ofNat (.inl (show n < 0xD800 by omega)),
      if_neg (show ¬n ≤ 127 by omega), if_pos (show n ≤ 2047 by omega)]
    rw [ofNat_eq (a := a) (by omega), ofNat_eq (a := b) (by omega)]
  | @three a b c ha hb hc =>
    have hsecond := isTail_iff.mp (isTail_of_bounds hb (by split <;> decide) (by split <;> decide))
    rw [isTail_iff] at hc
    simp only [UInt8.le_iff_toNat_le, UInt8.lt_iff_toNat_lt, UInt8.reduceToNat, apply_ite UInt8.toNat,
      ← UInt8.toNat_inj] at ha hb
    generalize hn : (a.toNat % 16 * 64 + low b) * 64 + low c = n
    rw [low, low] at hn
    -- The bounds of the second byte leave out the overlong forms and the surrogates.
    have hrange : 2047 < n ∧ n ≤ 65535 ∧ (n < 0xD800 ∨ 0xDFFF < n) := by
      split at hb <;> split at hb <;> omega
    simp only [String.utf8EncodeChar, val_ofNat (show n < 0xD800 ∨ 0xDFFF < n ∧ n < 0x110000 by omega),
      if_neg (show ¬n ≤ 127 by omega), if_neg (show ¬n ≤ 2047 by omega), if_pos hrange.2.1]
    rw [ofNat_eq (a := a) (by omega), ofNat_eq (a := b) (by omega), ofNat_eq (a := c) (by omega)]
  | @four a b c d ha hb hc hd =>
    have hsecond := isTail_iff.mp (isTail_of_bounds hb (by split <;> decide) (by split <;> decide))
    rw [isTail_iff] at hc hd
    simp only [UInt8.le_iff_toNat_le, UInt8.lt_iff_toNat_lt, UInt8.reduceToNat, apply_ite UInt8.toNat,
      ← UInt8.toNat_inj] at ha hb
    generalize hn : ((a.toNat % 8 * 64 + low b) * 64 + low c) * 64 + low d = n
    rw [low, low, low] at hn
    have hrange : 65535 < n ∧ n < 0x110000 := by split at hb <;> split at hb <;> omega
    simp only [String.utf8EncodeChar, val_ofNat (show n < 0xD800 ∨ 0xDFFF < n ∧ n < 0x110000 by omega),
      if_neg (show ¬n ≤ 127 by omega), if_neg (show ¬n ≤ 2047 by omega),
      if_neg (show ¬n ≤ 65535 by omega)]
    rw [ofNat_eq (a := a) (by omega), ofNat_eq (a := b) (by omega), ofNat_eq (a := c) (by omega),
      ofNat_eq (a := d) (by omega)]

/-- What is read as a character cut short is the beginning of one. -/
theorem begins_of_front (h : front a rest = .cut) : Begins (a :: rest) := by
  have hfronts := fronts_front a rest
  rw [h] at hfronts
  obtain ⟨more, c, hmore, hspells⟩ := hfronts
  have hlength := List.length_pos_iff.mpr hmore
  refine ⟨c, rest.length + 1, ?_, ?_⟩
  · rw [hspells.encodeChar, List.length_cons, List.length_append]
    omega
  · rw [hspells.encodeChar, List.take_succ_cons, List.take_left]

/-- The beginning of a character starts with a byte that continues none, and goes on with bytes that
do. -/
theorem Begins.tails (h : Begins (a :: rest)) : isTail a = false ∧ ∀ b ∈ rest, isTail b = true := by
  obtain ⟨c, n, -, heq⟩ := h
  obtain ⟨b, tail, hbytes, hb, htail, -⟩ := (spells_encodeChar c).tails
  rw [hbytes] at heq
  cases n with
  | zero => exact absurd heq (by simp)
  | succ n =>
    rw [List.take_succ_cons, List.cons.injEq] at heq
    obtain ⟨rfl, rfl⟩ := heq
    exact ⟨hb, fun b hmem => htail b (List.mem_of_mem_take hmem)⟩

theorem Begins.length_le (h : Begins part) : part.length ≤ 3 := by
  obtain ⟨c, n, hn, rfl⟩ := h
  have hfour := c.utf8Size_le_four
  rw [String.length_utf8EncodeChar] at hn
  rw [List.length_take]
  omega

/-! ## The ending of bytes

The notion comes first and then the function that computes it. What reading takes from the front never
has a part of the ending in it, since no character begins with a byte that continues one. -/

/-- The ending of bytes: the longest beginning of a character that they end with. As such a beginning
is not the whole of a character, these are three bytes at most, and there may be none. -/
structure Ending (bytes part : List UInt8) : Prop where
  suffix : part <:+ bytes
  begins : Begins part
  longest : ∀ other, other <:+ bytes → Begins other → other.length ≤ part.length

theorem Ending.unique {other : List UInt8} (h : Ending bytes part) (h' : Ending bytes other) :
    part = other := by
  have hlength := Nat.le_antisymm (h'.longest part h.suffix h.begins)
    (h.longest other h'.suffix h'.begins)
  exact (List.suffix_of_suffix_length_le h.suffix h'.suffix (Nat.le_of_eq hlength)).eq_of_length hlength

/-- The ending of bytes, as it is found by reading them. -/
def ending : List UInt8 → List UInt8
  | [] => []
  | a :: rest =>
    match front a rest with
    | .char _ more | .broken more => ending (rest.drop more)
    | .cut => a :: rest
termination_by bytes => bytes.length
decreasing_by all_goals simp only [List.length_drop, List.length_cons]; omega

/-- What bytes are read as before their ending. -/
def beforeEnding : List UInt8 → List Char
  | [] => []
  | a :: rest =>
    match front a rest with
    | .char c more => c :: beforeEnding (rest.drop more)
    | .broken more => replacement :: beforeEnding (rest.drop more)
    | .cut => []
termination_by bytes => bytes.length
decreasing_by all_goals simp only [List.length_drop, List.length_cons]; omega

/-- A beginning of a character is never part of what was taken from the front before it. -/
theorem suffix_drop_of_begins (h : Begins part) (hpart : part <:+ rest)
    (htails : ∀ b ∈ rest.take n, isTail b = true) : part = [] ∨ part <:+ rest.drop n := by
  rcases List.suffix_or_suffix_of_suffix hpart (List.drop_suffix n rest) with h' | ⟨before, heq⟩
  · exact .inr h'
  · cases before with
    | nil => exact .inr (heq ▸ List.suffix_refl _)
    | cons b before =>
      -- Its first byte would be among those that continue an earlier one.
      obtain ⟨front, hfront⟩ := hpart
      have htake : front ++ b :: before = rest.take n := by
        rw [← List.append_left_inj (rest.drop n), List.append_assoc, heq, hfront,
          List.take_append_drop]
      rw [← heq, List.cons_append] at h
      have hb := htails b (by rw [← htake]; simp)
      exact absurd hb (by rw [h.tails.1]; simp)

/-- What was taken from the front before it has nothing to do with the ending. -/
theorem Ending.cons (h : Ending (rest.drop n) part) (hfront : front a rest ≠ .cut)
    (htails : ∀ b ∈ rest.take n, isTail b = true) : Ending (a :: rest) part where
  suffix := (h.suffix.trans (List.drop_suffix _ _)).trans (List.suffix_cons _ _)
  begins := h.begins
  longest other hother hbegins := by
    rcases List.suffix_cons_iff.mp hother with rfl | hrest
    · exact absurd (front_of_begins hbegins) hfront
    · rcases suffix_drop_of_begins hbegins hrest htails with rfl | hdrop
      · exact Nat.zero_le _
      · exact h.longest other hdrop hbegins

/-- Reading finds the ending. -/
theorem ending_spec (bytes : List UInt8) : Ending bytes (ending bytes) := by
  fun_induction ending bytes with
  | case1 =>
    exact ⟨List.suffix_refl _, begins_nil, fun other h _ => List.suffix_nil.mp h ▸ Nat.le_refl _⟩
  | case2 a rest c n hfront ih =>
    exact ih.cons (by simp [hfront]) (tails_of_char hfront)
  | case3 a rest n hfront ih =>
    exact ih.cons (by simp [hfront]) (tails_of_broken hfront).2
  | case4 a rest hfront =>
    exact ⟨List.suffix_refl _, begins_of_front hfront, fun other h _ => h.length_le⟩

theorem Ending.of_eq (h : ending bytes = part) : Ending bytes part := h ▸ ending_spec bytes

/-! ## Reading on

What has been read does not change when more bytes come, except for the ending. -/

theorem ending_of_begins (h : Begins part) : ending part = part := by
  cases part with
  | nil => rw [ending]
  | cons a part => rw [ending, front_of_begins h]

theorem beforeEnding_of_begins (h : Begins part) : beforeEnding part = [] := by
  cases part with
  | nil => rw [beforeEnding]
  | cons a part => rw [beforeEnding, front_of_begins h]

/-- **Whatever is written behind some bytes is read as if it were written behind their ending.** -/
theorem reading_append (bytes more : List UInt8) :
    ending (bytes ++ more) = ending (ending bytes ++ more) ∧
      beforeEnding (bytes ++ more) = beforeEnding bytes ++ beforeEnding (ending bytes ++ more) := by
  fun_induction ending bytes with
  | case1 => rw [beforeEnding]; exact ⟨rfl, rfl⟩
  | case2 a rest c n hfront ih =>
    have hmore : front a (rest ++ more) = front a rest := front_append (by simp [hfront]) more
    rw [hfront] at hmore
    rw [List.cons_append, ending, beforeEnding, beforeEnding, hmore, hfront]
    simp only [List.drop_append_of_le_length (spells_of_front hfront).1]
    exact ⟨ih.1, congrArg (c :: ·) ih.2⟩
  | case3 a rest n hfront ih =>
    have hmore : front a (rest ++ more) = front a rest := front_append (by simp [hfront]) more
    rw [hfront] at hmore
    rw [List.cons_append, ending, beforeEnding, beforeEnding, hmore, hfront]
    simp only [List.drop_append_of_le_length (tails_of_broken hfront).1]
    exact ⟨ih.1, congrArg (replacement :: ·) ih.2⟩
  | case4 a rest hfront =>
    rw [beforeEnding_of_begins (begins_of_front hfront)]
    exact ⟨rfl, rfl⟩

/-- A lossy reading puts one replacement for the ending, if there is one. -/
theorem lossyChars_eq (bytes : List UInt8) :
    lossyChars bytes = beforeEnding bytes ++ if ending bytes = [] then [] else [replacement] := by
  fun_induction ending bytes with
  | case1 => rw [lossyChars, beforeEnding]; rfl
  | case2 a rest c n hfront ih =>
    rw [lossyChars, beforeEnding, hfront]
    exact congrArg (c :: ·) ih
  | case3 a rest n hfront ih =>
    rw [lossyChars, beforeEnding, hfront]
    exact congrArg (replacement :: ·) ih
  | case4 a rest hfront => rw [lossyChars, beforeEnding, hfront, if_neg (List.cons_ne_nil _ _)]; rfl

/-- Bytes that are broken off, with nothing behind them. -/
theorem lossyChars_broken (h : front a rest = .broken n) :
    lossyChars (a :: rest.take n) = [replacement] := by
  have hcut : front a (rest.take n) = .cut ∨ front a (rest.take n) = .broken n := by
    by_cases hcut : front a (rest.take n) = .cut
    · exact .inl hcut
    · have heq := front_append hcut (rest.drop n)
      rw [List.take_append_drop, h] at heq
      exact .inr heq.symm
  rw [lossyChars]
  rcases hcut with hcut | hcut
  · rw [hcut]
  · rw [hcut]
    simp only [List.drop_take, Nat.sub_self, List.take_zero]
    rw [lossyChars]

/-- What comes before the ending goes on behind what is taken from the front. -/
theorem exists_of_append_ending {init : List UInt8} (h : init ++ ending (rest.drop n) = a :: rest) :
    ∃ more, init = a :: (rest.take n ++ more) ∧ more ++ ending (rest.drop n) = rest.drop n := by
  obtain ⟨more, hmore⟩ := (ending_spec (rest.drop n)).suffix
  refine ⟨more, ?_, hmore⟩
  rw [← List.append_left_inj (ending (rest.drop n)), h, List.cons_append, List.append_assoc, hmore,
    List.take_append_drop]

/-- What comes before the ending is read by itself as it is read in front of the ending. -/
theorem lossyChars_of_ending {init : List UInt8} (h : init ++ ending bytes = bytes) :
    lossyChars init = beforeEnding bytes := by
  fun_induction ending bytes generalizing init with
  | case1 => rw [(List.append_eq_nil_iff.mp h).1, lossyChars, beforeEnding]
  | case2 a rest c n hfront ih =>
    obtain ⟨more, rfl, hmore⟩ := exists_of_append_ending h
    obtain ⟨hn, hspells⟩ := spells_of_front hfront
    obtain ⟨_, _, heq, hread⟩ := hspells.front more
    cases heq
    rw [lossyChars, beforeEnding, hread, hfront]
    simp only [List.drop_left, ← ih hmore]
  | case3 a rest n hfront ih =>
    obtain ⟨more, rfl, hmore⟩ := exists_of_append_ending h
    have hn := (tails_of_broken hfront).1
    cases more with
    | nil =>
      rw [List.append_nil, lossyChars_broken hfront, beforeEnding, hfront]
      simp only [← ih hmore]
      rw [lossyChars]
    | cons b more =>
      -- The byte behind what is broken off comes before the ending.
      have hprefix : rest.take (n + 1) <+: rest.take n ++ b :: more := by
        refine List.prefix_of_prefix_length_le (List.take_prefix _ rest) ⟨ending (rest.drop n), ?_⟩ ?_
        · rw [List.append_assoc, hmore, List.take_append_drop]
        · rw [List.length_append, List.length_take, List.length_take_of_le hn, List.length_cons]
          omega
      rw [lossyChars, beforeEnding, front_of_broken hfront hprefix, hfront]
      simp only [List.drop_left' (List.length_take_of_le hn), ih hmore]
  | case4 a rest hfront =>
    rw [List.append_left_eq_self.mp h, lossyChars, beforeEnding, hfront]

/-! ## Bytes in which nothing is broken

The two cases in which the complete part of some bytes is found: what is intact is completed up to its
ending, and of what is broken nothing is left out. -/

/-- The bytes of a text, cut short or not. -/
def Intact (bytes : List UInt8) : Prop := ∃ cs part, Begins part ∧ bytes = bytesOf cs ++ part

theorem reading_bytesOf_append (cs : List Char) (h : Begins part) :
    ending (bytesOf cs ++ part) = part ∧ beforeEnding (bytesOf cs ++ part) = cs := by
  induction cs with
  | nil => exact ⟨ending_of_begins h, beforeEnding_of_begins h⟩
  | cons c cs ih =>
    obtain ⟨a, tail, hbytes, hfront⟩ := exists_front c (bytesOf cs ++ part)
    rw [bytesOf_cons, List.append_assoc, hbytes, List.cons_append, ending, beforeEnding, hfront]
    simp only [List.drop_left]
    exact ⟨ih.1, congrArg (c :: ·) ih.2⟩

theorem intact_of_decodeFrom (offset : Nat)
    (h : ∀ length place, decodeFrom offset bytes ≠ .error (.broken length place)) : Intact bytes := by
  fun_induction decodeFrom offset bytes with
  | case1 => exact ⟨[], [], begins_nil, rfl⟩
  | case2 offset a rest c n hfront ih =>
    have hrest := ih fun length place heq => h length place (by rw [heq]; rfl)
    obtain ⟨cs, part, hpart, heq⟩ := hrest
    obtain ⟨-, hspells⟩ := spells_of_front hfront
    refine ⟨c :: cs, part, hpart, ?_⟩
    rw [bytesOf_cons, hspells.encodeChar, List.append_assoc, ← heq, List.cons_append,
      List.take_append_drop]
  | case3 offset a rest n hfront => exact absurd rfl (h _ _)
  | case4 offset a rest hfront => exact ⟨[], a :: rest, begins_of_front hfront, rfl⟩

/-- A text that is read from bytes is written as these bytes. -/
theorem encode_of_decode {text : String} (h : decode bytes = .ok text) : encode text = bytes := by
  rw [decode] at h
  cases hchars : decodeFrom 0 bytes with
  | error fault =>
    rw [hchars] at h
    cases h
  | ok cs =>
    rw [hchars] at h
    cases h
    have hintact : Intact bytes := intact_of_decodeFrom 0 (by simp [hchars])
    obtain ⟨ds, part, hpart, rfl⟩ := hintact
    rw [decodeFrom_bytesOf_append ds hpart] at hchars
    split at hchars
    · next hnil =>
      cases hchars
      rw [encode_eq, String.toList_ofList, hnil, List.append_nil]
    · cases hchars

/-- The complete part of a text that is cut short is what comes before its ending. -/
theorem completePart_of_intact (h : Intact bytes) :
    bytes.drop (completePart bytes) = ending bytes ∧ wholeText bytes = .ofList (beforeEnding bytes) := by
  obtain ⟨cs, part, hpart, rfl⟩ := h
  obtain ⟨hending, hbefore⟩ := reading_bytesOf_append cs hpart
  rw [wholeText_bytesOf_append cs hpart, completePart_bytesOf_append cs hpart, List.drop_left, hending,
    hbefore]
  exact ⟨rfl, rfl⟩

/-- Where anything is broken everything is complete. -/
theorem completePart_of_broken (h : ¬Intact bytes) : completePart bytes = bytes.length := by
  rw [completePart]
  split
  · next offset hcut =>
    refine absurd (intact_of_decodeFrom 0 fun length place => ?_) h
    rw [hcut]
    simp
  · rfl

/-- Whatever the bytes are, behind their complete part there is the beginning of a character or
nothing. -/
theorem begins_drop_completePart (bytes : List UInt8) : Begins (bytes.drop (completePart bytes)) := by
  by_cases h : Intact bytes
  · rw [(completePart_of_intact h).1]
    exact (ending_spec bytes).begins
  · rw [completePart_of_broken h, List.drop_length]
    exact begins_nil

end EventUpload.Utf8
