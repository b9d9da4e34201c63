import EventUpload.Text.Utf8

/-!
# Reading what was written

The bytes of a text are read back as that text (`decodeFrom_bytesOf_append`, `lossyChars_bytesOf`), and
where they are cut short inside a character, the whole characters before the cut are the complete part
(`completePart_bytesOf_append`). `Reads bytes text` says that a text is what some bytes amount to up to
their last character boundary: there is one such text, and `reads_wholeText` computes it.

How a single character is spelled is kept apart from all this. `Spells` has one rule for each number of
bytes, with the bounds that `front` checks; `spells_encodeChar` says that characters are written by
these rules, and `Spells.front` and `Spells.front_take` how they are read. The arithmetic of bits is in
`spells_encodeChar`, and whoever wants to know something about the bytes of a character goes by the four
rules.

The statements have something behind the text, `Begins part`, because a text that was cut somewhere is
the usual case: it is whole characters and then the beginning of one. That beginning may be empty, and
then the text is whole. `exists_begins` says that every prefix of the bytes of a text is of this shape,
so whoever has such a prefix may go over to characters at once.

Here nothing is said about bytes that are no text at all; for these see `Text/Ending`.
-/

set_option autoImplicit false

namespace EventUpload.Utf8

/-! ## One character

Encoded characters have from one to four bytes, by the size of the character. -/

/-- The bytes of a character, by how many they are. -/
inductive Spells : List UInt8 → Char → Prop where
  | one {a : UInt8} (ha : a < 0x80) : Spells [a] (.ofNat a.toNat)
  | two {a b : UInt8} (ha : 0xC2 ≤ a ∧ a < 0xE0) (hb : isTail b = true) :
    Spells [a, b] (.ofNat (a.toNat % 32 * 64 + low b))
  | three {a b c : UInt8} (ha : 0xE0 ≤ a ∧ a < 0xF0)
    (hb : (if a = 0xE0 then 0xA0 else 0x80) ≤ b ∧ b ≤ if a = 0xED then 0x9F else 0xBF)
    (hc : isTail c = true) :
    Spells [a, b, c] (.ofNat ((a.toNat % 16 * 64 + low b) * 64 + low c))
  | four {a b c d : UInt8} (ha : 0xF0 ≤ a ∧ a < 0xF5)
    (hb : (if a = 0xF0 then 0x90 else 0x80) ≤ b ∧ b ≤ if a = 0xF4 then 0x8F else 0xBF)
    (hc : isTail c = true) (hd : isTail d = true) :
    Spells [a, b, c, d] (.ofNat (((a.toNat % 8 * 64 + low b) * 64 + low c) * 64 + low d))

theorem isTail_ofNat (n : Nat) : isTail (.ofNat (n % 64 + 128)) = true := by
  simp only [isTail, UInt8.le_iff_toNat_le, UInt8.toNat_ofNat', UInt8.reduceToNat,
    Bool.and_eq_true, decide_eq_true_eq]
  omega

theorem low_ofNat (n : Nat) : low (.ofNat (n % 64 + 128)) = n % 64 := by
  rw [low, UInt8.toNat_ofNat']
  omega

/-- The bytes of a character spell it, by the number of bytes that it takes. -/
theorem spells_encodeChar (c : Char) : Spells (String.utf8EncodeChar c) c := by
  have hvalid : c.val.toNat < 0xD800 ∨ 0xDFFF < c.val.toNat ∧ c.val.toNat < 0x110000 := c.valid
  have of_eq {n : Nat} {bytes : List UInt8} (hn : n = c.val.toNat) (h : Spells bytes (.ofNat n)) :
      Spells bytes c := by
    subst hn
    exact c.ofNat_toNat ▸ h
  -- One case for each number of bytes, with the bounds of its first two bytes.
  fun_cases String.utf8EncodeChar c with
  | case1 v h =>
    refine of_eq ?_ (.one ?_)
    · rw [UInt8.toNat_ofNat']; omega
    · simp only [UInt8.lt_iff_toNat_lt, UInt8.toNat_ofNat', UInt8.reduceToNat]; omega
  | case2 v h1 h2 =>
    refine of_eq ?_ (.two ⟨?_, ?_⟩ (isTail_ofNat v))
    · rw [low_ofNat, UInt8.toNat_ofNat']; omega
    · simp only [UInt8.le_iff_toNat_le, UInt8.toNat_ofNat', UInt8.reduceToNat]; omega
    · simp only [UInt8.lt_iff_toNat_lt, UInt8.toNat_ofNat', UInt8.reduceToNat]; omega
  | case3 v h1 h2 h3 =>
    refine of_eq ?_ (.three ⟨?_, ?_⟩ ⟨?_, ?_⟩ (isTail_ofNat v))
    · rw [low_ofNat, low_ofNat, UInt8.toNat_ofNat']; omega
    · simp only [UInt8.le_iff_toNat_le, UInt8.toNat_ofNat', UInt8.reduceToNat]; omega
    · simp only [UInt8.lt_iff_toNat_lt, UInt8.toNat_ofNat', UInt8.reduceToNat]; omega
    -- The second byte of three excludes the surrogates, and forms that would do with two bytes.
    · split <;> simp_all [v, UInt8.le_iff_toNat_le, ← UInt8.toNat_inj] <;> omega
    · split <;> simp_all [v, UInt8.le_iff_toNat_le, ← UInt8.toNat_inj] <;> omega
  | case4 v h1 h2 h3 =>
    refine of_eq ?_ (.four ⟨?_, ?_⟩ ⟨?_, ?_⟩ (isTail_ofNat _) (isTail_ofNat v))
    · rw [low_ofNat, low_ofNat, low_ofNat, UInt8.toNat_ofNat']; omega
    · simp only [UInt8.le_iff_toNat_le, UInt8.toNat_ofNat', UInt8.reduceToNat]; omega
    · simp only [UInt8.lt_iff_toNat_lt, UInt8.toNat_ofNat', UInt8.reduceToNat]; omega
    -- The second byte of four excludes what is beyond the last character, and forms that would do with
    -- three.
    · split <;> simp_all [v, UInt8.le_iff_toNat_le, ← UInt8.toNat_inj] <;> omega
    · split <;> simp_all [v, UInt8.le_iff_toNat_le, ← UInt8.toNat_inj] <;> omega

theorem not_lt_of_le {a least most : UInt8} (h : most ≤ a) (hle : least ≤ most) : ¬a < least :=
  UInt8.not_lt.mpr (UInt8.le_trans hle h)

/-- The bytes of a character are read as that character, whatever comes after them. -/
theorem Spells.front {bytes : List UInt8} {c : Char} (h : Spells bytes c) (more : List UInt8) :
    ∃ a tail, bytes = a :: tail ∧ front a (tail ++ more) = .char c tail.length := by
  cases h with
  | one ha => exact ⟨_, _, rfl, by simp [Utf8.front, ha]⟩
  | two ha hb => exact ⟨_, _, rfl, by simp [Utf8.front, not_lt_of_le ha.1, ha.2, hb]⟩
  | three ha hb hc =>
    exact ⟨_, _, rfl, by simp [Utf8.front, UInt8.not_lt, not_lt_of_le ha.1, ha.2, hb, hc]⟩
  | four ha hb hc hd =>
    exact ⟨_, _, rfl, by simp [Utf8.front, UInt8.not_lt, not_lt_of_le ha.1, ha.2, hb, hc, hd]⟩

/-- Some of the bytes of a character, but not all of them, are read as a character cut short. -/
theorem Spells.front_take {a : UInt8} {tail : List UInt8} {c : Char} (h : Spells (a :: tail) c)
    {n : Nat} (hn : n < tail.length) : Utf8.front a (tail.take n) = .cut := by
  cases h with
  | one ha => exact absurd hn (Nat.not_lt_zero n)
  | two ha hb =>
    obtain rfl : n = 0 := by simpa using hn
    simp [Utf8.front, not_lt_of_le ha.1, ha.2]
  | three ha hb hc =>
    obtain rfl | rfl : n = 0 ∨ n = 1 := by simp at hn; omega
    all_goals simp [Utf8.front, UInt8.not_lt, not_lt_of_le ha.1, ha.2, hb]
  | four ha hb hc hd =>
    obtain rfl | rfl | rfl : n = 0 ∨ n = 1 ∨ n = 2 := by simp at hn; omega
    all_goals simp [Utf8.front, UInt8.not_lt, not_lt_of_le ha.1, ha.2, hb, hc]

/-- A byte below 0x80 is a character by itself, and occurs in no other one. -/
theorem Spells.eq_of_mem {bytes : List UInt8} {c : Char} (h : Spells bytes c) {b : UInt8}
    (hmem : b ∈ bytes) (hb : b < 0x80) : c = .ofNat b.toNat := by
  have ne_of_le {d : UInt8} (hd : 0x80 ≤ d) : b ≠ d := fun heq => UInt8.not_lt.mpr (heq ▸ hd) hb
  have ne_of_isTail {d : UInt8} (hd : isTail d = true) : b ≠ d := by
    simp only [isTail, Bool.and_eq_true, decide_eq_true_eq] at hd
    exact ne_of_le hd.1
  have ne_of_bound {d least : UInt8} (hleast : 0x80 ≤ least) (hd : least ≤ d) : b ≠ d :=
    ne_of_le (UInt8.le_trans hleast hd)
  cases h with
  | one ha => rw [List.mem_singleton.mp hmem]
  | two ha hsecond =>
    simp [ne_of_bound (by decide) ha.1, ne_of_isTail hsecond] at hmem
  | three ha hsecond hc =>
    have hleast : b ≠ _ := ne_of_bound (by split <;> decide) hsecond.1
    simp [ne_of_bound (by decide) ha.1, hleast, ne_of_isTail hc] at hmem
  | four ha hsecond hc hd =>
    have hleast : b ≠ _ := ne_of_bound (by split <;> decide) hsecond.1
    simp [ne_of_bound (by decide) ha.1, hleast, ne_of_isTail hc, ne_of_isTail hd] at hmem

/-! ## The bytes of a text -/

/-- The bytes of some characters. -/
def bytesOf (cs : List Char) : List UInt8 := cs.flatMap String.utf8EncodeChar

@[simp] theorem bytesOf_nil : bytesOf [] = [] := rfl

@[simp] theorem bytesOf_cons (c : Char) (cs : List Char) :
    bytesOf (c :: cs) = String.utf8EncodeChar c ++ bytesOf cs := rfl

@[simp] theorem bytesOf_append (cs ds : List Char) : bytesOf (cs ++ ds) = bytesOf cs ++ bytesOf ds :=
  List.flatMap_append

theorem encode_eq (text : String) : encode text = bytesOf text.toList := rfl

/-- The byte of a line feed comes from a line feed. -/
theorem newline_mem_of_mem_bytesOf {cs : List Char} (h : 10 ∈ bytesOf cs) : '\n' ∈ cs := by
  rw [bytesOf, List.mem_flatMap] at h
  obtain ⟨c, hc, hmem⟩ := h
  rwa [(spells_encodeChar c).eq_of_mem hmem (by decide)] at hc

/-- The beginning of a character, without its end; there may be nothing of it. -/
def Begins (part : List UInt8) : Prop :=
  ∃ c n, n < (String.utf8EncodeChar c).length ∧ part = (String.utf8EncodeChar c).take n

theorem begins_nil : Begins [] :=
  ⟨'a', 0, List.length_pos_iff.mpr String.utf8EncodeChar_ne_nil, rfl⟩

theorem front_of_begins {a : UInt8} {part : List UInt8} (h : Begins (a :: part)) :
    front a part = .cut := by
  obtain ⟨c, n, hn, heq⟩ := h
  have hspells := spells_encodeChar c
  cases hbytes : String.utf8EncodeChar c with
  | nil => exact absurd hbytes String.utf8EncodeChar_ne_nil
  | cons b tail =>
    rw [hbytes] at hn heq hspells
    cases n with
    | zero => exact absurd heq (by simp)
    | succ n =>
      rw [List.take_succ_cons, List.cons.injEq] at heq
      obtain ⟨rfl, rfl⟩ := heq
      exact hspells.front_take (Nat.lt_of_succ_lt_succ hn)

/-- The front of a text. -/
theorem exists_front (c : Char) (more : List UInt8) : ∃ a tail, String.utf8EncodeChar c = a :: tail ∧
    front a (tail ++ more) = .char c tail.length :=
  (spells_encodeChar c).front more

theorem decodeFrom_encodeChar_append (offset : Nat) (c : Char) (more : List UInt8) :
    decodeFrom offset (String.utf8EncodeChar c ++ more) =
      (decodeFrom (offset + (String.utf8EncodeChar c).length) more).map (c :: ·) := by
  obtain ⟨a, tail, hbytes, hfront⟩ := exists_front c more
  rw [hbytes, List.cons_append, decodeFrom, hfront]
  simp only [List.drop_left, List.length_cons, Nat.add_comm tail.length, ← Nat.add_assoc]
  rfl

theorem lossyChars_encodeChar_append (c : Char) (more : List UInt8) :
    lossyChars (String.utf8EncodeChar c ++ more) = c :: lossyChars more := by
  obtain ⟨a, tail, hbytes, hfront⟩ := exists_front c more
  rw [hbytes, List.cons_append, lossyChars, hfront]
  simp only [List.drop_left]

/-- The bytes of a text, cut short or not, are the whole characters before the cut. -/
theorem decodeFrom_bytesOf_append (cs : List Char) {part : List UInt8} (h : Begins part)
    (offset : Nat) : decodeFrom offset (bytesOf cs ++ part) =
      if part = [] then .ok cs else .error (.cut (offset + (bytesOf cs).length)) := by
  induction cs generalizing offset with
  | nil =>
    cases part with
    | nil => simp [decodeFrom]
    | cons a part => simp [decodeFrom, front_of_begins h]
  | cons c cs ih =>
    rw [bytesOf_cons, List.append_assoc, decodeFrom_encodeChar_append, ih]
    split
    · rfl
    · rw [Except.map, List.length_append, Nat.add_assoc]

/-- The bytes of a text are that text. -/
theorem decode_encode (text : String) : decode (encode text) = .ok text := by
  have h := decodeFrom_bytesOf_append text.toList begins_nil 0
  rw [if_pos rfl, List.append_nil] at h
  rw [decode, encode_eq, h]
  exact congrArg Except.ok String.ofList_toList

theorem lossyChars_bytesOf (cs : List Char) : lossyChars (bytesOf cs) = cs := by
  induction cs with
  | nil => rw [bytesOf_nil, lossyChars]
  | cons c cs ih => rw [bytesOf_cons, lossyChars_encodeChar_append, ih]

theorem completePart_bytesOf_append (cs : List Char) {part : List UInt8} (h : Begins part) :
    completePart (bytesOf cs ++ part) = (bytesOf cs).length := by
  rw [completePart, decodeFrom_bytesOf_append cs h]
  by_cases hpart : part = []
  · simp [hpart]
  · simp [hpart]

/-! ## Prefixes

A text that is cut short has a part of one character at its end, and whole ones before it. -/

theorem encodeChar_append_inj {c d : Char} {more rest : List UInt8}
    (h : String.utf8EncodeChar c ++ more = String.utf8EncodeChar d ++ rest) :
    c = d ∧ more = rest := by
  obtain ⟨a, tail, hc, hfront⟩ := exists_front c more
  obtain ⟨b, tail', hd, hfront'⟩ := exists_front d rest
  have heq := h
  rw [hc, hd, List.cons_append, List.cons_append, List.cons.injEq] at heq
  obtain ⟨rfl, htail⟩ := heq
  rw [htail, hfront', Front.char.injEq] at hfront
  obtain rfl : d = c := hfront.1
  exact ⟨rfl, List.append_cancel_left h⟩

/-- What the bytes of a text go on with after the bytes of another text. -/
theorem exists_of_bytesOf_append_prefix {cs ds : List Char} {bytes : List UInt8}
    (h : bytesOf cs ++ bytes <+: bytesOf ds) : ∃ es, ds = cs ++ es ∧ bytes <+: bytesOf es := by
  induction cs generalizing ds with
  | nil => exact ⟨ds, rfl, h⟩
  | cons c cs ih =>
    obtain ⟨more, hmore⟩ := h
    rw [bytesOf_cons, List.append_assoc, List.append_assoc] at hmore
    cases ds with
    | nil => exact absurd hmore (by simp [String.utf8EncodeChar_ne_nil])
    | cons d ds =>
      obtain ⟨rfl, hrest⟩ := encodeChar_append_inj hmore
      obtain ⟨es, rfl, hes⟩ := ih ⟨more, by rw [List.append_assoc]; exact hrest⟩
      exact ⟨es, rfl, hes⟩

/-- A prefix of the bytes of a text is the bytes of a prefix and the beginning of a character. -/
theorem exists_begins {cs : List Char} {bytes : List UInt8} (h : bytes <+: bytesOf cs) :
    ∃ ds part, bytes = bytesOf ds ++ part ∧ Begins part := by
  induction cs generalizing bytes with
  | nil => exact ⟨[], [], List.prefix_nil.mp h, begins_nil⟩
  | cons c cs ih =>
    rcases Nat.lt_or_ge bytes.length (String.utf8EncodeChar c).length with hlt | hge
    · -- The bytes end inside the first character.
      refine ⟨[], bytes, rfl, c, bytes.length, hlt, ?_⟩
      have htake := List.prefix_iff_eq_take.mp h
      rwa [bytesOf_cons, List.take_append_of_le_length (Nat.le_of_lt hlt)] at htake
    · obtain ⟨rest, rfl⟩ := List.prefix_of_prefix_length_le (List.prefix_append _ _) h hge
      obtain ⟨ds, part, rfl, hpart⟩ := ih ((List.prefix_append_right_inj _).mp h)
      exact ⟨c :: ds, part, by rw [bytesOf_cons, List.append_assoc], hpart⟩

/-- No text reaches into the beginning of a character. -/
theorem prefix_of_bytesOf_prefix {cs ds : List Char} {part : List UInt8} (hpart : Begins part)
    (h : bytesOf cs <+: bytesOf ds ++ part) : cs <+: ds := by
  induction cs generalizing ds with
  | nil => exact List.nil_prefix
  | cons c cs ih =>
    obtain ⟨more, hmore⟩ := h
    rw [bytesOf_cons, List.append_assoc] at hmore
    cases ds with
    | nil =>
      obtain ⟨a, tail, hbytes, hfront⟩ := exists_front c (bytesOf cs ++ more)
      rw [hbytes, bytesOf_nil, List.nil_append, List.cons_append] at hmore
      exact absurd (hfront.symm.trans (front_of_begins (hmore ▸ hpart))) (by simp)
    | cons d ds =>
      rw [bytesOf_cons, List.append_assoc] at hmore
      obtain ⟨rfl, hrest⟩ := encodeChar_append_inj hmore
      exact List.cons_prefix_cons.mpr ⟨rfl, ih ⟨more, hrest⟩⟩

/-! ## What bytes amount to -/

/-- A text is what some bytes amount to up to their last character boundary. -/
structure Reads (bytes : List UInt8) (text : String) : Prop where
  starts : encode text <+: bytes
  longest : ∀ more, encode more <+: bytes → encode more <+: encode text

theorem encode_injective {s t : String} (h : encode s = encode t) : s = t := by
  rw [← String.toList_inj, ← lossyChars_bytesOf s.toList, ← lossyChars_bytesOf t.toList]
  exact congrArg lossyChars h

theorem Reads.unique {bytes : List UInt8} {s t : String} (hs : Reads bytes s) (ht : Reads bytes t) :
    s = t :=
  encode_injective ((ht.longest s hs.starts).eq_of_length_le (hs.longest t ht.starts).length_le)

/-- The bytes of a text amount to all of it. -/
theorem reads_encode (text : String) : Reads (encode text) text :=
  ⟨List.prefix_refl _, fun _ h => h⟩

theorem reads_bytesOf_append (cs : List Char) {part : List UInt8} (h : Begins part) :
    Reads (bytesOf cs ++ part) (.ofList cs) where
  starts := by
    rw [encode_eq, String.toList_ofList]
    exact List.prefix_append _ _
  longest more hmore := by
    rw [encode_eq, encode_eq, String.toList_ofList]
    obtain ⟨rest, hrest⟩ := prefix_of_bytesOf_prefix h hmore
    rw [← hrest, bytesOf_append]
    exact List.prefix_append _ _

/-- The text of the complete part of some bytes. -/
def wholeText (bytes : List UInt8) : String := decodeLossy (bytes.take (completePart bytes))

theorem wholeText_bytesOf_append (cs : List Char) {part : List UInt8} (h : Begins part) :
    wholeText (bytesOf cs ++ part) = .ofList cs := by
  rw [wholeText, completePart_bytesOf_append cs h, List.take_left, decodeLossy, lossyChars_bytesOf]

/-- The complete part of the bytes of a text that may be cut short is what they amount to. -/
theorem reads_wholeText {bytes : List UInt8} {text : String} (h : bytes <+: encode text) :
    Reads bytes (wholeText bytes) := by
  obtain ⟨cs, part, rfl, hpart⟩ := exists_begins h
  rw [wholeText_bytesOf_append cs hpart]
  exact reads_bytesOf_append cs hpart

end EventUpload.Utf8
