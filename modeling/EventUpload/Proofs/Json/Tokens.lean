import EventUpload.Json.Printer
import EventUpload.Json.Reader
import Mathlib.Tactic.IntervalCases

/-!
# Numbers and strings of JSON texts

What the printer writes for a whole number and for a string is what the reader reads back. The scanner
of numbers takes all the digits that there are, so a number is told from what follows it only if that
does not continue it; a closing quote ends a string whatever comes next. Both statements are about a
text that goes on, and so they serve for texts of any shape around the number or the string.

The scanner of digits counts how many it has taken and how many did not fit a word any more. For a
number that was written from a word nothing is ever dropped (`absorb_eq`), and that needs a bound on the
number so far at each digit: every number on the way is no larger than the whole. A minus sign makes the
range of a word smaller, and zero behind it is a real number, so the negative numbers have a statement
of their own.

For strings the three ways of writing a character are told apart once (`escapeChar_cases`).
-/

set_option autoImplicit false

namespace EventUpload.Json

/-! ## Numbers -/

theorem isDigit_eq (c : Char) : isDigit c = c.isDigit := by
  simp only [isDigit, Char.isDigit, Char.le_def]

theorem isDigit_of_mem_toDigits {n : Nat} {c : Char} (h : c ∈ Nat.toDigits 10 n) :
    isDigit c = true := by
  rw [isDigit_eq]
  exact Nat.isDigit_of_mem_toDigits (by decide) (by decide) h

theorem exists_digit (n : Nat) : ∃ d ds, Nat.toDigits 10 n = d :: ds ∧ isDigit d = true := by
  cases hds : Nat.toDigits 10 n with
  | nil => exact absurd hds Nat.toDigits_ne_nil
  | cons d ds => exact ⟨d, ds, rfl, isDigit_of_mem_toDigits (hds ▸ List.mem_cons_self)⟩

/-- The characters that a scanner takes for more of the number before them. -/
def continuesNumber : List Char → Bool
  | c :: _ => isDigit c || c = '.' || c = 'e' || c = 'E'
  | [] => false

theorem startsWithDigit_of_continuesNumber {rest : List Char} (h : continuesNumber rest = false) :
    startsWithDigit rest = false := by
  cases rest with
  | nil => rfl
  | cons c rest =>
    simp only [continuesNumber, Bool.or_eq_false_iff] at h
    exact h.1.1.1

theorem le_ofDigitChars (cs : List Char) (n : Nat) : n ≤ Nat.ofDigitChars 10 cs n := by
  rw [Nat.ofDigitChars_eq_ofDigitChars_zero]
  have : 1 * n ≤ 10 ^ cs.length * n := Nat.mul_le_mul_right n (Nat.one_le_pow _ _ (by decide))
  omega

/-- Digits whose number fits a word are all taken. -/
theorem absorb_eq (cs : List Char) {n : Nat} (taken : Nat)
    (h : Nat.ofDigitChars 10 cs n ≤ maxWord) :
    absorb n taken cs = (Nat.ofDigitChars 10 cs n, taken + cs.length, 0) := by
  induction cs generalizing n taken with
  | nil => rfl
  | cons c cs ih =>
    have hnext : n * 10 + digitValue c = 10 * n + (c.toNat - '0'.toNat) := by
      rw [digitValue, Nat.mul_comm]
    rw [Nat.ofDigitChars_cons, ← hnext] at h ⊢
    have hle := Nat.le_trans (le_ofDigitChars cs _) h
    rw [absorb]
    simp only [hle, if_true]
    rw [ih _ h, List.length_cons, Nat.add_right_comm, Nat.add_assoc]

theorem takeWhile_digits {ds rest : List Char} (hds : ∀ c ∈ ds, isDigit c = true)
    (hrest : startsWithDigit rest = false) :
    (ds ++ rest).takeWhile isDigit = ds ∧ (ds ++ rest).dropWhile isDigit = rest := by
  rw [List.takeWhile_append_of_pos hds, List.dropWhile_append_of_pos hds]
  cases rest with
  | nil => simp
  | cons c rest =>
    have hc : isDigit c = false := hrest
    simp [hc]

/-- Only zero is written with a zero in front; the reader refuses any other number that is. -/
theorem head?_toDigits {n : Nat} (h : 0 < n) : (Nat.toDigits 10 n).head? ≠ some '0' := by
  induction n using Nat.strong_induction_on with
  | _ n ih =>
    rcases Nat.lt_or_ge n 10 with hlt | hge
    · rw [Nat.toDigits_of_lt_base hlt]
      interval_cases n <;> decide
    · rw [Nat.toDigits_of_base_le (by decide) hge, List.head?_append,
        Option.or_of_isSome (by simp)]
      exact ih _ (Nat.div_lt_self h (by decide)) (Nat.div_pos hge (by decide))

theorem readNumber_toDigits (positive : Bool) {n : Nat} (hn : n ≤ maxWord) {rest : List Char}
    (hrest : continuesNumber rest = false) :
    readNumber positive (Nat.toDigits 10 n ++ rest) = readNumberTail positive n 0 rest := by
  have hstart := startsWithDigit_of_continuesNumber hrest
  rcases Nat.eq_zero_or_pos n with rfl | hpos
  · rw [Nat.toDigits_zero, List.singleton_append, readNumber, hstart]
    rfl
  · have hhead := head?_toDigits hpos
    have hall : ∀ c ∈ Nat.toDigits 10 n, isDigit c = true := fun c => isDigit_of_mem_toDigits
    have hvalue : Nat.ofDigitChars 10 (Nat.toDigits 10 n) 0 = n := Nat.ofDigitChars_ten_toDigits
    cases hds : Nat.toDigits 10 n with
    | nil => exact absurd hds Nat.toDigits_ne_nil
    | cons d ds =>
      rw [hds] at hhead hall hvalue
      have hd : d ≠ '0' := fun h => hhead (by rw [h]; rfl)
      obtain ⟨htake, hdrop⟩ :=
        takeWhile_digits (fun c hc => hall c (List.mem_cons_of_mem _ hc)) hstart
      have habsorb := absorb_eq (d :: ds) (n := 0) 0 (by rw [hvalue]; exact hn)
      rw [List.cons_append, readNumber.eq_3 _ _ _ (by simpa using hd), if_pos (hall d (by simp)),
        htake, hdrop]
      simp only [habsorb, hvalue]

theorem readNumberTail_of_not {rest : List Char} (hrest : continuesNumber rest = false)
    (positive : Bool) (n : Nat) :
    readNumberTail positive n 0 rest =
      if positive then .ok (.whole n, rest)
      else if n = 0 || Nat.pow 2 63 < n then .ok (.real (-(UInt64.ofNat n).toFloat), rest)
      else .ok (.whole (-(n : Int)), rest) := by
  unfold readNumberTail
  split
  · simp [continuesNumber] at hrest
  · simp [continuesNumber] at hrest
  · simp [continuesNumber] at hrest
  · rfl

/-- A whole number as it is written: its digits, behind a sign if it is negative. -/
theorem chars_whole (n : Int) : (Number.whole n).chars =
    if 0 ≤ n then Nat.toDigits 10 n.toNat else '-' :: Nat.toDigits 10 (-n).toNat := by
  rw [Number.chars, Int.toString_eq_repr, Int.repr_eq_if]
  split
  · rw [Nat.repr_eq_ofList_toDigits, String.toList_ofList]
  · rw [Nat.repr_eq_ofList_toDigits, String.toList_append, String.toList_ofList,
      String.toList_ofList]
    rfl

theorem maxWord_eq : maxWord = 2 ^ 64 - 1 := rfl

theorem readNumber_natural {n : Nat} (hn : n < 2 ^ 64) {rest : List Char}
    (hrest : continuesNumber rest = false) :
    readNumber true (Nat.toDigits 10 n ++ rest) = .ok (.whole n, rest) := by
  rw [readNumber_toDigits true (by rw [maxWord_eq]; omega) hrest, readNumberTail_of_not hrest,
    if_pos rfl]

/-- Behind a minus sign zero would be a real number, and so would one too large for a signed word. -/
theorem readNumber_negative {n : Nat} (hpos : 0 < n) (hn : n ≤ 2 ^ 63) {rest : List Char}
    (hrest : continuesNumber rest = false) :
    readNumber false (Nat.toDigits 10 n ++ rest) = .ok (.whole (-(n : Int)), rest) := by
  have hsmall : (n = 0 || Nat.pow 2 63 < n) = false := by
    rw [show Nat.pow 2 63 = 2 ^ 63 from rfl, Bool.or_eq_false_iff, decide_eq_false_iff_not,
      decide_eq_false_iff_not]
    omega
  rw [readNumber_toDigits false (by rw [maxWord_eq]; omega) hrest, readNumberTail_of_not hrest,
    if_neg Bool.false_ne_true, hsmall, if_neg Bool.false_ne_true]

/-! ## Strings -/

theorem hexFour?_hexDigit {n : Nat} (h : n < 0x20) :
    hexFour? '0' '0' (hexDigit (n / 16)) (hexDigit (n % 16)) = some n := by
  interval_cases n <;> decide

/-- What a character becomes inside a string: a letter behind a backslash, four hexadecimal digits,
or itself. -/
theorem escapeChar_cases (c : Char) :
    (∃ letter, escapeChar c = ['\\', letter] ∧ letter ≠ 'u' ∧ letter ≠ '\n' ∧
      escaped? letter = some c) ∨
    (c.toNat < 0x20 ∧ escapeChar c =
      ['\\', 'u', '0', '0', hexDigit (c.toNat / 16), hexDigit (c.toNat % 16)]) ∨
    (escapeChar c = [c] ∧ c ≠ '"' ∧ c ≠ '\\' ∧ 0x20 ≤ c.toNat) := by
  unfold escapeChar
  split
  · next h => subst h; exact .inl ⟨_, rfl, by decide, by decide, rfl⟩
  split
  · next h => subst h; exact .inl ⟨_, rfl, by decide, by decide, rfl⟩
  split
  · next h => subst h; exact .inl ⟨_, rfl, by decide, by decide, rfl⟩
  split
  · next h => subst h; exact .inl ⟨_, rfl, by decide, by decide, rfl⟩
  split
  · next h => subst h; exact .inl ⟨_, rfl, by decide, by decide, rfl⟩
  split
  · next h => subst h; exact .inl ⟨_, rfl, by decide, by decide, rfl⟩
  split
  · next h => subst h; exact .inl ⟨_, rfl, by decide, by decide, rfl⟩
  split
  · next h => exact .inr (.inl ⟨h, rfl⟩)
  · next hquote hback _ _ _ _ _ h => exact .inr (.inr ⟨rfl, hquote, hback, Nat.not_lt.mp h⟩)

/-- One character of a string is read back, whichever way it was written. -/
theorem readStringTail_escapeChar (c : Char) (acc rest : List Char) :
    readStringTail acc (escapeChar c ++ rest) = readStringTail (c :: acc) rest := by
  rcases escapeChar_cases c with
    ⟨letter, heq, hu, -, hletter⟩ | ⟨hlt, heq⟩ | ⟨heq, hquote, hback, hle⟩
  · rw [heq, List.cons_append, List.cons_append, List.nil_append,
      readStringTail.eq_6 _ _ _ (by simp [hu]) (by simp [hu]), hletter]
  · have h1 : ¬ 0xDC00 ≤ c.toNat := by omega
    have h2 : c.toNat < 0xD800 := by omega
    simp only [heq, List.cons_append, List.nil_append]
    rw [readStringTail, hexFour?_hexDigit hlt]
    simp [h1, h2]
  · rw [heq, List.singleton_append, readStringTail.eq_def]
    split <;> simp_all

theorem readStringTail_flatMap (cs acc rest : List Char) :
    readStringTail acc (cs.flatMap escapeChar ++ '"' :: rest) =
      .ok (String.ofList (acc.reverse ++ cs), rest) := by
  induction cs generalizing acc with
  | nil => simp [readStringTail]
  | cons c cs ih =>
    rw [List.flatMap_cons, List.append_assoc, readStringTail_escapeChar, ih]
    simp

/-- A string in quotes, when its first quote has been read. -/
theorem readStringTail_quoted (s : String) (rest : List Char) :
    readStringTail [] (s.toList.flatMap escapeChar ++ '"' :: rest) = .ok (s, rest) := by
  rw [readStringTail_flatMap, List.reverse_nil, List.nil_append, String.ofList_toList]

end EventUpload.Json
