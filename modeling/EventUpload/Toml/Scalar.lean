import EventUpload.Toml.Moment
import EventUpload.Decimal.Read

/-!
# Strings and numbers

Strings come in four kinds: between double quotes with escapes, between single quotes without, and
both over several lines between three quotes. Numbers may have single underscores between digits; a
whole number has 64 bits.
-/

set_option autoImplicit false

namespace EventUpload.Toml

/-! ## Characters -/

/-- Whether a character may stand in a comment or a string: tabs may, other controls may not. -/
def isPrintable (c : Char) : Bool := c = '\t' || 0x20 ≤ c.toNat

def isStringChar (c : Char) : Bool := isPrintable c && c.toNat ≠ 0x7f

def isBlank (c : Char) : Bool := c = ' ' || c = '\t'

def skipBlanks (cs : List Char) : List Char := cs.dropWhile isBlank

/-- The characters behind a line break, if there is one in front. -/
def lineBreak? : List Char → Option (List Char)
  | '\n' :: rest => some rest
  | '\r' :: '\n' :: rest => some rest
  | _ => none

/-! ## Escapes -/

def hexValue? (c : Char) : Option Nat :=
  if c.isDigit then some (c.toNat - '0'.toNat)
  else if 'a' ≤ c && c ≤ 'f' then some (c.toNat - 'a'.toNat + 10)
  else if 'A' ≤ c && c ≤ 'F' then some (c.toNat - 'A'.toNat + 10)
  else none

def readHex : Nat → Nat → Scan Nat
  | 0, acc, cs => some (acc, cs)
  | count + 1, acc, c :: cs => do readHex count (acc * 16 + (← hexValue? c)) cs
  | _ + 1, _, [] => none

def readCodePoint (digits : Nat) : Scan Char := fun cs => do
  let (n, cs) ← readHex digits 0 cs
  if n.isValidChar then some (Char.ofNat n, cs) else none

/-- What an escape stands for, behind its backslash. -/
def readEscape : Scan Char
  | 'b' :: cs => some ('\x08', cs)
  | 't' :: cs => some ('\t', cs)
  | 'n' :: cs => some ('\n', cs)
  | 'f' :: cs => some ('\x0c', cs)
  | 'r' :: cs => some ('\r', cs)
  | '"' :: cs => some ('"', cs)
  | '\\' :: cs => some ('\\', cs)
  | 'u' :: cs => readCodePoint 4 cs
  | 'U' :: cs => readCodePoint 8 cs
  | _ => none

/-! ## Strings -/

/-- The rest of a string between double quotes. The number bounds the steps. -/
def readBasicTail : Nat → List Char → Scan String
  | 0, _, _ => none
  | steps + 1, acc, c :: cs =>
    if c = '"' then some (String.ofList acc.reverse, cs)
    else if c = '\\' then do
      let (e, cs) ← readEscape cs
      readBasicTail steps (e :: acc) cs
    else if isStringChar c then readBasicTail steps (c :: acc) cs
    else none
  | _ + 1, _, [] => none

/-- The rest of a string between single quotes. -/
def readLiteralTail (cs : List Char) : Option (String × List Char) :=
  let inner := cs.takeWhile fun c => isStringChar c && c ≠ '\''
  match cs.drop inner.length with
  | '\'' :: rest => some (String.ofList inner, rest)
  | _ => none

/-- Behind a backslash at the end of a line: the characters from the next mark on, if the line ends
there. -/
def joinLines? (cs : List Char) : Option (List Char) :=
  (lineBreak? (skipBlanks cs)).map fun rest =>
    rest.dropWhile fun c => isBlank c || c = '\n' || c = '\r'

/-- How many quotes stand in front. -/
def quoteCount (quote : Char) (cs : List Char) : Nat := (cs.takeWhile (· = quote)).length

/-- The rest of a string over several lines. Up to two quotes belong to the string wherever they
stand; three end it. The number bounds the steps. -/
def readLinesTail (quote : Char) : Nat → List Char → Scan String
  | 0, _, _ => none
  | steps + 1, acc, c :: cs =>
    if c = quote then
      let count := quoteCount quote (c :: cs)
      let rest := (c :: cs).drop (min count 5)
      let inner := if count < 3 then count else min count 5 - 3
      let acc := List.replicate inner quote ++ acc
      if count < 3 then readLinesTail quote steps acc rest
      else some (String.ofList acc.reverse, rest)
    else if c = '\\' && quote = '"' then
      match joinLines? cs with
      | some rest => readLinesTail quote steps acc rest
      | none => do
        let (e, cs) ← readEscape cs
        readLinesTail quote steps (e :: acc) cs
    else
      match lineBreak? (c :: cs) with
      | some rest => readLinesTail quote steps ('\n' :: acc) rest
      | none => if isStringChar c then readLinesTail quote steps (c :: acc) cs else none
  | _ + 1, _, [] => none

/-- A string over several lines, behind its three quotes; a line break that comes first is left
out. -/
def readLines (quote : Char) (cs : List Char) : Option (String × List Char) :=
  let cs := (lineBreak? cs).getD cs
  readLinesTail quote (cs.length + 1) [] cs

def readLine : Scan String
  | '"' :: cs => readBasicTail (cs.length + 1) [] cs
  | '\'' :: cs => readLiteralTail cs
  | _ => none

def readString : Scan String
  | '"' :: '"' :: '"' :: cs => readLines '"' cs
  | '\'' :: '\'' :: '\'' :: cs => readLines '\'' cs
  | cs => readLine cs

/-! ## Numbers -/

/-- Digits with single underscores between them; the answer has the digits alone. -/
def readDigitRun (digit : Char → Bool) :
    (first : Bool) → List Char → List Char → List Char × List Char
  | _, acc, [] => (acc.reverse, [])
  | first, acc, c :: cs =>
    if digit c then readDigitRun digit false (c :: acc) cs
    else if c = '_' && !first then
      match cs with
      | d :: rest =>
        if digit d then readDigitRun digit false (d :: acc) rest else (acc.reverse, c :: cs)
      | [] => (acc.reverse, [c])
    else (acc.reverse, c :: cs)

/-- At least one digit, with single underscores between them. -/
def readRun (digit : Char → Bool) : Scan (List Char) := fun cs =>
  let (digits, rest) := readDigitRun digit true [] cs
  if digits.isEmpty then none else some (digits, rest)

def readSign : List Char → List Char × List Char
  | '+' :: cs => (['+'], cs)
  | '-' :: cs => (['-'], cs)
  | cs => ([], cs)

/-- The digits of a whole number: zero stands alone. -/
def readWholeDigits : Scan (List Char) := fun cs =>
  match cs with
  | '0' :: rest => some (['0'], rest)
  | _ => readRun Char.isDigit cs

def signedWord? (negative : Bool) (n : Nat) : Option Int :=
  if negative then if n ≤ Nat.pow 2 63 then some (-(n : Int)) else none
  else if n < Nat.pow 2 63 then some n else none

/-- A number to a base, behind its mark. -/
def readBase (base : Nat) : Scan Int := fun cs => do
  let isDigit := fun c => (hexValue? c).any (· < base)
  let (digits, rest) ← readRun isDigit cs
  let n := digits.foldl (fun n c => n * base + (hexValue? c).getD 0) 0
  return (← signedWord? false n, rest)

def readWhole : Scan Int
  | '0' :: 'x' :: cs => readBase 16 cs
  | '0' :: 'o' :: cs => readBase 8 cs
  | '0' :: 'b' :: cs => readBase 2 cs
  | cs => do
    let (sign, cs) := readSign cs
    let (digits, rest) ← readWholeDigits cs
    return (← signedWord? (sign = ['-']) (Decimal.numberOf digits), rest)

def readExponentPart : Scan (List Char)
  | c :: cs =>
    if c = 'e' || c = 'E' then do
      let (sign, cs) := readSign cs
      let (digits, rest) ← readRun Char.isDigit cs
      return ('e' :: (sign ++ digits), rest)
    else none
  | [] => none

/-- The fraction of a number, with its point, and the exponent that may follow. -/
def readFractionPart : Scan (List Char)
  | '.' :: cs => do
    let (digits, rest) ← readRun Char.isDigit cs
    match readExponentPart rest with
    | some (exponent, rest) => return ('.' :: (digits ++ exponent), rest)
    | none => return ('.' :: digits, rest)
  | _ => none

/-- What a double may not be: greater than every finite one, unless it says so. -/
def isTooLarge (x : Float) : Bool := x == Decimal.infinity

def readDecimal : Scan Float := fun cs => do
  let (sign, cs) := readSign cs
  let (front, cs) ← readWholeDigits cs
  let (tail, rest) ← readExponentPart cs <|> readFractionPart cs
  let x ← Decimal.readDouble? (sign ++ front ++ tail)
  if isTooLarge x then none else return (x, rest)

/-- Infinity, or what is no number, with or without a sign. -/
def readSpecial : Scan Float := fun cs =>
  let (sign, cs) := readSign cs
  let signed := fun (x : Float) => if sign = ['-'] then -x else x
  match cs with
  | 'i' :: 'n' :: 'f' :: rest => some (signed Decimal.infinity, rest)
  | 'n' :: 'a' :: 'n' :: rest => some (signed Decimal.notANumber, rest)
  | _ => none

def readNumber : Scan Toml := fun cs =>
  (readMoment cs).map (fun (s, rest) => (.moment s, rest))
    <|> (readDecimal cs <|> readSpecial cs).map (fun (x, rest) => (.real x, rest))
    <|> (readWhole cs).map (fun (n, rest) => (.whole n, rest))

def readWord (word : List Char) (v : Toml) : Scan Toml := fun cs =>
  if word.isPrefixOf cs then some (v, cs.drop word.length) else none

end EventUpload.Toml
