import EventUpload.Json.Value
import EventUpload.Json.Fault
import EventUpload.Decimal.Text

/-!
# Reading JSON

A reader takes the characters not read yet and answers with a value and the rest, or with a fault.
`readValue n` admits containers nested less than `n` deep; `skipValue` passes over a value of any
depth that nobody asks for. `readRecord` reads a record with named fields from an object (unknown
members are skipped, a field given twice is refused) or from an array of its fields in order.

A real number is read as a product or quotient of two doubles: the digits as far as they fit 64
bits, and a power of ten. So it may differ from the nearest double in the last place.
-/

set_option autoImplicit false

namespace EventUpload.Json

abbrev Reader (α : Type) := List Char → Except Fault (α × List Char)

def isBlank (c : Char) : Bool := c = ' ' || c = '\n' || c = '\t' || c = '\r'

def skipBlanks (cs : List Char) : List Char := cs.dropWhile isBlank

def isDigit (c : Char) : Bool := '0' ≤ c && c ≤ '9'

def startsWithDigit : List Char → Bool
  | c :: _ => isDigit c
  | [] => false

def digitValue (c : Char) : Nat := c.toNat - '0'.toNat

def maxWord : Nat := Nat.pow 2 64 - 1

/-- Takes digits into a number as long as it fits 64 bits; answers with the number, how many digits
were taken, and how many were left over. -/
def absorb : Nat → Nat → List Char → Nat × Nat × Nat
  | n, taken, [] => (n, taken, 0)
  | n, taken, c :: rest =>
    let next := n * 10 + digitValue c
    if next ≤ maxWord then absorb next (taken + 1) rest else (n, taken, rest.length + 1)

/-- The power of ten as a double, for exponents up to 308. -/
def powerOfTen (k : Nat) : Float := Float.ofScientific 1 false k

/-- `digits · 10^exponent` as a double, or nothing when that is beyond the largest one. The first
argument bounds the number of divisions; a double is zero after four of them. -/
def scale : Nat → Float → Int → Option Float
  | 0, _, _ => some 0.0
  | steps + 1, x, exponent =>
    if exponent.natAbs ≤ 308 then
      let power := powerOfTen exponent.natAbs
      if 0 ≤ exponent then
        let y := x * power
        if y.isInf then none else some y
      else some (x / power)
    else if x == 0.0 then some x
    else if 0 ≤ exponent then none
    else scale steps (x / powerOfTen 308) (exponent + 308)

def realNumber (positive : Bool) (digits : Nat) (exponent : Int) (rest : List Char) :
    Except Fault (Number × List Char) :=
  match scale 5 (UInt64.ofNat digits).toFloat exponent with
  | some x => .ok (.real (if positive then x else -x), rest)
  | none => .error (.here .numberTooLarge rest)

def maxExponent : Nat := Nat.pow 2 31 - 1

/-- Reads the digits of an exponent. `none` means that the exponent is too large to be written out;
the characters that remain are those after the digit that made it so. -/
def absorbExponent : Nat → List Char → Option Nat × List Char
  | n, [] => (some n, [])
  | n, c :: rest =>
    if isDigit c then
      let next := n * 10 + digitValue c
      if next ≤ maxExponent then absorbExponent next rest else (none, rest)
    else (some n, c :: rest)

/-- The exponent after an `e`, of a number whose digits so far end at `10^start`. -/
def readExponent (positive : Bool) (digits : Nat) (start : Int) (cs : List Char) :
    Except Fault (Number × List Char) :=
  let (upward, cs) := match cs with
    | '+' :: rest => (true, rest)
    | '-' :: rest => (false, rest)
    | cs => (true, cs)
  match cs with
  | [] => .error (.here .endInValue [])
  | c :: rest =>
    if isDigit c then
      match absorbExponent (digitValue c) rest with
      | (some e, rest) =>
        realNumber positive digits (if upward then start + e else start - e) rest
      -- Zero stays zero, and downward the number vanishes; only upward it is too large.
      | (none, rest) =>
        if digits ≠ 0 && upward then .error (.here .numberTooLarge rest)
        else .ok (.real (if positive then 0.0 else -0.0), rest.dropWhile isDigit)
    else .error (.here .numberBroken rest)

def readFraction (positive : Bool) (digits : Nat) (start : Int) (cs : List Char) :
    Except Fault (Number × List Char) :=
  let fraction := cs.takeWhile isDigit
  let rest := cs.dropWhile isDigit
  match fraction, rest with
  | [], [] => .error (.next .endInValue [])
  | [], rest => .error (.next .numberBroken rest)
  | fraction, rest =>
    let (digits, taken, _) := absorb digits 0 fraction
    match rest with
    | 'e' :: rest | 'E' :: rest => readExponent positive digits (start - taken) rest
    | rest => realNumber positive digits (start - taken) rest

/-- The number with the given leading digits, of which `dropped` more did not fit 64 bits. A whole
number that is too small for a signed 64-bit integer becomes real, and so does minus zero. -/
def readNumberTail (positive : Bool) (digits dropped : Nat) (cs : List Char) :
    Except Fault (Number × List Char) :=
  match cs with
  | '.' :: rest => readFraction positive digits dropped rest
  | 'e' :: rest | 'E' :: rest => readExponent positive digits dropped rest
  | cs =>
    if dropped ≠ 0 then realNumber positive digits dropped cs
    else if positive then .ok (.whole digits, cs)
    else if digits = 0 || Nat.pow 2 63 < digits then
      .ok (.real (-(UInt64.ofNat digits).toFloat), cs)
    else .ok (.whole (-(digits : Int)), cs)

/-- A number after its sign. -/
def readNumber (positive : Bool) : Reader Number
  | [] => .error (.here .endInValue [])
  | '0' :: rest =>
    if startsWithDigit rest then .error (.next .numberBroken rest)
    else readNumberTail positive 0 0 rest
  | c :: rest =>
    if isDigit c then
      let digits := c :: rest.takeWhile isDigit
      let (n, _, dropped) := absorb 0 0 digits
      readNumberTail positive n dropped (rest.dropWhile isDigit)
    else .error (.here .numberBroken rest)

/-- The rest of a word whose first letter has been read. -/
def readWord : List Char → List Char → Except Fault (List Char)
  | [], cs => .ok cs
  | _ :: _, [] => .error (.here .endInValue [])
  | w :: ws, c :: cs => if w = c then readWord ws cs else .error (.here .wordBroken cs)

def hexValue? (c : Char) : Option Nat :=
  if isDigit c then some (digitValue c)
  else if 'a' ≤ c && c ≤ 'f' then some (c.toNat - 'a'.toNat + 10)
  else if 'A' ≤ c && c ≤ 'F' then some (c.toNat - 'A'.toNat + 10)
  else none

def hexFour? (a b c d : Char) : Option Nat := do
  return ((← hexValue? a) * 16 + (← hexValue? b)) * 256 + (← hexValue? c) * 16 + (← hexValue? d)

/-- The fault of an escape that lacks its four hexadecimal digits; they are four bytes. -/
def hexFault (cs : List Char) : Fault :=
  if 4 ≤ byteLength cs then ⟨.escapeBroken, cs, 4, true⟩ else .here .endInString []

/-- The characters of the one-letter escapes. -/
def escaped? (c : Char) : Option Char :=
  if c = '"' then some '"' else if c = '\\' then some '\\' else if c = '/' then some '/'
  else if c = 'b' then some '\x08' else if c = 'f' then some '\x0c' else if c = 'n' then some '\n'
  else if c = 'r' then some '\r' else if c = 't' then some '\t' else none

/-- The character of a pair of surrogates. -/
def pairChar (high low : Nat) : Char :=
  Char.ofNat (0x10000 + (high - 0xD800) * 0x400 + (low - 0xDC00))

/-- A string after its opening quote; the characters read so far come in reverse. -/
def readStringTail (acc : List Char) : List Char → Except Fault (String × List Char)
  | [] => .error (.here .endInString [])
  | '"' :: rest => .ok (String.ofList acc.reverse, rest)
  | '\\' :: 'u' :: a :: b :: c :: d :: rest =>
    match hexFour? a b c d with
    | none => .error (hexFault (a :: b :: c :: d :: rest))
    | some n =>
      -- The second half of a pair may not come first.
      if 0xDC00 ≤ n && n ≤ 0xDFFF then .error (.here .loneSurrogate rest)
      else if n < 0xD800 || 0xDBFF < n then readStringTail (Char.ofNat n :: acc) rest
      else match rest with
        | '\\' :: 'u' :: a :: b :: c :: d :: rest =>
          match hexFour? a b c d with
          | none => .error (hexFault (a :: b :: c :: d :: rest))
          | some m =>
            if m < 0xDC00 || 0xDFFF < m then .error (.here .loneSurrogate rest)
            else readStringTail (pairChar n m :: acc) rest
        | '\\' :: 'u' :: rest => .error (hexFault rest)
        | ['\\'] => .error (.here .endInString [])
        | '\\' :: rest => .error (.next .pairBroken rest)
        | [] => .error (.here .endInString [])
        | rest => .error (.next .pairBroken rest)
  | '\\' :: 'u' :: rest => .error (hexFault rest)
  | ['\\'] => .error (.here .endInString [])
  | '\\' :: c :: rest =>
    match escaped? c with
    | some e => readStringTail (e :: acc) rest
    | none => .error (.here .escapeBroken rest)
  | c :: rest =>
    if c.toNat < 0x20 then .error (.here .controlCharacter rest)
    else readStringTail (c :: acc) rest

/-- Passes over a string after its opening quote; surrogates need not come in pairs here. -/
def skipStringTail : List Char → Except Fault (List Char)
  | [] => .error (.here .endInString [])
  | '"' :: rest => .ok rest
  | '\\' :: 'u' :: a :: b :: c :: d :: rest =>
    match hexFour? a b c d with
    | none => .error (hexFault (a :: b :: c :: d :: rest))
    | some _ => skipStringTail rest
  | '\\' :: 'u' :: rest => .error (hexFault rest)
  | ['\\'] => .error (.here .endInString [])
  | '\\' :: c :: rest =>
    match escaped? c with
    | some _ => skipStringTail rest
    | none => .error (.here .escapeBroken rest)
  | c :: rest =>
    if c.toNat < 0x20 then .error (.here .controlCharacter (c :: rest)) else skipStringTail rest

/-! ## Containers -/

/-- Moves to the next item of an array: the rest starts with it, or `none` at the closing bracket,
which is then the first character of the rest. -/
def nextItem (first : Bool) (cs : List Char) : Except Fault (Bool × List Char) :=
  match skipBlanks cs with
  | [] => .error (.next .endInList [])
  | ']' :: rest => .ok (false, ']' :: rest)
  | c :: rest =>
    if first then .ok (true, c :: rest)
    else if c = ',' then
      match skipBlanks rest with
      | ']' :: rest => .error (.next .trailingComma (']' :: rest))
      | [] => .error (.next .endInValue [])
      | rest => .ok (true, rest)
    else .error (.next .listCommaMissing (c :: rest))

/-- Moves to the next member of an object and reads its key, or stops before the closing brace. -/
def nextKey (first : Bool) (cs : List Char) : Except Fault (Option String × List Char) :=
  let key : List Char → Except Fault (Option String × List Char)
    | '"' :: rest => do
      let (k, rest) ← readStringTail [] rest
      return (some k, rest)
    | rest => .error (.next .keyNotString rest)
  match skipBlanks cs with
  | [] => .error (.next .endInObject [])
  | '}' :: rest => .ok (none, '}' :: rest)
  | c :: rest =>
    if first then key (c :: rest)
    else if c = ',' then
      match skipBlanks rest with
      | '}' :: rest => .error (.next .trailingComma ('}' :: rest))
      | [] => .error (.next .endInValue [])
      | rest => key rest
    else .error (.next .objectCommaMissing (c :: rest))

def readColon (cs : List Char) : Except Fault (List Char) :=
  match skipBlanks cs with
  | ':' :: rest => .ok rest
  | [] => .error (.next .endInObject [])
  | rest => .error (.next .colonMissing rest)

def endItems (cs : List Char) : Except Fault (List Char) :=
  match skipBlanks cs with
  | ']' :: rest => .ok rest
  | ',' :: rest =>
    match skipBlanks rest with
    | ']' :: rest => .error (.next .trailingComma (']' :: rest))
    | rest => .error (.next .trailingText rest)
  | [] => .error (.next .endInList [])
  | rest => .error (.next .trailingText rest)

def endMembers (cs : List Char) : Except Fault (List Char) :=
  match skipBlanks cs with
  | '}' :: rest => .ok rest
  | ',' :: rest => .error (.next .trailingComma (',' :: rest))
  | [] => .error (.next .endInObject [])
  | rest => .error (.next .trailingText rest)

/-- The items of an array up to its closing bracket; every item takes at least one character, so
the number of characters bounds the number of items. -/
def readItems (item : Reader Json) : Nat → Bool → List Json → List Char →
    Except Fault (List Json × List Char)
  | 0, _, _, cs => .error (.next .endInList cs)
  | fuel + 1, first, acc, cs => do
    match ← nextItem first cs with
    | (false, rest) => return (acc.reverse, rest)
    | (true, rest) =>
      let (v, rest) ← item rest
      readItems item fuel false (v :: acc) rest

def readMembers (value : Reader Json) : Nat → Bool → List (String × Json) → List Char →
    Except Fault (List (String × Json) × List Char)
  | 0, _, _, cs => .error (.next .endInObject cs)
  | fuel + 1, first, acc, cs => do
    match ← nextKey first cs with
    | (none, rest) => return (acc, rest)
    | (some k, rest) =>
      let rest ← readColon rest
      let (v, rest) ← value rest
      readMembers value fuel false (insertMember k v acc) rest

/-- A value whose containers are nested less than `depth` deep. -/
def readValue : (depth : Nat) → Reader Json
  | depth, cs =>
    match skipBlanks cs with
    | [] => .error (.next .endInValue [])
    | 'n' :: rest => do return (.null, ← readWord ['u', 'l', 'l'] rest)
    | 't' :: rest => do return (.bool true, ← readWord ['r', 'u', 'e'] rest)
    | 'f' :: rest => do return (.bool false, ← readWord ['a', 'l', 's', 'e'] rest)
    | '-' :: rest => do
      let (n, rest) ← readNumber false rest
      return (.num n, rest)
    | '"' :: rest => do
      let (s, rest) ← readStringTail [] rest
      return (.str s, rest)
    | '[' :: rest =>
      match depth with
      | 0 => .error (.next .tooDeep ('[' :: rest))
      | 1 => .error (.next .tooDeep ('[' :: rest))
      | depth + 1 => do
        let (items, rest) ← readItems (readValue depth) (rest.length + 1) true [] rest
        return (.arr items, ← endItems rest)
    | '{' :: rest =>
      match depth with
      | 0 => .error (.next .tooDeep ('{' :: rest))
      | 1 => .error (.next .tooDeep ('{' :: rest))
      | depth + 1 => do
        let (members, rest) ← readMembers (readValue depth) (rest.length + 1) true [] rest
        return (.obj members, ← endMembers rest)
    | c :: rest =>
      if isDigit c then do
        let (n, rest) ← readNumber true (c :: rest)
        return (.num n, rest)
      else .error (.next .valueMissing (c :: rest))

/-- How deep containers may be nested in one text, plus one. -/
def maxDepth : Nat := 128

/-! ## Values that nobody asks for -/

inductive Bracket where
  | list
  | object
deriving BEq, DecidableEq, Repr

def Bracket.unfinished : Bracket → Cause
  | .list => .endInList
  | .object => .endInObject

def Bracket.unseparated : Bracket → Cause
  | .list => .listCommaMissing
  | .object => .objectCommaMissing

def Bracket.closedBy : Bracket → Char → Bool
  | .list, c => c = ']'
  | .object, c => c = '}'

def skipExponent (cs : List Char) : Except Fault (List Char) :=
  let cs := match cs with
    | '+' :: rest | '-' :: rest => rest
    | cs => cs
  match cs with
  | [] => .error (.here .numberBroken [])
  | c :: rest => if isDigit c then .ok (rest.dropWhile isDigit) else .error (.here .numberBroken rest)

def skipNumber (cs : List Char) : Except Fault (List Char) :=
  let tail : List Char → Except Fault (List Char)
    | '.' :: rest =>
      if startsWithDigit rest then
        match rest.dropWhile isDigit with
        | 'e' :: rest | 'E' :: rest => skipExponent rest
        | rest => .ok rest
      else .error (.next .numberBroken rest)
    | 'e' :: rest | 'E' :: rest => skipExponent rest
    | rest => .ok rest
  match cs with
  | [] => .error (.here .numberBroken [])
  | '0' :: rest => if startsWithDigit rest then .error (.next .numberBroken rest) else tail rest
  | c :: rest => if isDigit c then tail (rest.dropWhile isDigit) else .error (.here .numberBroken rest)

/-- The key of a member inside a container that is passed over; nothing to do in a list. -/
def skipKey (b : Bracket) (cs : List Char) : Except Fault (List Char) :=
  match b with
  | .list => .ok cs
  | .object =>
    match skipBlanks cs with
    | '"' :: rest => do readColon (← skipStringTail rest)
    | [] => .error (.next .endInObject [])
    | rest => .error (.next .keyNotString rest)

/-- Closes containers and passes a comma after a value, inside the containers `open`; `none` when
no container is left open. -/
def skipClosers : Bool → List Bracket → List Char → Except Fault (Option (List Bracket) × List Char)
  | _, [], cs => .ok (none, cs)
  | comma, b :: outer, cs =>
    match skipBlanks cs with
    | [] => .error (.next b.unfinished [])
    | c :: rest =>
      if comma && c = ',' then .ok (some (b :: outer), rest)
      else if b.closedBy c then skipClosers true outer rest
      else if comma then .error (.next b.unseparated (c :: rest))
      else .ok (some (b :: outer), c :: rest)

/-- Passes over values inside the containers `open`, without a bound on their depth. -/
def skipValues : Nat → List Bracket → List Char → Except Fault (List Char)
  | 0, _, cs => .error (.next .endInValue cs)
  | fuel + 1, outer, cs => do
    let (containers, rest) ← match skipBlanks cs with
      | [] => .error (.next .endInValue [])
      | 'n' :: rest => do skipClosers true outer (← readWord ['u', 'l', 'l'] rest)
      | 't' :: rest => do skipClosers true outer (← readWord ['r', 'u', 'e'] rest)
      | 'f' :: rest => do skipClosers true outer (← readWord ['a', 'l', 's', 'e'] rest)
      | '-' :: rest => do skipClosers true outer (← skipNumber rest)
      | '"' :: rest => do skipClosers true outer (← skipStringTail rest)
      | '[' :: rest => skipClosers false (.list :: outer) rest
      | '{' :: rest => skipClosers false (.object :: outer) rest
      | c :: rest =>
        if isDigit c then do skipClosers true outer (← skipNumber (c :: rest))
        else .error (.next .valueMissing (c :: rest))
    match containers with
    | none => return rest
    | some [] => return rest
    | some (b :: outer) => skipValues fuel (b :: outer) (← skipKey b rest)

def skipValue (cs : List Char) : Except Fault (List Char) := skipValues (cs.length + 1) [] cs

/-- A whole text with one value and nothing but blanks around it. -/
def readWhole {α : Type} (value : Reader α) (text : String) : Except Fault α := do
  let (v, rest) ← value text.toList
  match skipBlanks rest with
  | [] => return v
  | rest => .error (.next .trailingText rest)

def ofText (text : String) : Except Fault Json := readWhole (readValue maxDepth) text

end EventUpload.Json
