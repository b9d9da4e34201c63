import EventUpload.Json.Value
import EventUpload.Decimal.Text

/-!
# Writing JSON

Two forms: `Json.compact` has no blanks at all, `Json.pretty` puts every item and member on a line
of its own, indented by two blanks per level. In a string only the quote, the backslash and the
control characters below U+0020 are escaped; five of the latter have a letter of their own.
-/

set_option autoImplicit false

namespace EventUpload.Json

def hexDigit (n : Nat) : Char :=
  if n < 10 then Char.ofNat ('0'.toNat + n) else Char.ofNat ('a'.toNat + (n - 10))

/-- One character inside a string. -/
def escapeChar (c : Char) : List Char :=
  if c = '"' then ['\\', '"']
  else if c = '\\' then ['\\', '\\']
  else if c = '\n' then ['\\', 'n']
  else if c = '\r' then ['\\', 'r']
  else if c = '\t' then ['\\', 't']
  else if c = '\x08' then ['\\', 'b']
  else if c = '\x0c' then ['\\', 'f']
  else if c.toNat < 0x20 then ['\\', 'u', '0', '0', hexDigit (c.toNat / 16), hexDigit (c.toNat % 16)]
  else [c]

def quote (s : String) : List Char :=
  '"' :: (s.toList.flatMap escapeChar ++ ['"'])

def Number.chars : Number → List Char
  | .whole n => (toString n).toList
  | .real x => (Decimal.textOfDouble x).toList

mutual

/-- A value without blanks. -/
def chars : Json → List Char
  | .null => ['n', 'u', 'l', 'l']
  | .bool true => ['t', 'r', 'u', 'e']
  | .bool false => ['f', 'a', 'l', 's', 'e']
  | .num n => n.chars
  | .str s => quote s
  | .arr items => '[' :: (itemChars items ++ [']'])
  | .obj members => '{' :: (memberChars members ++ ['}'])

def itemChars : List Json → List Char
  | [] => []
  | [v] => chars v
  | v :: rest => chars v ++ ',' :: itemChars rest

def memberChars : List (String × Json) → List Char
  | [] => []
  | [(k, v)] => quote k ++ ':' :: chars v
  | (k, v) :: rest => quote k ++ ':' :: (chars v ++ ',' :: memberChars rest)

end

def compact (v : Json) : String := String.ofList (chars v)

/-- A line break followed by the indentation of a level. -/
def lineBreak (level : Nat) : List Char := '\n' :: List.replicate (2 * level) ' '

mutual

/-- A value with one item or member per line, its own items one level deeper than `level`. -/
def prettyChars (level : Nat) : Json → List Char
  | .arr [] => ['[', ']']
  | .arr items => '[' :: (prettyItems (level + 1) items ++ lineBreak level ++ [']'])
  | .obj [] => ['{', '}']
  | .obj members => '{' :: (prettyMembers (level + 1) members ++ lineBreak level ++ ['}'])
  | v => chars v

def prettyItems (level : Nat) : List Json → List Char
  | [] => []
  | [v] => lineBreak level ++ prettyChars level v
  | v :: rest => lineBreak level ++ prettyChars level v ++ ',' :: prettyItems level rest

def prettyMembers (level : Nat) : List (String × Json) → List Char
  | [] => []
  | [(k, v)] => lineBreak level ++ quote k ++ ':' :: ' ' :: prettyChars level v
  | (k, v) :: rest =>
    lineBreak level ++ quote k ++ ':' :: ' ' :: (prettyChars level v ++ ',' :: prettyMembers level rest)

end

def pretty (v : Json) : String := String.ofList (prettyChars 0 v)

end EventUpload.Json
