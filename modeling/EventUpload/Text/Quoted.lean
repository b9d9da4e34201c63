import EventUpload.Text.Hidden

/-!
# Quoted text

A text between double quotes, in which quotes, backslashes and line ends are escaped with a
backslash and hidden characters are spelled by their code point, as in `\u{200b}`.
-/

set_option autoImplicit false

namespace EventUpload.Text

def quoteChar (c : Char) : String :=
  if c = '"' then "\\\""
  else if c = '\\' then "\\\\"
  else if c = '\n' then "\\n"
  else if c = '\r' then "\\r"
  else if c = '\t' then "\\t"
  else if c.toNat = 0 then "\\0"
  else if isHidden c then "\\u\x7b" ++ String.ofList (Nat.toDigits 16 c.toNat) ++ "\x7d"
  else String.singleton c

def quoted (s : String) : String :=
  "\"" ++ String.join (s.toList.map quoteChar) ++ "\""

/-- Texts in brackets, with commas between them. -/
def quotedList (items : List String) : String :=
  "[" ++ String.intercalate ", " (items.map quoted) ++ "]"

end EventUpload.Text
