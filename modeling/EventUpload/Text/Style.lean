/-!
# Styled text

A style is switched on and off again by control sequences around the text it holds for. A colour is
either switched back by itself, so that a style around it goes on, or together with all others.
-/

set_option autoImplicit false

namespace EventUpload.Text

inductive Style where
  | bold
  | dimmed
  | italic
  | underlined
  | red
  | green
  | yellow
  | blue
  | purple
  | cyan
deriving BEq, DecidableEq, Repr

def Style.code : Style → Nat
  | bold => 1
  | dimmed => 2
  | italic => 3
  | underlined => 4
  | red => 31
  | green => 32
  | yellow => 33
  | blue => 34
  | purple => 35
  | cyan => 36

def resetCode : Nat := 0

/-- The number that switches a style off: a colour by itself, everything else with all others. -/
def Style.endCode : Style → Nat
  | bold | dimmed | italic | underlined => resetCode
  | red | green | yellow | blue | purple | cyan => 39

def control (code : Nat) : String := "\x1b[" ++ toString code ++ "m"

def styled (style : Style) (s : String) : String :=
  control style.code ++ s ++ control style.endCode

/-- A text in a style, after which no style holds at all. -/
def painted (style : Style) (s : String) : String :=
  control style.code ++ s ++ control resetCode

end EventUpload.Text
