/-!
# TOML values

A document is a table of values. A moment, which is a date, a time or both, is kept as its written
form, so that two spellings of one moment are the same value.
-/

set_option autoImplicit false

namespace EventUpload

inductive Toml where
  | text (s : String)
  | whole (n : Int)
  | real (x : Float)
  | flag (b : Bool)
  | moment (s : String)
  | list (items : List Toml)
  | table (members : List (String × Toml))
deriving Repr, Inhabited

/-- A reader answers with what it read and the characters that follow, or refuses. -/
abbrev Toml.Scan (α : Type) := List Char → Option (α × List Char)

end EventUpload
