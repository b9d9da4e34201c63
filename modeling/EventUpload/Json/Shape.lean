import EventUpload.Json.Value
import EventUpload.Json.Fault
import EventUpload.Decimal.Text
import EventUpload.Text.Quoted

/-!
# What a value is and what was expected

The wordings for a value of the wrong shape. They are the same whether the value was met in a text
or handed over as a whole.
-/

set_option autoImplicit false

namespace EventUpload.Json

def Number.describe : Number → String
  | .whole n => "integer `" ++ toString n ++ "`"
  | .real x => "floating point `" ++ Decimal.textOfDouble x ++ "`"

def describe : Json → String
  | .null => "null"
  | .bool b => "boolean `" ++ (if b then "true" else "false") ++ "`"
  | .num n => n.describe
  | .str s => "string " ++ Text.quoted s
  | .arr _ => "sequence"
  | .obj _ => "map"

def wrongType (given expected : String) : String :=
  "invalid type: " ++ given ++ ", expected " ++ expected

/-- The value has the expected type but is out of its range. -/
def wrongValue (given expected : String) : String :=
  "invalid value: " ++ given ++ ", expected " ++ expected

def missingField (key : String) : String := "missing field `" ++ key ++ "`"

def duplicateField (key : String) : String := "duplicate field `" ++ key ++ "`"

/-- An array ends before a field without default. -/
def shortArray (given : Nat) (name : String) (fields : Nat) : String :=
  "invalid length " ++ toString given ++ ", expected struct " ++ name ++ " with " ++ toString fields
    ++ " element" ++ (if fields = 1 then "" else "s")

def unknownName (name : String) (admitted : List String) : String :=
  let names := admitted.map fun n => "`" ++ n ++ "`"
  let expected := match names with
    | [] => "there are no variants"
    | [a] => "expected " ++ a
    | [a, b] => "expected " ++ a ++ " or " ++ b
    | names => "expected one of " ++ String.intercalate ", " names
  "unknown variant `" ++ name ++ "`, " ++ expected

end EventUpload.Json
