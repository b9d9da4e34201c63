import EventUpload.Settings.Layer
import EventUpload.Decimal.Read

/-!
# Settings in the environment

A variable whose name starts with the program's name gives a setting; two underscores stand for the
dot of a path. Its text is a truth value, a whole number or a real one if it can be read as such, and
at the keys that take lists it is a list with commas between the items.
-/

set_option autoImplicit false

namespace EventUpload

abbrev Environment := List (String × String)

def Environment.value? (env : Environment) (name : String) : Option String := env.lookup name

/-- What the names of variables start with, in lower case. -/
def variableStart : List Char := "bepstream__".toList

def environmentOrigin : Option String := some "the environment"

/-- The keys that take lists. -/
def listKeys : List String := ["upload.allowed_commands", "upload.backend.keywords"]

/-- A name with dots for pairs of underscores. -/
def dotted : List Char → List Char
  | '_' :: '_' :: rest => '.' :: dotted rest
  | c :: rest => c :: dotted rest
  | [] => []

/-- The path of a variable, if it gives a setting. -/
def variablePath? (name : String) : Option String :=
  let cs := (Text.lower name).toList
  if variableStart.isPrefixOf cs then some (String.ofList (dotted (cs.drop variableStart.length)))
  else none

/-- The whole number of 64 bits that a text stands for. -/
def wholeOfText? (cs : List Char) : Option Int :=
  let (negative, digits) := match cs with
    | '-' :: rest => (true, rest)
    | '+' :: rest => (false, rest)
    | cs => (false, cs)
  if digits.isEmpty || !digits.all Char.isDigit then none
  else
    let n := Decimal.numberOf digits
    if negative then if n ≤ Nat.pow 2 63 then some (-(n : Int)) else none
    else if n < Nat.pow 2 63 then some n else none

def variableSetting (path value : String) : Setting :=
  let cs := value.toList
  let datum := fun d => Setting.datum environmentOrigin d
  match Text.lower value with
  | "true" => datum (.flag true)
  | "false" => datum (.flag false)
  | _ =>
    match wholeOfText? cs, Decimal.readDouble? cs with
    | some n, _ => datum (.whole n)
    | none, some x => datum (.real x)
    | none, none =>
      if listKeys.contains path then
        .list environmentOrigin ((value.splitOn ",").map fun s => datum (.text s))
      else datum (.text value)

def Environment.layer (env : Environment) : Layer :=
  env.filterMap fun (name, value) =>
    (variablePath? name).map fun path => (path, variableSetting path value)

end EventUpload
