import EventUpload.Toml.Value

/-!
# Sections of a document

A document is written in pieces: a header names a table, and the lines below it put values there. So
a table can be met several times, and it matters how: by a header of its own, which may come once; as
part of a longer header, which may come before or after its own; or as part of a dotted key, which
leaves it closed to headers. A header in double brackets adds a table to a list of tables, and the
last one of the list is meant wherever its name is part of a longer one. A value is closed to
everything.
-/

set_option autoImplicit false

namespace EventUpload.Toml

/-- How a table was met. -/
inductive TableKind where
  /-- By a header of its own. -/
  | header
  /-- As part of a longer header. -/
  | implied
  /-- As part of a dotted key. -/
  | dotted
deriving BEq, DecidableEq, Repr

/-- What stands at a name while a document is being read. -/
inductive Section where
  | value (v : Toml)
  | table (kind : TableKind) (members : List (String × Section))
  | tables (items : List (List (String × Section)))

abbrev Members := List (String × Section)

namespace Section

mutual

def toToml : Section → Toml
  | .value v => v
  | .table _ members => .table (memberValues members)
  | .tables items => .list (itemValues items)

def memberValues : List (String × Section) → List (String × Toml)
  | [] => []
  | (k, s) :: rest => (k, toToml s) :: memberValues rest

def itemValues : List (List (String × Section)) → List Toml
  | [] => []
  | ms :: rest => .table (memberValues ms) :: itemValues rest

end

end Section

def setMember (key : String) (s : Section) : Members → Members
  | [] => [(key, s)]
  | (k, t) :: rest => if k = key then (k, s) :: rest else (k, t) :: setMember key s rest

def modifyLast? {α : Type} (f : α → Option α) : List α → Option (List α)
  | [] => none
  | [a] => (f a).map fun b => [b]
  | a :: rest => (modifyLast? f rest).map (a :: ·)

/-- Goes down a path of names and changes the table there; `dotted` tells a dotted key from a
header. The change is told how the table was met. -/
def descend (dotted : Bool) (change : TableKind → Members → Option Members) :
    List String → TableKind → Members → Option Members
  | [], kind, ms => change kind ms
  | key :: path, _, ms =>
    match ms.lookup key with
    | none => do
      let kind : TableKind := if dotted then .dotted else .implied
      return setMember key (.table kind (← descend dotted change path kind [])) ms
    | some (.value _) => none
    | some (.tables items) => do
      return setMember key (.tables (← modifyLast? (descend dotted change path .header) items)) ms
    | some (.table kind inner) =>
      if dotted && kind = .header then none
      else do return setMember key (.table kind (← descend dotted change path kind inner)) ms

/-- Meets the header of a table. -/
def openTable (path : List String) (key : String) (root : Members) : Option Members :=
  descend false (fun _ ms => match ms.lookup key with
    | none => some (setMember key (.table .header []) ms)
    | some (.table .implied inner) => some (setMember key (.table .header inner) ms)
    | some _ => none) path .header root

def openItem (path : List String) (key : String) (root : Members) : Option Members :=
  descend false (fun _ ms => match ms.lookup key with
    | none => some (setMember key (.tables [[]]) ms)
    | some (.tables items) => some (setMember key (.tables (items ++ [[]])) ms)
    | some _ => none) path .header root

/-- Puts a value at a dotted key of a table. Only a table that was met by a dotted key takes a value
by one. -/
def assign (path : List String) (key : String) (v : Toml) (kind : TableKind) (ms : Members) :
    Option Members :=
  descend true (fun kind ms =>
    if !path.isEmpty && kind ≠ .dotted then none
    else match ms.lookup key with
      | none => some (setMember key (.value v) ms)
      | some _ => none) path kind ms

/-- Puts a value at a dotted key below a header. -/
def assignBelow (header path : List String) (key : String) (v : Toml) (root : Members) :
    Option Members :=
  descend false (fun kind ms => assign path key v kind ms) header .header root

/-- The table of pairs of dotted keys and values that stands in one line. -/
def inlineTable (pairs : List (List String × String × Toml)) : Option Toml :=
  (pairs.foldlM (fun ms (path, key, v) => assign path key v .header ms) []).map fun ms =>
    .table (Section.memberValues ms)

end EventUpload.Toml
