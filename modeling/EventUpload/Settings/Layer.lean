import EventUpload.Settings.Value
import EventUpload.Text.Lower

/-!
# Layers of settings

A layer puts settings at paths. Putting a table merges it into what is there, member by member;
everything else replaces what is there. Names of members are kept in lower case, so that their case
does not matter; inside of lists they stay as they are.
-/

set_option autoImplicit false

namespace EventUpload

inductive PathStep where
  | member (key : String)
  | item (index : Nat)
deriving BEq, DecidableEq, Repr

/-- A path: the name of a member of the root, and further steps. -/
structure SettingPath where
  head : String
  steps : List PathStep
deriving BEq, DecidableEq, Repr

namespace SettingPath

/-- Whether a character may stand in a name of a path. -/
def isNameChar (c : Char) : Bool := c.isAlphanum || c = ' ' || c = '_' || c = '-'

def readName (cs : List Char) : Option (String × List Char) :=
  let name := cs.takeWhile isNameChar
  if name.isEmpty then none else some (String.ofList name, cs.drop name.length)

/-- A number in brackets, behind the first one; there may be blanks around it. -/
def readIndex (cs : List Char) : Option (Nat × List Char) :=
  let cs := cs.dropWhile fun c => c = ' ' || c = '\t'
  let digits := cs.takeWhile Char.isDigit
  let rest := (cs.drop digits.length).dropWhile fun c => c = ' ' || c = '\t'
  match digits, rest with
  | _ :: _, ']' :: rest =>
    let n := digits.foldl (fun n c => n * 10 + (c.toNat - '0'.toNat)) 0
    if n < Nat.pow 2 63 then some (n, rest) else none
  | _, _ => none

/-- The steps of a path up to its end. The number bounds them. -/
def readSteps : Nat → List Char → Option (List PathStep)
  | 0, _ => none
  | bound + 1, cs =>
    match cs with
    | [] => some []
    | '.' :: cs => do
      let (name, cs) ← readName cs
      return .member name :: (← readSteps bound cs)
    | '[' :: cs => do
      let (i, cs) ← readIndex cs
      return .item i :: (← readSteps bound cs)
    | _ => none

/-- The path that a text stands for; a text that is none names a member of the root itself. -/
def ofText (text : String) : SettingPath :=
  let cs := text.toList
  let read := do
    let (name, rest) ← readName cs
    return SettingPath.mk name (← readSteps (rest.length + 1) rest)
  read.getD ⟨text, []⟩

end SettingPath

namespace Setting

def setMember (key : String) (v : Setting) : List (String × Setting) → List (String × Setting)
  | [] => [(key, v)]
  | (k, w) :: rest => if k = key then (k, v) :: rest else (k, w) :: setMember key v rest

/-- The members of a table; everything else counts as an empty one. -/
def asMembers : Setting → Option String × List (String × Setting)
  | .table origin members => (origin, members)
  | _ => (none, [])

/-- Changes a member of a table; `absence` is there if it is not. What is no table becomes one. -/
def overMember (key : String) (absence : Setting) (f : Setting → Setting) (v : Setting) : Setting :=
  let (origin, members) := v.asMembers
  let key := Text.lower key
  .table origin (setMember key (f ((members.lookup key).getD absence)) members)

mutual

def put (key : String) (value : Setting) (root : Setting) : Setting :=
  match value with
  -- A table never takes members away.
  | .table _ members => overMember key emptyTable (putAll members) root
  | v => overMember key absent (fun _ => v) root

def putAll : List (String × Setting) → Setting → Setting
  | [], root => root
  | (k, v) :: rest, root => putAll rest (put k v root)

end

/-- Changes an item of a list; what is no list becomes one, and a list that is too short is filled
up with nothing. -/
def overItem (i : Nat) (f : Setting → Setting) (v : Setting) : Setting :=
  let (origin, items) := match v with
    | .list origin items => (origin, items)
    | _ => (none, [])
  let items := items ++ List.replicate (i + 1 - items.length) absent
  .list origin (items.modify i f)

/-- Puts a setting at the end of a path that starts at a member. -/
def putAlong (value : Setting) (key : String) : List PathStep → Setting → Setting
  | [], root => put key value root
  | steps, root => overMember key absent (atSteps steps) root
where
  atSteps : List PathStep → Setting → Setting
    | [], _ => value
    | [.member k], v => put k value v
    | .member k :: steps, v => overMember k absent (atSteps steps) v
    | .item i :: steps, v => overItem i (atSteps steps) v

end Setting

/-- A layer: settings with the texts of their paths. -/
abbrev Layer := List (String × Setting)

def Layer.above (layer : Layer) (root : Setting) : Setting :=
  layer.foldl (fun root (path, v) =>
    let p := SettingPath.ofText path
    Setting.putAlong v p.head p.steps root) root

/-- The settings of layers, each over the ones before. -/
def Layer.stack (layers : List Layer) : Setting :=
  layers.foldl (fun root layer => Layer.above layer root) .emptyTable

end EventUpload
