import EventUpload.Files.Store

/-!
# Names of files

The last name of a path may have an extension: what follows its last dot, unless that is its first
character.
-/

set_option autoImplicit false

namespace EventUpload

/-- The last name of a path, unless the path ends by going up. -/
def fileName? (path : String) : Option String :=
  match (pathParts path).getLast? with
  | some (.name n) => some n
  | _ => none

/-- The position of the last dot of a name, if it has an extension. -/
def stemLength? (name : List Char) : Option Nat :=
  let tail := (name.reverse.takeWhile (· ≠ '.')).length
  if tail + 1 < name.length then some (name.length - tail - 1) else none

def extension? (path : String) : Option String := do
  let name := (← fileName? path).toList
  return String.ofList (name.drop ((← stemLength? name) + 1))

/-- The path with an extension added to its last name, if it has one. -/
def addExtension? (path extension : String) : Option String := do
  let _ ← fileName? path
  let kept := pathParts path
  let name := fun
    | PathPart.root => ""
    | .here => "."
    | .up => ".."
    | .name n => n
  return String.intercalate "/" (kept.map name) ++ "." ++ extension

namespace FileStore

/-- What a path leads to. -/
def found? (s : FileStore) (path : String) : Option Node :=
  match s.resolve path with
  | .ok place => s.node? place
  | .error _ => none

def holds (s : FileStore) (path : String) : Bool := (s.found? path).isSome

def isFile (s : FileStore) (path : String) : Bool :=
  match s.found? path with
  | some (.file _) => !namesDirectory path
  | _ => false

/-- The working directory as an absolute path. -/
def herePath (s : FileStore) : String := "/" ++ String.intercalate "/" s.here.reverse

def absolutePath (s : FileStore) (path : String) : String :=
  if path.toList.head? = some '/' then path else s.herePath ++ "/" ++ path

/-- The parts of an absolute path behind those of the working directory; parts of the latter that
are left are gone up. -/
def behind : List String → List String → List String
  | [], parts => parts
  | h :: here, p :: parts =>
    if h = p then behind here parts else (h :: here).map (fun _ => "..") ++ p :: parts
  | here, [] => here.map fun _ => ".."

def fromHere (s : FileStore) (path : String) : String :=
  let names := (pathParts path).filterMap fun
    | .name n => some n
    | .up => some ".."
    | .here | .root => none
  let names := if path.toList.head? = some '/' then behind s.here.reverse names else names
  String.intercalate "/" names

end FileStore

end EventUpload
