import EventUpload.Options.Path

/-!
# Files and directories

A store maps places to directories, files and devices. A place is the list of the names on the way
to it, the innermost first; a path is resolved from the working directory, name by name, so that it
fails at the first name that is not there or is no directory. Writing happens at an offset, as every
writer of a file has a position of its own.
-/

set_option autoImplicit false

namespace EventUpload

/-- A place: the names on the way to it, the innermost first. -/
abbrev Place := List String

inductive Node where
  | directory
  | file (bytes : List UInt8)
  /-- A device, which keeps nothing; it takes what is written to it or has no room for it. -/
  | device (takes : Bool)
deriving BEq, DecidableEq, Repr

/-- Why something cannot be done to a path. -/
inductive FileFault where
  | missing
  | isDirectory
  | notDirectory
  | noSpace
  /-- A device has no disk that it could be written through to. -/
  | notSyncable
  | nameTooLong
  | nulInName
  /-- There is something else in the place of a directory. -/
  | alreadyThere
deriving BEq, DecidableEq, Repr

def FileFault.message : FileFault → String
  | missing => "No such file or directory (os error 2)"
  | isDirectory => "Is a directory (os error 21)"
  | notDirectory => "Not a directory (os error 20)"
  | noSpace => "No space left on device (os error 28)"
  | notSyncable => "Invalid argument (os error 22)"
  | nameTooLong => "File name too long (os error 36)"
  | nulInName => "file name contained an unexpected NUL byte"
  | alreadyThere => "File exists (os error 17)"

structure FileStore where
  here : Place
  nodes : List (Place × Node)
deriving Repr

namespace FileStore

/-- A store with nothing but the working directory and the two devices. -/
def fresh : FileStore where
  here := ["here", "work"]
  nodes := [([], .directory), (["work"], .directory), (["here", "work"], .directory),
    (["dev"], .directory), (["null", "dev"], .device true), (["full", "dev"], .device false)]

def node? (s : FileStore) (p : Place) : Option Node := s.nodes.lookup p

def put (s : FileStore) (p : Place) (n : Node) : FileStore :=
  { s with nodes := (p, n) :: s.nodes.filter (fun m => m.1 ≠ p) }

/-- Goes on from a place that must be a directory. -/
def walk (s : FileStore) (place : Place) : List PathPart → Except FileFault Place
  | [] => .ok place
  | part :: rest =>
    match s.node? place with
    | none => .error .missing
    | some .directory =>
      match part with
      | .root => s.walk [] rest
      | .here => s.walk place rest
      | .up => s.walk place.tail rest
      | .name n => if 255 < n.utf8ByteSize then .error .nameTooLong else s.walk (n :: place) rest
    | some _ => .error .notDirectory

/-- The place of a path; nothing need be there, but the directory around it must be. -/
def resolve (s : FileStore) (path : String) : Except FileFault Place :=
  if path.toList.contains '\x00' then .error .nulInName
  else if path = "" then .error .missing
  else s.walk s.here (pathParts path)

/-- Whether a path can only name a directory. -/
def namesDirectory (path : String) : Bool := path.toList.getLast? = some '/'

/-- Opens a file for writing; it is created if it is not there. -/
def openFile (s : FileStore) (path : String) : Except FileFault (FileStore × Place) := do
  let place ← s.resolve path
  match s.node? place with
  | some .directory => .error .isDirectory
  | some (.device _) => .ok (s, place)
  | some (.file _) => if namesDirectory path then .error .notDirectory else .ok (s, place)
  | none => if namesDirectory path then .error .isDirectory else .ok (s.put place (.file []), place)

/-- Creates a file, or empties the one that is there. -/
def create (s : FileStore) (path : String) : Except FileFault (FileStore × Place) := do
  let (s, place) ← s.openFile path
  match s.node? place with
  | some (.file _) => .ok (s.put place (.file []), place)
  | _ => .ok (s, place)

def read (s : FileStore) (path : String) : Except FileFault (List UInt8) := do
  match s.node? (← s.resolve path) with
  | none => .error .missing
  | some .directory => .error .isDirectory
  | some (.device _) => .ok []
  | some (.file bytes) => if namesDirectory path then .error .notDirectory else .ok bytes

/-- Bytes with others written over them from an offset on; a gap is filled with zeros. -/
def overwrite (old : List UInt8) (offset : Nat) (bytes : List UInt8) : List UInt8 :=
  old.take offset ++ List.replicate (offset - old.length) 0 ++ bytes
    ++ old.drop (offset + bytes.length)

def writeAt (s : FileStore) (p : Place) (offset : Nat) (bytes : List UInt8) :
    Except FileFault FileStore :=
  match s.node? p with
  | some (.device false) => if bytes.isEmpty then .ok s else .error .noSpace
  | some (.file old) => .ok (s.put p (.file (overwrite old offset bytes)))
  | _ => .ok s

/-- Makes sure that what was written has reached the disk. -/
def sync (s : FileStore) (p : Place) : Except FileFault Unit :=
  match s.node? p with
  | some (.device _) => .error .notSyncable
  | _ => .ok ()

def append (s : FileStore) (p : Place) (bytes : List UInt8) : FileStore :=
  match s.node? p with
  | some (.file old) => s.put p (.file (old ++ bytes))
  | _ => s

/-- Makes the directories of a path that are not there, from a place on. -/
def ensureParts (s : FileStore) (place : Place) : List PathPart → Except FileFault FileStore
  | [] => .ok s
  | .root :: rest => s.ensureParts [] rest
  | .here :: rest => s.ensureParts place rest
  | .up :: rest => s.ensureParts place.tail rest
  | .name n :: rest =>
    if 255 < n.utf8ByteSize then .error .nameTooLong
    else match s.node? (n :: place) with
      | some .directory => s.ensureParts (n :: place) rest
      | some _ => .error (if rest.isEmpty then .alreadyThere else .notDirectory)
      | none => (s.put (n :: place) .directory).ensureParts (n :: place) rest

def ensureAround (s : FileStore) (path : String) : Except FileFault FileStore :=
  let parts := pathParts path
  let around := if parts.getLast? = some .root then [] else parts.dropLast
  let nul := around.any fun
    | .name n => n.toList.contains '\x00'
    | _ => false
  if nul then .error .nulInName else s.ensureParts s.here around

/-- Makes the directories on the way to a place, the outermost first. -/
def makeDirectories (s : FileStore) : Place → FileStore
  | [] => s
  | name :: outer =>
    let s := s.makeDirectories outer
    match s.node? (name :: outer) with
    | some _ => s
    | none => s.put (name :: outer) .directory

end FileStore

end EventUpload
