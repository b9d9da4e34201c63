import EventUpload.CommandLine.Run
import EventUpload.Text.Stamp
import Std.Time.Zoned

/-!
# The program

The outer layer: it collects what a run needs to know about the machine, runs, and carries out what
came of it. Files are read before a run as far as the run may look at them, and those that differ
afterwards are written.
-/

set_option autoImplicit false

namespace EventUpload.Program

def pathOf (place : Place) : String := "/" ++ String.intercalate "/" place.reverse

/-- What is at a path whose directory is there. -/
def look (path : String) : IO (Option Node) := do
  try
    return some (.file (← IO.FS.readBinFile path).toList)
  catch
    | .inappropriateType .. => return some .directory
    | _ => return none

/-- Takes in what is on the way of a path, from a place on. -/
def takeIn (s : FileStore) (place : Place) : List PathPart → IO FileStore
  | [] => return s
  | .root :: rest => takeIn s [] rest
  | .here :: rest => takeIn s place rest
  | .up :: rest => takeIn s place.tail rest
  | .name n :: rest => do
    let place := n :: place
    match s.node? place with
    | some .directory => takeIn s place rest
    | some _ => return s
    | none =>
      match ← look (pathOf place) with
      | some node =>
        let s := s.put place node
        if node = .directory then takeIn s place rest else return s
      | none => return s

def takeInAll (s : FileStore) (paths : List String) : IO FileStore :=
  paths.foldlM (fun s path => takeIn s s.here (pathParts path)) s

/-- The store of a machine of which nothing is known but the working directory. -/
def emptyStore (directory : String) : FileStore :=
  let here := (pathParts directory).reverse.filterMap fun
    | .name n => some n
    | _ => none
  { FileStore.fresh with here := here }.makeDirectories here

/-- The variables in a block of texts that end with a zero byte. -/
def environmentOf (block : List UInt8) : Environment :=
  ((Utf8.decodeLossy block).splitOn "\x00").filterMap fun entry =>
    match entry.splitOn "=" with
    | name :: value@(_ :: _) => some (name, String.intercalate "=" value)
    | _ => none

def settingPaths (o : GlobalOptions) (env : Environment) : List String :=
  match o.settingsFile with
  | some name => name :: ["toml", "json"].filterMap (addExtension? name)
  | none => (Environment.userFile? env).toList ++ [inDirectory o.workspace workspaceFile]

/-- The files that a command line is about, once its settings are known. -/
def workPaths (c : CommandLine) (s : Surroundings) : List String :=
  (c.options.log s).file :: match c.command with
    | .config _ => []
    | .replay r => r.events :: match c.options.settings s with
      | .ok settings => (r.applyTo settings.upload).files.map fun (_, file) => file.path
      | .error _ => []

/-- Writes the files that a run has changed, with a stamp wherever one has been left blank. -/
def write (stamp : String) (before after : FileStore) : IO Unit :=
  after.nodes.reverse.forM fun (place, node) => do
    if before.node? place ≠ some node then
      match node with
      | .directory => IO.FS.createDirAll (pathOf place)
      | .file bytes =>
        IO.FS.writeBinFile (pathOf place)
          ⟨(Text.fillStamps (Utf8.encode stamp) bytes).toArray⟩
      | .device _ => return

def processNumber : IO String := do
  match ← look "/proc/self/stat" with
  | some (.file bytes) =>
    return String.ofList ((Utf8.decodeLossy bytes).toList.takeWhile Char.isDigit)
  | _ => return "0"

def environment : IO Environment := do
  match ← look "/proc/self/environ" with
  | some (.file bytes) => return environmentOf bytes
  | _ => return []

def surroundings (c : CommandLine) (nanos : Nat) : IO Surroundings := do
  let env ← environment
  let store := emptyStore (← IO.currentDir).toString
  let files ← takeInAll store (settingPaths c.options env)
  let ids := IdSource.ofProcess (toString (nanos / 1000000)) (← processNumber)
  let s : Surroundings := ⟨env, files, .none, ids, Text.logStamp nanos⟩
  return { s with files := ← takeInAll files (workPaths c s) }

def print (r : RunResult) : IO UInt32 := do
  IO.print r.output
  IO.eprint r.errors
  return r.status.toUInt32

def carryOut (words : List String) : IO UInt32 := do
  match CommandLine.ofWords words with
  | .error f => print (f.result .fresh)
  | .ok c =>
    let nanos := (← Std.Time.Timestamp.now).toNanosecondsSinceUnixEpoch.val.toNat
    let s ← surroundings c nanos
    let r := c.run s
    write (Text.eventStamp nanos) s.files r.files
    print r

end EventUpload.Program

def main (args : List String) : IO UInt32 := EventUpload.Program.carryOut ("bepstream" :: args)
