import EventUpload.Settings.Basic
import EventUpload.Settings.Environment
import EventUpload.Files.Name
import EventUpload.Json.Reader
import EventUpload.Text.Utf8
import EventUpload.Toml.Document

/-!
# Where settings come from

The settings of a user come first, then those of a workspace, then those of the environment. A file
that is named instead takes the place of the first two. Its extension says in which form it is; when
there is no file of the given name, the known extensions are tried behind it.
-/

set_option autoImplicit false

namespace EventUpload

inductive SettingsForm where
  | toml
  | json
deriving BEq, DecidableEq, Repr

namespace SettingsForm

def extension : SettingsForm → String
  | toml => "toml"
  | json => "json"

def ofExtension? (extension : String) : Option SettingsForm :=
  [toml, json].find? (·.extension = extension)

end SettingsForm

/-- The members of the settings that a text holds. -/
def SettingsForm.read (form : SettingsForm) (origin text : String) : Except SettingFault Layer :=
  match form with
  | .toml =>
    match Toml.ofText? text with
    | some v =>
      match Setting.ofToml (some origin) v with
      | .table _ members => .ok members
      | s => .error (.malformed ("invalid type: " ++ s.describe) origin)
    | none => .error (.malformed "TOML parse error" origin)
  | .json =>
    match Json.ofText text with
    | .ok v =>
      match Setting.ofJson (some origin) v with
      | .table _ members => .ok members
      | s => .error (.malformed ("invalid type: " ++ s.describe ++ ", expected a map") origin)
    | .error f => .error (.malformed (f.message text) origin)

/-- The text of a file without the mark that it may start with. -/
def textOfFile (bytes : List UInt8) : String :=
  Utf8.decodeLossy (if [0xef, 0xbb, 0xbf].isPrefixOf bytes then bytes.drop 3 else bytes)

namespace FileStore

/-- The file that a name of a file of settings means. -/
def settingsFile (s : FileStore) (name : String) : Except SettingFault (String × SettingsForm) :=
  let path := s.absolutePath name
  if s.isFile path then
    match (extension? path).bind SettingsForm.ofExtension? with
    | some form => .ok (path, form)
    | none => .error (.noFile
        ("configuration file \"" ++ path ++ "\" is not of a registered file format"))
  else
    let tried := [SettingsForm.toml, .json].filterMap fun form =>
      (addExtension? path form.extension).bind fun path =>
        if s.isFile path then some (path, form) else none
    match tried with
    | found :: _ => .ok found
    | [] => .error (.noFile ("configuration file \"" ++ name ++ "\" not found"))

def settingsLayer (s : FileStore) (name : String) : Except SettingFault Layer := do
  let (path, form) ← s.settingsFile name
  match s.read path with
  | .ok bytes => form.read (s.fromHere path) (textOfFile bytes)
  | .error f => .error (.noFile f.message)

/-- The layer of a file of settings that need not be there. -/
def optionalLayer (s : FileStore) (name : String) : Except SettingFault Layer :=
  match s.settingsFile name with
  | .ok _ => s.settingsLayer name
  | .error _ => .ok []

end FileStore

def workspaceFile : String := ".bepstream.toml"

def inDirectory (directory name : String) : String :=
  if directory = "" then name
  else if directory.toList.getLast? = some '/' then directory ++ name
  else directory ++ "/" ++ name

namespace Environment

def userDirectory? (env : Environment) : Option String :=
  match (env.value? "XDG_CONFIG_HOME").filter (·.toList.head? = some '/') with
  | some directory => some directory
  | none => (env.value? "HOME").bind fun home =>
    if home = "" then none else some (inDirectory home ".config")

def userFile? (env : Environment) : Option String :=
  (userDirectory? env).map fun d => inDirectory d "bepstream/config.toml"

end Environment

namespace Settings

/-- The layers of the files that hold unless another one is named. -/
def fileLayers (s : FileStore) (env : Environment) (workspace : String) :
    Except SettingFault (List Layer) := do
  let user ← match Environment.userFile? env with
    | some path => if s.holds path then s.optionalLayer path else .ok []
    | none => .ok []
  let path := inDirectory workspace workspaceFile
  let own ← if s.holds path then s.optionalLayer path else .ok []
  return [user, own]

def load (s : FileStore) (env : Environment) (workspace : String) :
    Except SettingFault Settings := do
  ofLayers ((← fileLayers s env workspace) ++ [Environment.layer env])

def loadFile (s : FileStore) (env : Environment) (name : String) :
    Except SettingFault Settings := do
  ofLayers [← s.settingsLayer name, Environment.layer env]

end Settings

end EventUpload
