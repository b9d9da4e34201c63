import EventUpload.Json.Decode
import EventUpload.Lifecycle.Phase

/-!
# Options of an upload

What a command is told about its uploads: up to three files, one per encoding, up to one backend,
how to wait for them, and which commands upload at all. Options are read from a JSON record in which
every field has a default, but a file needs its path and a backend its endpoint.
-/

set_option autoImplicit false

namespace EventUpload

structure FileOptions where
  path : String
  /-- The bound of its upload in seconds; zero means none. -/
  timeoutSecs : Nat
deriving BEq, DecidableEq, Repr

def FileOptions.at (path : String) : FileOptions := ⟨path, 0⟩

structure BackendOptions where
  endpoint : String
  /-- The bound of its upload in seconds; zero means none. -/
  timeoutSecs : Nat
  projectId : Option String
  keywords : List String
  resultsUrl : Option String
  /-- What the place of a build request's description starts with. -/
  requestUrl : Option String
  batchSize : Nat
  /-- The time between two questions for the acknowledgement, in milliseconds. -/
  pollInterval : Nat
deriving BEq, DecidableEq, Repr

def BackendOptions.at (endpoint : String) : BackendOptions :=
  ⟨endpoint, 0, none, [], none, none, 64, 200⟩

structure UploadOptions where
  textFile : Option FileOptions
  jsonFile : Option FileOptions
  binaryFile : Option FileOptions
  backend : Option BackendOptions
  mode : UploadMode
  /-- Whether the connection to the backend outlives a command. -/
  keepConnections : Bool
  previousGraceSecs : Nat
  crashGraceSecs : Nat
  shutdownGraceSecs : Nat
  maxBlockingSecs : Nat
  allowedCommands : List String
  outputBuffer : Nat
  /-- How many bytes of captured output one event carries. -/
  outputChunk : Nat
deriving BEq, DecidableEq, Repr

namespace UploadOptions

def standard : UploadOptions where
  textFile := none
  jsonFile := none
  binaryFile := none
  backend := none
  mode := .blocking
  keepConnections := false
  previousGraceSecs := 5
  crashGraceSecs := 2
  shutdownGraceSecs := 5
  maxBlockingSecs := 3600
  allowedCommands := ["build", "test", "run", "coverage", "fetch", "query", "cquery", "aquery"]
  outputBuffer := 10240
  outputChunk := 1048576

def limits (o : UploadOptions) : Limits :=
  ⟨o.previousGraceSecs * 1000, o.crashGraceSecs * 1000, o.shutdownGraceSecs * 1000,
    o.maxBlockingSecs * 1000⟩

def allows (o : UploadOptions) (command : String) : Bool := o.allowedCommands.contains command

end UploadOptions

/-! ## Reading -/

open Json in
def FileOptions.ofJson : Decoder FileOptions :=
  decodeRecord "FileSinkOptions" [
    ⟨"path", true, fun d v => do return { d with path := ← decodeText "path string" v }⟩,
    ⟨"timeout_secs", false, fun d v => do return { d with timeoutSecs := ← decodeWord "u64" v }⟩]
    (FileOptions.at "")

open Json in
def BackendOptions.ofJson : Decoder BackendOptions :=
  decodeRecord "BackendOptions" [
    ⟨"endpoint", true, fun d v => do return { d with endpoint := ← decodeString v }⟩,
    ⟨"timeout_secs", false, fun d v => do return { d with timeoutSecs := ← decodeWord "u64" v }⟩,
    ⟨"project_id", false, fun d v => do
      return { d with projectId := ← decodeOption decodeString v }⟩,
    ⟨"keywords", false, fun d v => do return { d with keywords := ← decodeList decodeString v }⟩,
    ⟨"results_url_prefix", false, fun d v => do
      return { d with resultsUrl := ← decodeOption decodeString v }⟩,
    ⟨"request_url_prefix", false, fun d v => do
      return { d with requestUrl := ← decodeOption decodeString v }⟩,
    ⟨"batch_size", false, fun d v => do return { d with batchSize := ← decodeWord "usize" v }⟩,
    ⟨"ack_poll_interval_ms", false, fun d v => do
      return { d with pollInterval := ← decodeWord "u64" v }⟩]
    (BackendOptions.at "")

open Json in
def UploadOptions.ofJson : Decoder UploadOptions :=
  decodeRecord "UploadOptions" [
    ⟨"text_file", false, fun d v => do
      return { d with textFile := ← decodeOption FileOptions.ofJson v }⟩,
    ⟨"json_file", false, fun d v => do
      return { d with jsonFile := ← decodeOption FileOptions.ofJson v }⟩,
    ⟨"binary_file", false, fun d v => do
      return { d with binaryFile := ← decodeOption FileOptions.ofJson v }⟩,
    ⟨"backend", false, fun d v => do
      return { d with backend := ← decodeOption BackendOptions.ofJson v }⟩,
    ⟨"upload_mode", false, fun d v => do return { d with mode := ← decodeName UploadMode.named v }⟩,
    ⟨"keep_backend_connections", false, fun d v => do
      return { d with keepConnections := ← decodeBool v }⟩,
    ⟨"previous_invocation_grace_secs", false, fun d v => do
      return { d with previousGraceSecs := ← decodeWord "u64" v }⟩,
    ⟨"crash_grace_secs", false, fun d v => do
      return { d with crashGraceSecs := ← decodeWord "u64" v }⟩,
    ⟨"shutdown_grace_secs", false, fun d v => do
      return { d with shutdownGraceSecs := ← decodeWord "u64" v }⟩,
    ⟨"max_blocking_wait_secs", false, fun d v => do
      return { d with maxBlockingSecs := ← decodeWord "u64" v }⟩,
    ⟨"allowed_commands", false, fun d v => do
      return { d with allowedCommands := ← decodeList decodeString v }⟩,
    ⟨"outerr_buffer_size", false, fun d v => do
      return { d with outputBuffer := ← decodeWord "usize" v }⟩,
    ⟨"outerr_chunk_size", false, fun d v => do
      return { d with outputChunk := ← decodeWord "usize" v }⟩]
    UploadOptions.standard

/-! ## Writing -/

def Json.ofText? (s : Option String) : Json := s.elim .null .str

def Json.ofTexts (items : List String) : Json := .arr (items.map .str)

def FileOptions.toJson (f : FileOptions) : Json :=
  .obj [("path", .str f.path), ("timeout_secs", .ofNat f.timeoutSecs)]

def BackendOptions.toJson (b : BackendOptions) : Json :=
  .obj [("endpoint", .str b.endpoint), ("timeout_secs", .ofNat b.timeoutSecs),
    ("project_id", .ofText? b.projectId), ("keywords", .ofTexts b.keywords),
    ("results_url_prefix", .ofText? b.resultsUrl), ("request_url_prefix", .ofText? b.requestUrl),
    ("batch_size", .ofNat b.batchSize), ("ack_poll_interval_ms", .ofNat b.pollInterval)]

def UploadOptions.toJson (o : UploadOptions) : Json :=
  .obj [("text_file", o.textFile.elim .null FileOptions.toJson),
    ("json_file", o.jsonFile.elim .null FileOptions.toJson),
    ("binary_file", o.binaryFile.elim .null FileOptions.toJson),
    ("backend", o.backend.elim .null BackendOptions.toJson),
    ("upload_mode", .str o.mode.name),
    ("keep_backend_connections", .bool o.keepConnections),
    ("previous_invocation_grace_secs", .ofNat o.previousGraceSecs),
    ("crash_grace_secs", .ofNat o.crashGraceSecs),
    ("shutdown_grace_secs", .ofNat o.shutdownGraceSecs),
    ("max_blocking_wait_secs", .ofNat o.maxBlockingSecs),
    ("allowed_commands", .ofTexts o.allowedCommands),
    ("outerr_buffer_size", .ofNat o.outputBuffer),
    ("outerr_chunk_size", .ofNat o.outputChunk)]

end EventUpload
