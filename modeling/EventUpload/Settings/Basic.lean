import EventUpload.Settings.Decode
import EventUpload.Settings.Layer
import EventUpload.Options.Check
import EventUpload.Log.Options

/-!
# The settings of the program

The settings are the options of the upload and those of the log.
-/

set_option autoImplicit false

namespace EventUpload

structure Settings where
  upload : UploadOptions
  log : LogOptions
deriving BEq, DecidableEq, Repr

/-! ## Reading -/

open Setting in
def FileOptions.ofSetting : SettingDecoder FileOptions :=
  toRecord "FileSinkOptions" [
    ⟨"path", true, fun d v => do return { d with path := ← toText v }⟩,
    ⟨"timeout_secs", false, fun d v => do return { d with timeoutSecs := ← toWord v }⟩]
    (FileOptions.at "")

open Setting in
def BackendOptions.ofSetting : SettingDecoder BackendOptions :=
  toRecord "BackendOptions" [
    ⟨"endpoint", true, fun d v => do return { d with endpoint := ← toText v }⟩,
    ⟨"timeout_secs", false, fun d v => do return { d with timeoutSecs := ← toWord v }⟩,
    ⟨"project_id", false, fun d v => do return { d with projectId := ← toOption toText v }⟩,
    ⟨"keywords", false, fun d v => do return { d with keywords := ← Setting.toList toText v }⟩,
    ⟨"results_url_prefix", false, fun d v => do
      return { d with resultsUrl := ← toOption toText v }⟩,
    ⟨"request_url_prefix", false, fun d v => do
      return { d with requestUrl := ← toOption toText v }⟩,
    ⟨"batch_size", false, fun d v => do return { d with batchSize := ← toWord v }⟩,
    ⟨"ack_poll_interval_ms", false, fun d v => do return { d with pollInterval := ← toWord v }⟩]
    (BackendOptions.at "")

open Setting in
def UploadOptions.ofSetting : SettingDecoder UploadOptions :=
  toRecord "UploadOptions" [
    ⟨"text_file", false, fun d v => do
      return { d with textFile := ← toOption FileOptions.ofSetting v }⟩,
    ⟨"json_file", false, fun d v => do
      return { d with jsonFile := ← toOption FileOptions.ofSetting v }⟩,
    ⟨"binary_file", false, fun d v => do
      return { d with binaryFile := ← toOption FileOptions.ofSetting v }⟩,
    ⟨"backend", false, fun d v => do
      return { d with backend := ← toOption BackendOptions.ofSetting v }⟩,
    ⟨"upload_mode", false, fun d v => do
      return { d with mode := ← toName "UploadMode" UploadMode.named v }⟩,
    ⟨"keep_backend_connections", false, fun d v => do
      return { d with keepConnections := ← toFlag v }⟩,
    ⟨"previous_invocation_grace_secs", false, fun d v => do
      return { d with previousGraceSecs := ← toWord v }⟩,
    ⟨"crash_grace_secs", false, fun d v => do return { d with crashGraceSecs := ← toWord v }⟩,
    ⟨"shutdown_grace_secs", false, fun d v => do
      return { d with shutdownGraceSecs := ← toWord v }⟩,
    ⟨"max_blocking_wait_secs", false, fun d v => do
      return { d with maxBlockingSecs := ← toWord v }⟩,
    ⟨"allowed_commands", false, fun d v => do
      return { d with allowedCommands := ← Setting.toList toText v }⟩,
    ⟨"outerr_buffer_size", false, fun d v => do return { d with outputBuffer := ← toWord v }⟩,
    ⟨"outerr_chunk_size", false, fun d v => do return { d with outputChunk := ← toWord v }⟩]
    UploadOptions.standard

open Setting in
def LogOptions.ofSetting : SettingDecoder LogOptions :=
  toRecord "LoggingConfig" [
    ⟨"level", false, fun d v => do return { d with level := ← toText v }⟩,
    ⟨"format", false, fun d v => do return { d with form := ← toText v }⟩,
    ⟨"output", false, fun d v => do return { d with output := ← toText v }⟩,
    ⟨"file", false, fun d v => do return { d with file := ← toText v }⟩,
    ⟨"color", false, fun d v => do return { d with colour := ← toFlag v }⟩,
    ⟨"modules", false, fun d v => do return { d with modules := ← toNamed toText v }⟩]
    LogOptions.standard

namespace Settings

def standard : Settings := ⟨.standard, .standard⟩

def ofSetting : SettingDecoder Settings :=
  Setting.toRecord "BepConfig" [
    ⟨"upload", false, fun d v => do return { d with upload := ← UploadOptions.ofSetting v }⟩,
    ⟨"logging", false, fun d v => do return { d with log := ← LogOptions.ofSetting v }⟩]
    standard

def toJson (s : Settings) : Json :=
  .obj [("upload", s.upload.toJson), ("logging", s.log.toJson)]

def baseLayer : Layer :=
  let datum := fun d => Setting.datum none d
  [("upload.upload_mode", datum (.text "blocking")),
    ("upload.keep_backend_connections", datum (.flag false)),
    ("upload.previous_invocation_grace_secs", datum (.whole 5)),
    ("upload.crash_grace_secs", datum (.whole 2)),
    ("upload.shutdown_grace_secs", datum (.whole 5)),
    ("upload.max_blocking_wait_secs", datum (.whole 3600)),
    ("logging.level", datum (.text "warn"))]

/-- The settings of layers over the lowest one. -/
def ofLayers (layers : List Layer) : Except SettingFault Settings :=
  ofSetting (Layer.stack (baseLayer :: layers))

end Settings

end EventUpload
