import EventUpload.Proofs.Settings.Records

/-!
# The leaves of the settings

The options that are data, record by record, each with the name that it has in a layer and with how it
is read. `Settings.IsLeaf` puts them together: the options of the upload, of its three files and of its
backend, those of the log, and the level of every module. Reading settings reads each leaf
(`Settings.IsLeaf.readBy`).

The lists are written out, since a decoder is a function and cannot be asked for its fields. They cannot
go wrong unnoticed: that a field is read by the decoder under this name and in this way is a lemma for
each list, and the name, the decoder of the value and the function that gets it all have to be right for
it. An option that is missing from a list would not be noticed, but then nothing would be claimed of it.

A record that need not be there, such as a file or the backend, has leaves with a table of its own above
them. What they are without a table is that there is no record, and with a table its defaults.
-/

set_option autoImplicit false

namespace EventUpload

open Setting

/-! ## Options of one record -/

def FileOptions.fields : List (RecordField FileOptions) := [
  ⟨"path", true, toText, (·.path)⟩,
  ⟨"timeout_secs", false, toWord, (·.timeoutSecs)⟩]

def BackendOptions.fields : List (RecordField BackendOptions) := [
  ⟨"endpoint", true, toText, (·.endpoint)⟩,
  ⟨"timeout_secs", false, toWord, (·.timeoutSecs)⟩,
  ⟨"project_id", false, toOption toText, (·.projectId)⟩,
  ⟨"keywords", false, Setting.toList toText, (·.keywords)⟩,
  ⟨"results_url_prefix", false, toOption toText, (·.resultsUrl)⟩,
  ⟨"request_url_prefix", false, toOption toText, (·.requestUrl)⟩,
  ⟨"batch_size", false, toWord, (·.batchSize)⟩,
  ⟨"ack_poll_interval_ms", false, toWord, (·.pollInterval)⟩]

/-- The options of an upload that are data. -/
def UploadOptions.fields : List (RecordField UploadOptions) := [
  ⟨"upload_mode", false, toName "UploadMode" UploadMode.named, (·.mode)⟩,
  ⟨"keep_backend_connections", false, toFlag, (·.keepConnections)⟩,
  ⟨"previous_invocation_grace_secs", false, toWord, (·.previousGraceSecs)⟩,
  ⟨"crash_grace_secs", false, toWord, (·.crashGraceSecs)⟩,
  ⟨"shutdown_grace_secs", false, toWord, (·.shutdownGraceSecs)⟩,
  ⟨"max_blocking_wait_secs", false, toWord, (·.maxBlockingSecs)⟩,
  ⟨"allowed_commands", false, Setting.toList toText, (·.allowedCommands)⟩,
  ⟨"outerr_buffer_size", false, toWord, (·.outputBuffer)⟩,
  ⟨"outerr_chunk_size", false, toWord, (·.outputChunk)⟩]

/-- Those that are records, of which every one may be missing. -/
def UploadOptions.fileField (e : Encoding) : RecordField UploadOptions :=
  ⟨e.sinkName, false, toOption FileOptions.ofSetting, (·.file? e)⟩

def UploadOptions.backendField : RecordField UploadOptions :=
  ⟨backendSinkName, false, toOption BackendOptions.ofSetting, (·.backend)⟩

/-- The options of the log that are data. -/
def LogOptions.fields : List (RecordField LogOptions) := [
  ⟨"level", false, toText, (·.level)⟩,
  ⟨"format", false, toText, (·.form)⟩,
  ⟨"output", false, toText, (·.output)⟩,
  ⟨"file", false, toText, (·.file)⟩,
  ⟨"color", false, toFlag, (·.colour)⟩]

def LogOptions.modulesField : RecordField LogOptions :=
  ⟨"modules", false, toNamed toText, (·.modules)⟩

def Settings.uploadField : RecordField Settings :=
  ⟨"upload", false, UploadOptions.ofSetting, (·.upload)⟩

def Settings.logField : RecordField Settings :=
  ⟨"logging", false, LogOptions.ofSetting, (·.log)⟩

/-! ## Each of them is read -/

theorem FileOptions.fields_readBy :
    ∀ x ∈ FileOptions.fields, x.ReadBy (.at "") FileOptions.ofSetting := by
  intro x hx
  apply RecordField.In.readBy
  simp only [fields, List.mem_cons, List.not_mem_nil, or_false] at hx
  rcases hx with rfl | rfl
  all_goals constructor <;> simp [bind_pure_comp, of_map_eq_ok]

theorem BackendOptions.fields_readBy :
    ∀ x ∈ BackendOptions.fields, x.ReadBy (.at "") BackendOptions.ofSetting := by
  intro x hx
  apply RecordField.In.readBy
  simp only [fields, List.mem_cons, List.not_mem_nil, or_false] at hx
  rcases hx with rfl | rfl | rfl | rfl | rfl | rfl | rfl | rfl
  all_goals constructor <;> simp [bind_pure_comp, of_map_eq_ok]

theorem UploadOptions.fields_readBy :
    ∀ x ∈ UploadOptions.fields, x.ReadBy .standard UploadOptions.ofSetting := by
  intro x hx
  apply RecordField.In.readBy
  simp only [fields, List.mem_cons, List.not_mem_nil, or_false] at hx
  rcases hx with rfl | rfl | rfl | rfl | rfl | rfl | rfl | rfl | rfl
  all_goals constructor <;> simp [bind_pure_comp, of_map_eq_ok]

theorem UploadOptions.fileField_readBy (e : Encoding) :
    (fileField e).ReadBy .standard UploadOptions.ofSetting := by
  apply RecordField.In.readBy
  cases e
  all_goals constructor <;> simp [fileField, Encoding.sinkName, file?, bind_pure_comp, of_map_eq_ok]

theorem UploadOptions.backendField_readBy :
    backendField.ReadBy .standard UploadOptions.ofSetting := by
  apply RecordField.In.readBy
  constructor <;> simp [backendField, backendSinkName, bind_pure_comp, of_map_eq_ok]

theorem LogOptions.fields_readBy :
    ∀ x ∈ LogOptions.fields, x.ReadBy .standard LogOptions.ofSetting := by
  intro x hx
  apply RecordField.In.readBy
  simp only [fields, List.mem_cons, List.not_mem_nil, or_false] at hx
  rcases hx with rfl | rfl | rfl | rfl | rfl
  all_goals constructor <;> simp [bind_pure_comp, of_map_eq_ok]

theorem LogOptions.modulesField_readBy : modulesField.ReadBy .standard LogOptions.ofSetting := by
  apply RecordField.In.readBy
  constructor <;> simp [modulesField, bind_pure_comp, of_map_eq_ok]

namespace Settings

theorem uploadField_readBy : uploadField.ReadBy .standard ofSetting := by
  apply RecordField.In.readBy
  constructor <;> simp [uploadField, bind_pure_comp, of_map_eq_ok]

theorem logField_readBy : logField.ReadBy .standard ofSetting := by
  apply RecordField.In.readBy
  constructor <;> simp [logField, bind_pure_comp, of_map_eq_ok]

/-! ## The leaves -/

/-- The leaves of the settings; every name of a module is one. -/
inductive IsLeaf : Leaf Settings → Prop
  | upload {x : RecordField UploadOptions} (h : x ∈ UploadOptions.fields) :
    IsLeaf (.under uploadField (x.leaf .standard))
  | file (e : Encoding) {x : RecordField FileOptions} (h : x ∈ FileOptions.fields) :
    IsLeaf (.under uploadField (.under (UploadOptions.fileField e) (x.leaf (.at "")).optional))
  | backend {x : RecordField BackendOptions} (h : x ∈ BackendOptions.fields) :
    IsLeaf (.under uploadField (.under UploadOptions.backendField (x.leaf (.at "")).optional))
  | log {x : RecordField LogOptions} (h : x ∈ LogOptions.fields) :
    IsLeaf (.under logField (x.leaf .standard))
  | module (name : String) :
    IsLeaf (.under logField (.under LogOptions.modulesField (.named toText name)))

theorem IsLeaf.readBy {x : Leaf Settings} (h : IsLeaf x) : x.ReadBy .standard ofSetting := by
  cases h with
  | upload hx => exact (UploadOptions.fields_readBy _ hx).leaf.under uploadField_readBy
  | file e hx =>
    have hfile := (FileOptions.fields_readBy _ hx).leaf.optional rfl
    exact (hfile.under (UploadOptions.fileField_readBy e)).under uploadField_readBy
  | backend hx =>
    have hbackend := (BackendOptions.fields_readBy _ hx).leaf.optional rfl
    exact (hbackend.under UploadOptions.backendField_readBy).under uploadField_readBy
  | log hx => exact (LogOptions.fields_readBy _ hx).leaf.under logField_readBy
  | module name =>
    exact ((named_readBy toText name).under LogOptions.modulesField_readBy).under logField_readBy

end Settings

end EventUpload
