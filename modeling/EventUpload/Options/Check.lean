import EventUpload.Options.Basic
import EventUpload.Options.Path
import EventUpload.Event.Encoding
import EventUpload.Text.Blank
import EventUpload.Failure

/-!
# Checking options

`UploadOptions.problems` lists everything that keeps options from being used: a file without path,
two files with the same path, an endpoint that is no web address, and sizes of zero.
-/

set_option autoImplicit false

namespace EventUpload

def Encoding.sinkName : Encoding → String
  | .text => "text_file"
  | .json => "json_file"
  | .binary => "binary_file"

def backendSinkName : String := "backend"

namespace UploadOptions

def file? (o : UploadOptions) : Encoding → Option FileOptions
  | .text => o.textFile
  | .json => o.jsonFile
  | .binary => o.binaryFile

/-- The files that are given, in the order of their encodings. -/
def files (o : UploadOptions) : List (Encoding × FileOptions) :=
  [Encoding.text, .json, .binary].filterMap fun e => (o.file? e).map fun f => (e, f)

def usesSinks (o : UploadOptions) : Bool := o.backend.isSome || !o.files.isEmpty

/-- The problems of files, given the paths that are taken already. -/
def fileProblems (taken : List (List PathPart)) : List (Encoding × FileOptions) → List String
  | [] => []
  | (e, f) :: rest =>
    if f.path = "" then (e.sinkName ++ ".path cannot be empty") :: fileProblems taken rest
    else
      let parts := pathParts f.path
      if taken.contains parts then
        (e.sinkName ++ ".path '" ++ f.path ++ "' is already used by another build event file")
          :: fileProblems taken rest
      else fileProblems (parts :: taken) rest

/-- Whether a text is the address of a web service, blanks around it apart. -/
def isWebAddress (endpoint : String) : Bool :=
  let address := Text.trimChars endpoint.toList
  ("http://".toList.isPrefixOf address || "https://".toList.isPrefixOf address)
    && !"://".toList.isSuffixOf address

def backendProblems (b : BackendOptions) : List String :=
  (if isWebAddress b.endpoint then []
    else ["backend.endpoint '" ++ b.endpoint ++ "' must be an http:// or https:// URL"])
  ++ (if b.batchSize = 0 then ["backend.batch_size must be at least 1"] else [])
  ++ (if b.pollInterval = 0 then ["backend.ack_poll_interval_ms must be at least 1"] else [])

/-- Everything that keeps the options from being used. -/
def problems (o : UploadOptions) : List String :=
  fileProblems [] o.files
  ++ (o.backend.elim [] backendProblems)
  ++ (if o.outputChunk = 0 then ["outerr_chunk_size must be at least 1"] else [])

def check (o : UploadOptions) : Except Failure Unit :=
  if o.problems.isEmpty then .ok () else .error (.configuration o.problems)

end UploadOptions

end EventUpload
