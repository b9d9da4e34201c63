import EventUpload.Settings.Basic
import EventUpload.Console.Summary

/-!
# The settings on the console

The settings as JSON, or the sinks as a table with what else matters below it.
-/

set_option autoImplicit false

namespace EventUpload

namespace Settings

def boundCell (seconds : Nat) : String := if seconds = 0 then "none" else toString seconds ++ "s"

def sinkTable (o : UploadOptions) : Text.Table :=
  ⟨["Sink", "Destination", "Timeout"],
    o.files.map (fun (e, f) => [e.sinkName, f.path, boundCell f.timeoutSecs])
      ++ o.backend.toList.map fun b => [backendSinkName, b.endpoint, boundCell b.timeoutSecs]⟩

/-- Whether the options can be used, and what keeps them from it. -/
def verdictLines (o : UploadOptions) : List String :=
  if o.problems.isEmpty then ["  Valid: " ++ Text.styled .green "yes"]
  else ("  Valid: " ++ Text.styled .red "no") :: o.problems.map ("    - " ++ ·)

def render (form : ShowForm) (s : Settings) : String :=
  match form with
  | .json => s.toJson.pretty
  | .table =>
    let o := s.upload
    sectionHeading "Upload configuration" ++ "\n\n"
      ++ String.join (([(sinkTable o).render, "  Upload mode: " ++ o.mode.name,
        "  Previous invocation grace: " ++ toString o.previousGraceSecs ++ "s"]
        ++ verdictLines o).map (· ++ "\n"))

end Settings

end EventUpload
