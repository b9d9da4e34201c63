import EventUpload.Report
import EventUpload.Json.Printer
import EventUpload.Text.Table
import EventUpload.Console.Line

/-!
# Summaries

How the uploads of several invocations ended: as a table with one row per sink, or as JSON.
-/

set_option autoImplicit false

namespace EventUpload

/-- How the uploads of one invocation ended. -/
structure Summary where
  /-- The position of the invocation, from one. -/
  index : Nat
  invocation : String
  report : Report
deriving BEq, DecidableEq, Repr

inductive ShowForm where
  | table
  | json
deriving BEq, DecidableEq, Repr

/-- The form that a word asks for; every word but one asks for tables. -/
def ShowForm.ofText (word : String) : ShowForm := if word = "json" then .json else .table

def SinkStatus.style : SinkStatus → Text.Style
  | succeeded => .green
  | pending => .cyan
  | timedOut | cancelled => .yellow
  | failed _ => .red

def SinkStatus.detail : SinkStatus → String
  | failed detail => detail
  | _ => ""

namespace Summary

def toJson (s : Summary) : Json :=
  .obj [("index", .ofNat s.index), ("invocation_id", .str s.invocation),
    ("report", s.report.toJson)]

def rows (s : Summary) : List (List String) :=
  s.report.outcomes.map fun o =>
    [toString s.index, s.invocation, s.report.mode.name, o.name,
      Text.styled o.status.style o.status.label, o.status.detail]

def table (summaries : List Summary) : Text.Table :=
  ⟨["#", "Invocation", "Mode", "Sink", "Status", "Detail"], summaries.flatMap rows⟩

def render (form : ShowForm) (summaries : List Summary) : String :=
  match form with
  | .json => (Json.arr (summaries.map toJson)).pretty
  | .table =>
    sectionHeading "Build event uploads" ++ "\n\n"
      ++ if summaries.all (·.report.outcomes.isEmpty) then "No build event sinks configured.\n"
        else (table summaries).render ++ "\n"

end Summary

end EventUpload
