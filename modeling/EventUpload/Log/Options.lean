import EventUpload.Json.Value

/-!
# Options of the log

How important a record must be to be logged, in which form, and where to. The options are texts as
they were given; what they mean is settled when the log is opened.
-/

set_option autoImplicit false

namespace EventUpload

structure LogOptions where
  /-- The directives of the filter, or just a level. -/
  level : String
  form : String
  output : String
  /-- The file that is written to if the output is one. -/
  file : String
  colour : Bool
  modules : List (String × String)
deriving BEq, DecidableEq, Repr

namespace LogOptions

def standard : LogOptions := ⟨"warn", "text", "stderr", ".bepstream/bepstream.log", true, []⟩

def toJson (o : LogOptions) : Json :=
  .obj [("level", .str o.level), ("format", .str o.form), ("output", .str o.output),
    ("file", .str o.file), ("color", .bool o.colour),
    ("modules", .obj (o.modules.map fun (k, v) => (k, .str v)))]

end LogOptions

end EventUpload
