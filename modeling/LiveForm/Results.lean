import LiveForm.Engine.Operation
import LiveForm.Toml.Writer

/-!
# Exporting results

The results of a form as a configuration file, with one table for each output.
-/

namespace LiveForm.Engine.Result

/-- The table of a result. -/
def table (r : Result) : Toml.Table :=
  ⟨["outputs", r.field], [("value", r.value), ("display", .text r.display)]⟩

/-- The file that holds these results. -/
def exportText (rs : List Result) : String :=
  Toml.write (if rs.isEmpty then [⟨["outputs"], []⟩] else rs.map table)

end LiveForm.Engine.Result
