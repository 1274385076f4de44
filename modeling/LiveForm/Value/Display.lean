import LiveForm.Notice
import LiveForm.Value.Format

/-!
# Displaying a value in a named format
-/

namespace LiveForm

/-- The display text of a value in the format of this name, and what there is to report: a name
that no format has is reported and displays plainly.  For an empty value the name is not looked
at. -/
def Value.display (locale : NumberLocale) (format : Option String) (v : Value) :
    Except FormatError String × List Notice :=
  match format with
  | none => (v.format locale none, [])
  | some name =>
    match FormatKind.ofName? name with
    | some kind => (v.format locale (some kind), [])
    | none => (v.format locale none, if v.isEmpty then [] else [.unknownFormat name])

end LiveForm
