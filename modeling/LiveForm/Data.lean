import LiveForm.Value.Basic

/-!
# Structured data

What a configuration file or a form document holds: values, lists, and tables whose entries are
in order.
-/

namespace LiveForm

/-- A piece of structured data. -/
inductive Data where
  | scalar (v : Value)
  | time (t : TimeOfDay)
  | list (items : List Data)
  | table (entries : List (String × Data))
  deriving Inhabited

namespace Data

/-- The entries of a table. -/
def entries? : Data → Option (List (String × Data))
  | table es => some es
  | _ => none

/-- An entry of a table. -/
def get? (d : Data) (key : String) : Option Data := d.entries?.bind (·.lookup key)

end Data

end LiveForm
