import LiveForm.Form.Output
import LiveForm.Scope
import LiveForm.Value.Basic

/-!
# The fields of a form

A form is a tree of named fields with texts, kept in document order.  Edits are reported to whoever
listens, as a `TreeEvent`; what is written by program is recorded and, unless the tree echoes its
own writes, not reported.
-/

namespace LiveForm

/-- A field of a form. -/
structure Field where
  text : String
  scope : String
  /-- The declaration, if the field is an output. -/
  output : Option OutputSpec := none

/-- What a form reports to its listeners. -/
inductive TreeEvent where
  /-- A field has changed, by hand or by a script. -/
  | input (name : String) (user : Bool)
  /-- Fields came or went. -/
  | layout
  deriving DecidableEq

/-- Why the fields cannot be changed. -/
inductive TreeError where
  /-- A field whose text was to be changed is not there. -/
  | unknownField (name : String)
  /-- A field that was to be removed is not there. -/
  | noField (name : String)
  /-- An integer has more digits than a field can show. -/
  | tooManyDigits
  deriving DecidableEq

/-- The wording of an error, for those that have one. -/
def TreeError.message? : TreeError → Option String
  | unknownField name => some ("Unknown field: " ++ name)
  | noField name => some name
  | tooManyDigits => none

/-- The fields of a form. -/
structure FormTree where
  fields : List (String × Field) := []
  focused : Option String := none
  /-- What was written by program, in order. -/
  writes : List (String × String) := []
  /-- Writes are reported like changes by a script. -/
  echoes : Bool := false

namespace FormTree

def find? (t : FormTree) (name : String) : Option Field := t.fields.lookup name

/-- The fields with one put in the place of the one of that name, or at the end. -/
def put (fields : List (String × Field)) (name : String) (f : Field) : List (String × Field) :=
  if fields.any (·.1 == name) then fields.map fun p => if p.1 == name then (name, f) else p
  else fields ++ [(name, f)]

/-- The text of a field that shows a value. -/
def shown (value : Value) : Except TreeError String :=
  value.plainText.mapError fun _ => .tooManyDigits

/-- The form with an input field of a text, in the place of a field of that name if there is one. -/
def withField (t : FormTree) (name text scope : String) : FormTree :=
  { t with fields := put t.fields name ⟨text, scope, none⟩ }

/-- The form with an output field of a text, in the place of a field of that name if there is
one. -/
def withOutput (t : FormTree) (spec : OutputSpec) (text : String) : FormTree :=
  { t with fields := put t.fields spec.id ⟨text, spec.scope, some spec⟩ }

/-- Adds an input field that shows a value, or puts it in the place of a field of that name. -/
def addField (t : FormTree) (name : String) (value : Value) (scope : String) :
    Except TreeError FormTree := do
  .ok (t.withField name (← shown value) scope)

/-- Adds an output field that shows a value, or puts it in the place of a field of that name. -/
def addOutput (t : FormTree) (spec : OutputSpec) (value : Value) : Except TreeError FormTree := do
  .ok (t.withOutput spec (← shown value))

/-- Removes a field, and the focus from it. -/
def remove (t : FormTree) (name : String) : Except TreeError FormTree :=
  if (t.find? name).isNone then .error (.noField name)
  else .ok { t with
    fields := t.fields.filter fun p => p.1 != name
    focused := if t.focused == some name then none else t.focused }

/-- The fields with another text in one of them. -/
def setText (fields : List (String × Field)) (name text : String) : List (String × Field) :=
  fields.map fun p => if p.1 == name then (p.1, { p.2 with text }) else p

/-- Changes the text of a field. -/
def setValue (t : FormTree) (name : String) (value : Value) : Except TreeError FormTree :=
  if (t.find? name).isNone then .error (.unknownField name)
  else do .ok { t with fields := setText t.fields name (← shown value) }

def focus (t : FormTree) (name : Option String) : FormTree := { t with focused := name }

def isFocused (t : FormTree) (name : String) : Bool := t.focused == some name

/-- The text of a field, if it is there. -/
def read (t : FormTree) (name : String) : Option String := (t.find? name).map (·.text)

/-- Writes a text to a field by program; without such a field nothing happens. -/
def write (t : FormTree) (name text : String) : FormTree :=
  if (t.find? name).isNone then t
  else { t with fields := setText t.fields name text, writes := t.writes ++ [(name, text)] }

/-- The output fields in a scope, in document order. -/
def outputSpecs (t : FormTree) (scope : Option String) : List OutputSpec :=
  t.fields.filterMap fun p => if inScope p.2.scope scope then p.2.output else none

/-- The names of the fields in a scope, outputs included, in document order. -/
def inputNames (t : FormTree) (scope : Option String) : List String :=
  (t.fields.filter fun p => inScope p.2.scope scope).map (·.1)

/-- The fields with their texts, in document order. -/
def values (t : FormTree) : List (String × String) := t.fields.map fun p => (p.1, p.2.text)

end FormTree

end LiveForm
