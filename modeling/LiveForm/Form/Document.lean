import LiveForm.Form.Checked
import LiveForm.Form.Tree
import LiveForm.Settings
import LiveForm.Toml.Reader

/-!
# Form documents

A form document declares the inputs of a form with their values, its outputs, the field that has
the focus, and settings that go over those of the project.
-/

namespace LiveForm

/-- An output of a document: its declaration and the value that its field starts with. -/
structure OutputDeclaration where
  spec : OutputSpec
  value : Value

/-- A form as it is written down. -/
structure FormDocument where
  inputs : List (String × Value)
  outputs : List OutputDeclaration
  focus : Option String
  settings : List (String × Data)

namespace FormDocument

/-! ## Pieces of a document -/

def text : Data → Checked String
  | .scalar (.text s) => .good s
  | _ => .fault (.wrongKind .text)

/-- A text, or nothing. -/
def text? : Data → Checked (Option String)
  | .scalar .absent => .good none
  | d => (text d).map some

/-- The words for yes and no, in any mixture of cases. -/
def flagOfWord? (s : String) : Option Bool :=
  let word := String.ofList (s.toList.map Char.toLower)
  if ["1", "t", "true", "y", "yes", "on"].contains word then some true
  else if ["0", "f", "false", "n", "no", "off"].contains word then some false
  else none

/-- One and zero as flags. -/
def flagOfInt? (i : Int) : Option Bool :=
  if i = 1 then some true else if i = 0 then some false else none

/-- A flag, or a word or number that stands for one. -/
def flag : Data → Checked Bool
  | .scalar (.flag b) => .good b
  | .scalar (.text s) => clear (flagOfWord? s)
  | .scalar (.integer i) =>
    if (Binary64.ofInt i).isFinite then clear (flagOfInt? i) else .fault (.wrongKind .flag)
  | .scalar (.number x) =>
    if x.isInteger then clear (x.truncate?.bind flagOfInt?) else .fault (.wrongKind .flag)
  | _ => .fault (.wrongKind .flag)
where
  clear : Option Bool → Checked Bool
    | some b => .good b
    | none => .fault .unclearFlag

/-- A plain value: a text, a number or a flag. -/
def plainValue : Data → Checked Value
  | .scalar (.text s) => .good (.text s)
  | .scalar (.integer i) => .good (.integer i)
  | .scalar (.number x) => .good (.number x)
  | .scalar (.flag b) => .good (.flag b)
  | _ => .bad ([.text, .integer, .number, .flag].map fun k => ⟨[.choice k], .wrongKind k⟩)

/-- A list of pieces of one kind. -/
def list {α : Type} (piece : Data → Checked α) : Data → Checked (List α)
  | .list ds => .all (ds.zipIdx.map fun p => (piece p.1).at (.item p.2))
  | _ => .fault .notAList

/-- A table with entries of any names. -/
def table {α : Type} (piece : Data → Checked α) : Data → Checked (List (String × α))
  | .table es => .all (es.map fun e => ((piece e.2).map fun a => (e.1, a)).at (.key e.1))
  | _ => .fault .notATable

/-- An entry that must be there. -/
def required {α : Type} (key : String) (piece : Data → Checked α) (es : List (String × Data)) :
    Checked α :=
  (match es.lookup key with
    | some d => piece d
    | none => .fault .missing).at (.key key)

/-- An entry that may be missing. -/
def entry {α : Type} (key : String) (piece : Data → Checked α) (default : α)
    (es : List (String × Data)) : Checked α :=
  match es.lookup key with
  | some d => (piece d).at (.key key)
  | none => .good default

/-- A table that has entries of these names only; complaints about others come last. -/
def record {α : Type} (keys : List String) (read : List (String × Data) → Checked α) :
    Data → Checked α
  | .table es =>
    let strangers := es.filter fun e => !keys.contains e.1
    ((read es).map fun a _ => a).apply
      (.all (strangers.map fun e => (.fault .unknownKey : Checked Unit).at (.key e.1)))
  | _ => .fault .notARecord

/-! ## Documents -/

/-- The names of the entries of an output. -/
def outputKeys : List String :=
  ["id", "expression", "format", "auto_apply", "skip_while_editing", "trigger_variables", "scope",
    "value"]

def output : Data → Checked OutputDeclaration :=
  record outputKeys fun es =>
    (fun id expression format autoApply skipWhileEditing triggerVariables scope value =>
      ⟨{ id, expression, format, autoApply, skipWhileEditing, triggerVariables, scope }, value⟩)
    <$> required "id" text es
    <*> required "expression" text es
    <*> entry "format" text? none es
    <*> entry "auto_apply" flag true es
    <*> entry "skip_while_editing" flag false es
    <*> entry "trigger_variables" (list text) [] es
    <*> entry "scope" text "" es
    <*> entry "value" plainValue (.text "") es

/-- The names of the entries of a document. -/
def keys : List String := ["inputs", "outputs", "focus", "settings"]

/-- The document that a piece of data is. -/
def ofData : Data → Checked FormDocument :=
  record keys fun es =>
    FormDocument.mk
    <$> entry "inputs" (table plainValue) [] es
    <*> entry "outputs" (list output) [] es
    <*> entry "focus" text? none es
    <*> entry "settings" (table .good) [] es

/-- Why a document cannot be loaded. -/
inductive LoadError where
  | unreadable (e : Toml.ReadError)
  | invalid (cs : List Complaint)

/-- Checks a piece of data. -/
def check (d : Data) : Except LoadError FormDocument :=
  match ofData d with
  | .good doc => .ok doc
  | .bad cs => .error (.invalid cs)

/-- The document that a text holds. -/
def load (source : String) : Except LoadError FormDocument :=
  match Toml.read source with
  | .ok es => check (.table es)
  | .error e => .error (.unreadable e)

/-! ## Use -/

/-- The fields of the form: the inputs, then the outputs. -/
def tree (doc : FormDocument) : Except TreeError FormTree := do
  let t ← doc.inputs.foldlM (fun t p => t.addField p.1 p.2 "") ({} : FormTree)
  let t ← doc.outputs.foldlM (fun t o => t.addOutput o.spec o.value) t
  .ok (t.focus doc.focus)

/-- The settings of the form over those of its surroundings. -/
def engineSettings (doc : FormDocument) (base : Settings) : Except SettingsError Settings :=
  base.override doc.settings

end FormDocument

end LiveForm
