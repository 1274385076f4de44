import LiveForm.Cli.Command
import LiveForm.Cli.Display
import LiveForm.Cli.Files
import LiveForm.Engine.Run
import LiveForm.Form.Document
import LiveForm.Results

/-!
# Running a command

A run takes the texts of the files that it needs and gives what is to be shown and written, and
the exit code.  A run that fails in a way that is not foreseen is a crash, and says with which
failure.
-/

namespace LiveForm.Cli

/-- A failure that is not foreseen. -/
inductive Crash where
  | file (f : FileFault)
  /-- The document cannot be read, for another reason than that it is not in its format. -/
  | document (e : Toml.ReadError)
  /-- The settings cannot be read, for another reason than that they are wrong. -/
  | settings (e : SettingsError)
  /-- The fields of the document cannot be shown. -/
  | tree (e : TreeError)
  | engine (e : EngineError)
  /-- A message closes a style that is not open. -/
  | markup
  deriving DecidableEq

/-- What a run gives. -/
structure Outcome where
  exitCode : Nat := 0
  /-- The lines to be shown. -/
  output : List String := []
  /-- What to say about a failure. -/
  message : Option String := none
  /-- A file to be written: its path and its text. -/
  export? : Option (String × String) := none
  crash : Option Crash := none

/-- How a run ends early. -/
inductive Stop where
  /-- With this exit code, and this to say about it. -/
  | exit (code : Nat) (message : String)
  | crash (c : Crash)
  deriving DecidableEq

def Stop.outcome : Stop → Outcome
  | .exit exitCode message => { exitCode, message }
  | .crash c => { exitCode := 1, crash := some c }

/-- Announces something on the console for messages, which takes styles from tags in the text. -/
def say (message : String) : Except Stop Unit :=
  if Console.balanced message then .ok () else .error (.crash .markup)

/-- The document of a form. -/
def loadDocument (path : String) (form : Except FileFault String) : Except Stop FormDocument := do
  say path
  match form with
  | .error .notFound => .error (.exit 1 ("Form not found: " ++ path))
  | .error f => .error (.crash (.file f))
  | .ok source =>
    match FormDocument.load source with
    | .ok doc => .ok doc
    | .error (.unreadable .malformed) => .error (.exit 1 ("Invalid TOML in " ++ path))
    | .error (.unreadable e) => .error (.crash (.document e))
    | .error (.invalid _) => .error (.exit 1 ("Invalid form document " ++ path))

/-- The settings of a document over those of its project. -/
def loadSettings (doc : FormDocument) (project : Option String) : Except Stop Settings := do
  match (Project.settings project).bind doc.engineSettings with
  | .ok s => .ok s
  | .error e =>
    if e.isConfigError then do
      let message := e.message?.getD "the configuration file is not valid TOML"
      say message
      .error (.exit 1 ("Configuration error: " ++ message))
    else .error (.crash (.settings e))

/-- The engine for a form, which computes at once. -/
def buildEngine (doc : FormDocument) (project : Option String) : Except Stop Engine := do
  let settings ← loadSettings doc project
  let tree ← doc.tree.mapError (.crash ∘ .tree)
  return .create tree settings .immediate false

/-- Performs an operation of the engine. -/
def perform (e : Engine) (op : Engine.Operation) : Except EngineError Engine :=
  match e.run op with
  | (e, .returned _) => .ok e
  | (_, .raised err) => .error err

/-- The name and the value of an assignment; the name must not be blank. -/
def readAssignment? (assignment : String) : Option (String × String) :=
  let cs := assignment.toList
  let name := Text.trimChars (cs.takeWhile (· != '='))
  match cs.dropWhile (· != '=') with
  | _ :: value => if name.isEmpty then none else some (.ofList name, .ofList value)
  | [] => none

/-- Edits a field. -/
def assign (e : Engine) (assignment : String) : Except Stop Engine := do
  match readAssignment? assignment with
  | none => .error (.exit 2 ("Expected name=value, got '" ++ assignment ++ "'"))
  | some (name, value) =>
    say (name ++ " = " ++ Text.quoted value)
    match perform e (.setValue name (.text value) true) with
    | .ok e => .ok e
    | .error (.tree (.unknownField _)) | .error (.unknownNode _) => do
      say name
      .error (.exit 1 ("Unknown field: " ++ name))
    | .error err => .error (.crash (.engine err))

/-- Computes a form; gives the engine and the results. -/
def computed (path : String) (assignments : List String) (form : Except FileFault String)
    (project : Option String) : Except Stop (Engine × List Engine.Result) := do
  let doc ← loadDocument path form
  let e ← buildEngine doc project
  let e ← (perform e (.attach true)).mapError (.crash ∘ .engine)
  let e ← assignments.foldlM assign e
  let rs ← e.results.1.mapError (.crash ∘ .engine)
  return (e, rs)

/-- Computes a form and shows its results; they are written to a file if that is wanted. -/
def compute (path : String) (output : Option String) (assignments : List String)
    (form : Except FileFault String) (project : Option String) : Outcome :=
  match computed path assignments form project with
  | .error stop => stop.outcome
  | .ok (e, rs) =>
    let shown : Outcome := { output := resultLines e rs }
    match output with
    | none => shown
    | some target =>
      match say target with
      | .ok () => { shown with export? := some (target, Engine.Result.exportText rs) }
      | .error stop => { stop.outcome with output := shown.output }

/-- Shows how the outputs of a form hang together. -/
def dependencies (path : String) (form : Except FileFault String) (project : Option String) :
    Outcome :=
  let run : Except Stop Outcome := do
    let doc ← loadDocument path form
    let e ← buildEngine doc project
    let e ← (perform e .rescan).mapError (.crash ∘ .engine)
    return { output := dependencyLines e }
  match run with
  | .ok o => o
  | .error stop => stop.outcome

/-- Runs a command on the text of its form and that of the nearest configuration file. -/
def run (c : Command) (form : Except FileFault String) (project : Option String) : Outcome :=
  match c with
  | .compute path output assignments => compute path output assignments form project
  | .dependencies path => dependencies path form project

/-- What a command line asks for, with the files of a directory; gives the files after it. -/
def runIn (fs : Files) (args : List String) : Files × Outcome :=
  match parse args with
  | .misuse => (fs, { exitCode := 2 })
  | .help => (fs, { output := usage })
  | .command c =>
    let o := run c (fs.read c.form) (fs.configText? [])
    match o.export? with
    | none => (fs, o)
    | some (target, text) =>
      match fs.write target text with
      | .ok fs => (fs, o)
      | .error f => (fs, { o with exitCode := 1, crash := some (.file f) })

end LiveForm.Cli
