import LiveForm.Expr.Variables
import LiveForm.Form.Output
import LiveForm.Name
import LiveForm.Notice

/-!
# Output nodes

The engine keeps a node for each output field, under the variable name of the field.  When the
declarations are read again, a node keeps what it has computed unless its expression or its
dependencies are other ones.
-/

namespace LiveForm

/-- The state of an output. -/
structure OutputNode where
  /-- The variable name of the field. -/
  id : String
  field : String
  expression : String
  /-- The variables of the expression and the declared triggers. -/
  dependencies : List String
  format : Option String
  autoApply : Bool
  skipWhileEditing : Bool
  /-- The declared triggers, as variable names. -/
  triggerVariables : List String
  scope : String
  /-- The last value computed. -/
  lastValue : Value := .absent
  /-- The last text written to the field. -/
  lastWritten : Option String := none
  evaluated : Bool := false
  /-- The nodes linked with this one. -/
  linked : List String := []
  /-- Tells the node from other ones that its registry made, also under the same id. -/
  serial : Nat := 0
  deriving DecidableEq

namespace OutputNode

/-- The node of a declaration, before any evaluation. -/
def ofSpec (spec : OutputSpec) : OutputNode :=
  let triggers := spec.triggerVariables.map variableName
  { id := variableName spec.id
    field := spec.id
    expression := spec.expression
    dependencies := (Expr.variablesOf spec.expression ++ triggers).eraseDups
    format := spec.format
    autoApply := spec.autoApply
    skipWhileEditing := spec.skipWhileEditing
    triggerVariables := triggers
    scope := spec.scope }

/-- The two depend on the same variables. -/
def sameDependencies (a b : OutputNode) : Bool :=
  a.dependencies.all b.dependencies.contains && b.dependencies.all a.dependencies.contains

/-- The two are computed in the same way. -/
def sameComputation (a b : OutputNode) : Bool :=
  a.expression == b.expression && a.sameDependencies b

/-- The two have the same attributes apart from how they are computed. -/
def sameAttributes (a b : OutputNode) : Bool :=
  a.field == b.field && a.format == b.format && a.autoApply == b.autoApply &&
    a.skipWhileEditing == b.skipWhileEditing && a.triggerVariables == b.triggerVariables &&
    a.scope == b.scope

/-- The node under a declaration that was read again, and whether anything is new.  What it has
computed goes if it is computed in another way now. -/
def redeclare (n : OutputNode) (spec : OutputSpec) : OutputNode × Bool :=
  let fresh := ofSpec spec
  let kept := { n with
    field := fresh.field
    format := fresh.format
    autoApply := fresh.autoApply
    skipWhileEditing := fresh.skipWhileEditing
    triggerVariables := fresh.triggerVariables
    scope := fresh.scope }
  if n.sameComputation fresh then (kept, !n.sameAttributes fresh)
  else
    ({ kept with
      expression := fresh.expression
      dependencies := fresh.dependencies
      lastValue := .absent
      lastWritten := none
      evaluated := false }, true)

end OutputNode

/-- What reading the declarations again has changed, as ids. -/
structure RegistryDiff where
  added : List String := []
  removed : List String := []
  changed : List String := []
  deriving DecidableEq, Inhabited

/-- Something has changed. -/
def RegistryDiff.any (d : RegistryDiff) : Bool :=
  !(d.added.isEmpty && d.removed.isEmpty && d.changed.isEmpty)

/-- The nodes of the outputs, in document order. -/
structure Registry where
  nodes : List OutputNode := []
  /-- The serial of the next new node. -/
  nextSerial : Nat := 0

namespace Registry

def find? (r : Registry) (id : String) : Option OutputNode := r.nodes.find? (·.id == id)

def contains (r : Registry) (id : String) : Bool := (r.find? id).isSome

def ids (r : Registry) : List String := r.nodes.map (·.id)

/-- The nodes with one put in the place of the one of its id, or at the end. -/
def put (nodes : List OutputNode) (n : OutputNode) : List OutputNode :=
  if nodes.any (·.id == n.id) then nodes.map fun m => if m.id == n.id then n else m
  else nodes ++ [n]

/-- Changes the node of an id. -/
def modify (r : Registry) (id : String) (f : OutputNode → OutputNode) : Registry :=
  { r with nodes := r.nodes.map fun n => if n.id == id then f n else n }

/-- A registry that is being brought in line with declarations: the nodes as they were, changed in
place; the nodes as they will be; and what has changed so far. -/
structure Sync where
  old : List OutputNode
  new : List OutputNode := []
  nextSerial : Nat
  diff : RegistryDiff := {}
  notices : List Notice := []

/-- Takes one declaration in. -/
def Sync.add (s : Sync) (spec : OutputSpec) : Sync :=
  let id := variableName spec.id
  let s := if s.new.any (·.id == id) then { s with notices := s.notices ++ [.idClash id spec.id] }
    else s
  match s.old.find? (·.id == id) with
  | none =>
    let added := if s.diff.added.contains id then s.diff.added else s.diff.added ++ [id]
    { s with
      new := put s.new { OutputNode.ofSpec spec with serial := s.nextSerial }
      nextSerial := s.nextSerial + 1
      diff := { s.diff with added } }
  | some n =>
    let (n, isNew) := n.redeclare spec
    let changed := if isNew then s.diff.changed ++ [id] else s.diff.changed
    { s with old := put s.old n, new := put s.new n, diff := { s.diff with changed } }

/-- Brings the registry in line with the declarations: nodes that are declared no longer go, and
of two declarations with the same id the later one counts. -/
def sync (r : Registry) (specs : List OutputSpec) : Registry × RegistryDiff × List Notice :=
  let s := specs.foldl Sync.add { old := r.nodes, nextSerial := r.nextSerial }
  let removed := r.ids.filter fun id => !s.new.any (·.id == id)
  (⟨s.new, s.nextSerial⟩, { s.diff with removed }, s.notices)

end Registry

end LiveForm
