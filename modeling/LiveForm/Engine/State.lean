import LiveForm.Clock.Debouncer
import LiveForm.Convergence
import LiveForm.Expr.Evaluator
import LiveForm.Form.Registry
import LiveForm.Form.Tree
import LiveForm.Graph.Link
import LiveForm.Schedule.Scheduler
import LiveForm.Settings
import LiveForm.Value.Display

/-!
# The state of the engine

The engine keeps the outputs of a form up to date.  It holds the form, a node for each output, how
the nodes hang together, the updates that wait, and the changes that rest until things are quiet.
-/

namespace LiveForm

/-- What the engine is doing. -/
inductive Phase where
  /-- Nothing is pending. -/
  | idle
  /-- Changes rest until things are quiet. -/
  | queued
  /-- The queue is being drained. -/
  | evaluating
  deriving DecidableEq, Repr

def Phase.word : Phase → String
  | idle => "idle"
  | queued => "queued"
  | evaluating => "evaluating"

/-- A change that the engine handles when things have been quiet. -/
inductive Trigger where
  /-- The field of this variable has changed. -/
  | input (name : String)
  /-- Fields came or went. -/
  | layout
  deriving DecidableEq

/-- A failure in a callback, that is in the surroundings of the engine. -/
inductive CallbackError where
  /-- The callback of this name fails. -/
  | failed (name : String)
  /-- There is no subscription of this name. -/
  | unknownSubscription (name : String)
  deriving DecidableEq

/-- A failure of the engine. -/
inductive EngineError where
  | unknownNode (id : String)
  | tree (e : TreeError)
  /-- An evaluation that failed so that it could not be passed over. -/
  | evaluation (e : Expr.EvalError)
  | format (e : FormatError)
  /-- A subscript in the name of a field has more digits than can be read. -/
  | tooManyDigits
  /-- More values were to be remembered than can be. -/
  | historyTooLong
  | callback (e : CallbackError)
  /-- Continuations were to be run by hand, but the yield point runs them itself. -/
  | notManual
  deriving DecidableEq

/-- The engine and the form that it is bound to. -/
structure Engine where
  tree : FormTree
  settings : Settings
  /-- Changes rest before they are handled. -/
  debounces : Bool
  registry : Registry := {}
  links : LinkGraph := {}
  detector : ConvergenceDetector
  evaluator : Evaluator
  scheduler : Scheduler
  /-- Its timers also tell the time. -/
  debouncer : Debouncer Trigger Trigger := {}
  /-- The fields of the variables. -/
  bindings : List (String × String) := []
  /-- The row indices that occur in the names of fields. -/
  rows : List Int := []
  /-- When an output was last edited by hand. -/
  lastEdit : List (String × Binary64) := []
  phase : Phase := .idle
  /-- How often each node was evaluated in the running cycle. -/
  passes : List (String × Nat) := []
  /-- The nodes that changed in the running cycle. -/
  changed : List String := []
  /-- The part of the form to which the running cycle is restricted. -/
  scope : Option String := none
  /-- The running cycle was broken off. -/
  halted : Bool := false
  /-- The engine itself is writing to the form. -/
  writing : Bool := false
  /-- The changed nodes whose watchers are being called, the latest one first. -/
  announcing : List OutputNode := []
  /-- The engine listens to the form. -/
  attached : Bool := false
  /-- The change listeners, by handle. -/
  listeners : List Nat := []
  /-- The watchers of nodes, by handle. -/
  watchers : List (Nat × String) := []
  nextHandle : Nat := 0
  /-- What was reported and not yet taken. -/
  notices : List Notice := []

namespace Engine

/-- An engine bound to a form, before it has looked at it. -/
def create (tree : FormTree) (settings : Settings) (mode : YieldMode) (debounces : Bool) : Engine :=
  { tree
    settings
    debounces
    detector :=
      { tolerances := ⟨settings.tolerance, settings.relativeTolerance⟩
        historySize := settings.historySize.toNat }
    evaluator := { locale := settings.locale, precision := settings.precision }
    scheduler := .create settings.batchSize.toNat settings.maxQueue mode }

variable (e : Engine)

/-- The time, which is that of the timers.  It moves between two operations and when a timer fires;
while a queue is drained it stands still, so that a clock that goes on meanwhile is not followed
between one update and the next. -/
def now : Binary64 := e.debouncer.timers.now

def locale : NumberLocale := e.settings.locale

/-- With further notices. -/
def report (ns : List Notice) : Engine := { e with notices := e.notices ++ ns }

/-- Debounced work is pending. -/
def rests : Bool := e.debounces && !e.debouncer.pending.isEmpty

/-! ## Looking at nodes -/

/-- The node of an id. -/
def node (id : String) : Except EngineError OutputNode :=
  match e.registry.find? id with
  | some n => .ok n
  | none => .error (.unknownNode id)

/-- The last value of a node. -/
def value (id : String) : Except EngineError Value := (·.lastValue) <$> e.node id

/-- The text of a node's last value: the one written last, or else its value in its format. -/
def displayNode (n : OutputNode) : Except EngineError String × List Notice :=
  match n.lastWritten with
  | some text => (.ok text, [])
  | none =>
    let (text, notices) := n.lastValue.display e.locale n.format
    (text.mapError .format, notices)

/-- The text of the last value of the node of an id, and what there is to report about it. -/
def display (id : String) : Except EngineError String × List Notice :=
  match e.node id with
  | .ok n => e.displayNode n
  | .error err => (.error err, [])

/-! ## What expressions read -/

/-- What a variable holds: the text of its field, or the last value of an output whose field still
shows what was written there, since the written text need not read back to the value. -/
def resolve (name : String) : Value :=
  match e.bindings.lookup name with
  | none => .absent
  | some field =>
    match e.tree.read field with
    | none => .absent
    | some text =>
      match e.registry.find? name with
      | some n => if n.lastWritten == some text then n.lastValue else .text text
      | none => .text text

/-- A node is being edited by hand and asked to be left alone meanwhile: its field has the focus,
or was edited a short time ago. -/
def shouldSkip (n : OutputNode) : Bool :=
  n.skipWhileEditing &&
    (e.tree.isFocused n.field ||
      (e.lastEdit.lookup n.id).any fun t => e.now - t < e.settings.editCooldown)

end Engine

end LiveForm
