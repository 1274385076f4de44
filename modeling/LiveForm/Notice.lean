import LiveForm.Schedule.Priority
import LiveForm.Value.Basic

/-!
# Notices

What is reported while a form is computed, apart from its results.
-/

namespace LiveForm

/-- How serious a notice is. -/
inductive Level where
  | info
  | warning
  | error
  deriving DecidableEq, Repr

/-- Something worth reporting. -/
inductive Notice where
  /-- A format name that is none. -/
  | unknownFormat (kind : String)
  /-- A call of a function that does not exist. -/
  | unknownFunction (name : String)
  /-- An expression that gave no value; the reason is there if it can be said in words. -/
  | evaluationFailed (source : String) (reason : Option String)
  /-- Two output fields with one id. -/
  | idClash (id field : String)
  /-- An update that no longer fits the queue. -/
  | updateDropped (node : String) (priority : Priority)
  /-- A node that was evaluated too often. -/
  | unsettled (node : String) (passes : Int)
  /-- A node that goes back and forth. -/
  | oscillating (node : String) (kept : Value)
  /-- A watcher that failed. -/
  | watcherFailed (node : String)
  /-- A change listener that failed. -/
  | listenerFailed
  deriving DecidableEq

namespace Notice

def level : Notice → Level
  | oscillating .. => .info
  | watcherFailed _ | listenerFailed => .error
  | _ => .warning

/-- The wording of a notice. -/
def message : Notice → String
  | unknownFormat kind => "Unknown format kind '" ++ kind ++ "', falling back to plain"
  | unknownFunction name => "Unknown function '" ++ name ++ "'"
  | evaluationFailed source reason =>
    "Failed to evaluate " ++ Text.quoted source ++ (reason.map (": " ++ ·)).getD ""
  | idClash id field =>
    "Output fields flatten to the same id '" ++ id ++ "', keeping '" ++ field ++ "'"
  | updateDropped node priority =>
    "Update queue full, dropped " ++ node ++ " (" ++ priority.name ++ ")"
  | unsettled node passes =>
    "Node " ++ node ++ " did not settle within " ++ Value.integerDigits passes ++
      " passes, stopping propagation"
  | oscillating node kept => "Node " ++ node ++ " oscillates, keeping " ++ kept.literal
  | watcherFailed node => "Watcher of " ++ node ++ " failed"
  | listenerFailed => "Change listener failed"

end Notice

end LiveForm
