import LiveForm.Form.Tree

/-!
# Sessions on the fields of a form

Listeners are named by tags and note what the form reports to them.
-/

namespace LiveForm.Session.Listening

/-- Something done to the fields of a form. -/
inductive Step where
  | addField (name : String) (value : Value) (scope : String) (notify : Bool)
  | addOutput (spec : OutputSpec) (value : Value) (notify : Bool)
  | remove (name : String) (notify : Bool)
  | set (name : String) (value : Value) (user : Bool)
  | focus (name : Option String)
  | write (name text : String)
  | read (name : String)
  | isFocused (name : String)
  | outputSpecs (scope : Option String)
  | inputNames (scope : Option String)
  | subscribe (tag : String)
  | unsubscribe (tag : String)

/-- What a step answers. -/
inductive Response where
  | done
  | flag (b : Bool)
  | text (s : Option String)
  | names (ns : List String)
  | specs (ss : List OutputSpec)

/-- Why a step fails. -/
inductive Failure where
  | tree (e : TreeError)
  | unknownSubscription (tag : String)

/-- The fields, the subscriptions with their tags, and the handle of each tag. -/
structure State where
  tree : FormTree
  listeners : List (Nat × String) := []
  handles : List (String × Nat) := []
  nextHandle : Nat := 0
  /-- What was noted during the last step, with the tag of the listener. -/
  events : List (String × TreeEvent) := []

/-- Reports an event to all listeners. -/
def State.report (s : State) (event : TreeEvent) : State :=
  { s with events := s.events ++ s.listeners.map fun l => (l.2, event) }

/-- Changes the fields and reports the event. -/
def State.change (s : State) (tree : FormTree) (event : TreeEvent) (notify : Bool) :
    State × Except Failure Response :=
  let s := { s with tree }
  (if notify then s.report event else s, .ok .done)

/-- Changes the fields if that is possible. -/
def State.changeWith (s : State) (tree : Except TreeError FormTree) (event : TreeEvent)
    (notify : Bool) : State × Except Failure Response :=
  match tree with
  | .ok tree => s.change tree event notify
  | .error e => (s, .error (.tree e))

/-- Does a step; gives the state with what was noted during it, and what the step answers. -/
def doStep (s : State) (step : Step) : State × Except Failure Response :=
  let s := { s with events := [] }
  match step with
  | .addField name value scope notify =>
    s.changeWith (s.tree.addField name value scope) .layout notify
  | .addOutput spec value notify => s.changeWith (s.tree.addOutput spec value) .layout notify
  | .remove name notify => s.changeWith (s.tree.remove name) .layout notify
  | .set name value user => s.changeWith (s.tree.setValue name value) (.input name user) true
  | .focus name => ({ s with tree := s.tree.focus name }, .ok .done)
  | .write name text => s.change (s.tree.write name text) (.input name false) s.tree.echoes
  | .read name => (s, .ok (.text (s.tree.read name)))
  | .isFocused name => (s, .ok (.flag (s.tree.isFocused name)))
  | .outputSpecs scope => (s, .ok (.specs (s.tree.outputSpecs scope)))
  | .inputNames scope => (s, .ok (.names (s.tree.inputNames scope)))
  | .subscribe tag =>
    ({ s with
      listeners := s.listeners ++ [(s.nextHandle, tag)]
      handles := (tag, s.nextHandle) :: s.handles
      nextHandle := s.nextHandle + 1 }, .ok .done)
  | .unsubscribe tag =>
    match s.handles.lookup tag with
    | some h => ({ s with listeners := s.listeners.filter (·.1 != h) }, .ok .done)
    | none => (s, .error (.unknownSubscription tag))

end LiveForm.Session.Listening
