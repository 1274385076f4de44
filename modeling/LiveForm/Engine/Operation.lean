import LiveForm.Engine.Cycle

/-!
# Using the engine

The operations on an engine and the form it is bound to.  Each one begins as a move; the frames
that it leaves are carried on by `Engine.resume`.
-/

namespace LiveForm

namespace Engine

/-- Something done to an engine or to its form. -/
inductive Operation where
  /-- Listen to the form, read it, and compute everything if wanted. -/
  | attach (compute : Bool)
  /-- Stop listening and drop all pending work. -/
  | detach
  /-- Read the form again and compute the outputs in a scope. -/
  | recompute (scope : Option String)
  /-- Read the form again. -/
  | rescan
  | notifyInput (name : String) (user : Bool)
  | notifyLayout
  /-- Handle the changes now that rest. -/
  | flush
  /-- Move time forward. -/
  | advance (seconds : Binary64)
  /-- Fire all timers. -/
  | runTimers
  /-- Run the next continuation of a manual yield point. -/
  | runNext
  /-- Run all continuations of a manual yield point. -/
  | runAll
  | addField (name : String) (value : Value) (scope : String) (notify : Bool)
  | addOutput (spec : OutputSpec) (value : Value) (notify : Bool)
  | removeField (name : String) (notify : Bool)
  | setValue (name : String) (value : Value) (user : Bool)
  | focus (name : Option String)
  /-- Write to the form by program. -/
  | write (name text : String)
  deriving DecidableEq

/-- Handles a change when things have been quiet for a while, or at once if changes do not rest. -/
def settle (e : Engine) (t : Trigger) (delay : Binary64) : Move :=
  if e.debounces then
    let e := { e with debouncer := e.debouncer.schedule t delay t }
    { e with phase := if e.phase = Phase.idle then Phase.queued else e.phase }.finish
  else e.handle t

/-- Binds a field to its variable, unless one is bound to it already, and reads the rows again.  The
field stays bound also where these cannot be read. -/
def bind (e : Engine) (name : String) : Engine × Except EngineError Unit :=
  let v := variableName name
  if e.bindings.any (·.1 == v) then (e, .ok ())
  else
    let bindings := e.bindings ++ [(v, name)]
    match rowIndices (bindings.map Prod.snd) with
    | .error .tooMany => ({ e with bindings }, .error .tooManyDigits)
    | .ok rows => ({ e with bindings, rows }, .ok ())

/-- Takes note of a changed field.  Edits by hand rest for a shorter time than other changes, and
the engine's own writes are passed over. -/
def notifyInput (e : Engine) (name : String) (user : Bool) : Move :=
  if e.writing then e.finish
  else match e.bind name with
    | (e, .error err) => .fail e err
    | (e, .ok ()) =>
      let v := variableName name
      let e :=
        if user && e.registry.contains v then
          { e with lastEdit := (v, e.now) :: e.lastEdit.filter (·.1 != v) }
        else e
      e.settle (.input v) (if user then e.settings.immediateDelay else e.settings.settleDelay)

/-- Takes note that fields came or went. -/
def notifyLayout (e : Engine) : Move := e.settle .layout e.settings.settleDelay

/-- Takes note of what the form reports, if the engine listens. -/
def deliver (e : Engine) (event : TreeEvent) : Move :=
  if e.attached then
    match event with
    | .input name user => e.notifyInput name user
    | .layout => e.notifyLayout
  else e.finish

/-- Reads the form again and computes the outputs in a scope. -/
def recompute (e : Engine) (scope : Option String) : Move :=
  match e.rescan with
  | (e, .error err) => .fail e err
  | (e, .ok _) =>
    let ids := e.links.order.mapM fun id => do
      let n ← e.node id
      .ok (if inScope n.scope scope then [id] else [])
    match ids with
    | .error err => .fail e err
    | .ok ids => (e.schedule ids.flatten .normal none scope).drain

/-- Stops listening and drops all pending work. -/
def detach (e : Engine) : Engine :=
  { e with
    attached := false
    debouncer := if e.debounces then e.debouncer.cancelAll else e.debouncer
    scheduler := e.scheduler.clear
    phase := .idle }

/-- Changes the form and takes note of what it reports. -/
def changeTree (e : Engine) (change : Except TreeError FormTree) (event : TreeEvent)
    (notify : Bool) : Move :=
  match change with
  | .error err => .fail e (.tree err)
  | .ok tree =>
    let e := { e with tree }
    if notify then e.deliver event else e.finish

/-- Runs continuations by hand, which only a manual yield point allows. -/
def pump (e : Engine) (m : Scheduler.Move EngineError) : Move :=
  match e.scheduler.yieldPoint.mode with
  | .manual => e.ofScheduler m
  | .immediate => .fail e .notManual

/-- Begins an operation. -/
def perform (e : Engine) : Operation → Move
  | .attach compute =>
    let e := { e with attached := true }
    if compute then e.recompute none
    else match e.rescan with
      | (e, .error err) => .fail e err
      | (e, .ok _) => e.finish
  | .detach => e.detach.finish
  | .recompute scope => e.recompute scope
  | .rescan =>
    match e.rescan with
    | (e, .error err) => .fail e err
    | (e, .ok diff) => .ret e (.diff diff)
  | .notifyInput name user => e.notifyInput name user
  | .notifyLayout => e.notifyLayout
  | .flush =>
    if e.debounces then e.ofDebouncer e.debouncer.flush else .ret e (.plain (.count 0))
  | .advance seconds => e.ofDebouncer (e.debouncer.advance seconds)
  | .runTimers => e.ofDebouncer e.debouncer.runAll
  | .runNext => e.pump e.scheduler.runNext
  | .runAll => e.pump e.scheduler.runAll
  | .addField name value scope notify =>
    e.changeTree (e.tree.addField name value scope) .layout notify
  | .addOutput spec value notify => e.changeTree (e.tree.addOutput spec value) .layout notify
  | .removeField name notify => e.changeTree (e.tree.remove name) .layout notify
  | .setValue name value user =>
    e.changeTree (e.tree.setValue name value) (.input name user) true
  | .focus name => { e with tree := e.tree.focus name }.finish
  | .write name text =>
    e.changeTree (.ok (e.tree.write name text)) (.input name false) e.tree.echoes

/-! ## Subscriptions -/

/-- Adds a watcher of a node; gives its handle. -/
def watch (e : Engine) (id : String) : Nat × Engine :=
  (e.nextHandle,
    { e with watchers := e.watchers ++ [(e.nextHandle, id)], nextHandle := e.nextHandle + 1 })

/-- Adds a change listener; gives its handle. -/
def listen (e : Engine) : Nat × Engine :=
  (e.nextHandle,
    { e with listeners := e.listeners ++ [e.nextHandle], nextHandle := e.nextHandle + 1 })

/-- Removes the watcher or listener of a handle. -/
def unsubscribe (e : Engine) (handle : Nat) : Engine :=
  { e with
    watchers := e.watchers.filter (·.1 != handle)
    listeners := e.listeners.filter (· != handle) }

/-! ## Results -/

/-- The value and the display text of an output. -/
structure Result where
  field : String
  value : Value
  display : String

/-- The results of all outputs, in document order, and what there is to report about them.  An
output without a value has an empty text. -/
def results (e : Engine) : Except EngineError (List Result) × List Notice :=
  e.registry.nodes.foldl
    (fun (acc : Except EngineError (List Result) × List Notice) n =>
      match acc.1 with
      | .error _ => acc
      | .ok rs =>
        let (text, notices) := e.displayNode n
        let value := if n.lastValue = .absent then .text "" else n.lastValue
        (text.map fun display => rs ++ [⟨n.field, value, display⟩], acc.2 ++ notices))
    (.ok [], [])

end Engine

end LiveForm
