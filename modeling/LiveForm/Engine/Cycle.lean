import LiveForm.Engine.State

/-!
# The steps of a cycle

Handling a change is a *cycle*: the nodes that it reaches are scheduled, and the queue is drained.
Each update evaluates a node; a value that is new is stored, written to the field, announced to the
watchers, and passed on to the linked nodes.  When the queue is empty the listeners hear which
nodes have changed.
-/

namespace LiveForm

namespace Engine

/-- What the engine asks of its surroundings. -/
inductive Ask where
  /-- Tell a watcher that a node has a new value. -/
  | watcher (handle : Nat) (node : String) (old new : Value)
  /-- Tell a listener which nodes have changed. -/
  | listener (handle : Nat) (changed : List String)
  deriving DecidableEq

/-- What is left to do in a cycle while something else goes on. -/
inductive Frame where
  | queue (f : Scheduler.Frame)
  | clock (f : Debouncer.Frame Trigger Trigger)
  /-- Handle a change. -/
  | handle (t : Trigger)
  /-- Process an update. -/
  | process (entry : QueueEntry)
  /-- A batch is done. -/
  | batchDone
  /-- Tell the rest of the watchers about a new value. -/
  | watchers (node : String) (old new : Value) (rest : List Nat)
  /-- Pass the change of the node on that was announced last. -/
  | propagate (entry : QueueEntry)
  /-- The queue is empty. -/
  | complete
  /-- Tell the rest of the listeners which nodes have changed. -/
  | listeners (changed : List String) (rest : List Nat)

/-- What an operation of the engine answers. -/
inductive Response where
  | plain (a : Answer)
  | diff (d : RegistryDiff)
  deriving DecidableEq

instance : Inhabited Response := ⟨.plain .done⟩

/-- A move of the engine. -/
abbrev Move := LiveForm.Move Engine (Activity Frame Ask) Response EngineError

/-- Is done, without an answer. -/
def finish (e : Engine) : Move := .ret e (.plain .done)

/-- A move of the scheduler as one of the engine. -/
def ofScheduler (e : Engine) (m : Scheduler.Move EngineError) : Move :=
  m.embed (fun scheduler => { e with scheduler })
    (Activity.elim (fun f => .own (.queue f)) fun
      | .process entry => .own (.process entry)
      | .batchDone _ => .own .batchDone
      | .idle => .own .complete)
    .plain

/-- A move of the debouncer as one of the engine. -/
def ofDebouncer (e : Engine) (m : Debouncer.Move Trigger Trigger EngineError) : Move :=
  m.embed (fun debouncer => { e with debouncer })
    (Activity.elim (fun f => .own (.clock f)) fun t => .own (.handle t))
    .plain

/-! ## Scheduling -/

/-- Reports an update that was dropped. -/
def dropNotice (v : QueueEntry) : Notice := .updateDropped v.node v.priority

/-- Lets a node wait. -/
def enqueue (e : Engine) (id : String) (priority : Priority) (source : Option String) : Engine :=
  let (scheduler, _, dropped) := e.scheduler.enqueue e.now id priority source
  { e with scheduler }.report (dropped.map dropNotice)

/-- Lets nodes wait because of a fresh trigger, which gives them their passes back.  A trigger from
outside the scope of a running cycle widens it to the whole form. -/
def schedule (e : Engine) (ids : List String) (priority : Priority) (source : Option String)
    (scope : Option String) : Engine :=
  let scope :=
    if e.phase = .evaluating then (if e.scope = scope then scope else none) else scope
  ids.foldl
    (fun e id => { e with passes := e.passes.filter (·.1 != id) }.enqueue id priority source)
    { e with scope }

/-- Drains the queue, unless that is going on. -/
def drain (e : Engine) : Move :=
  let e := if e.scheduler.draining then e else { e with phase := .evaluating }
  e.ofScheduler (e.scheduler.drain true)

/-! ## Reading the form -/

/-- The fields of the variables: those of the names, and of two with the same variable the later
one. -/
def bindNames (names : List String) : List (String × String) :=
  names.foldl (fun vs name =>
    let v := variableName name
    if vs.any (·.1 == v) then vs.map fun p => if p.1 == v then (v, name) else p
    else vs ++ [(v, name)]) []

/-- The bindings with those of nodes that have none. -/
def bindNodes (vs : List (String × String)) (nodes : List OutputNode) : List (String × String) :=
  nodes.foldl (fun vs n => if vs.any (·.1 == n.id) then vs else vs ++ [(n.id, n.field)]) vs

/-- The nodes of a registry with what each one is linked with. -/
def linkNodes (links : LinkGraph) (r : Registry) : Registry :=
  { r with nodes := r.nodes.map fun n => { n with linked := links.peers n.id } }

/-- A node as it is in the registry now; one that the registry has let go of stays as it was. -/
def refresh (r : Registry) (n : OutputNode) : OutputNode :=
  (r.nodes.find? fun m => m.serial == n.serial).getD n

/-- Takes over a registry; the nodes that are being announced are those that are in it now. -/
def withRegistry (e : Engine) (registry : Registry) : Engine :=
  { e with registry, announcing := e.announcing.map (refresh registry) }

/-- Reads the declarations and names of the form again and finds out how the nodes hang
together; says what has changed.  If a subscript cannot be read it breaks off: the nodes and the
bindings are the new ones then, the rows and the links still the old ones. -/
def rescan (e : Engine) : Engine × Except EngineError RegistryDiff :=
  let (registry, diff, notices) := e.registry.sync (e.tree.outputSpecs none)
  let bindings := bindNodes (bindNames (e.tree.inputNames none)) registry.nodes
  let stays (id : String) : Bool := !diff.removed.contains id
  let e := { e with
    bindings
    detector := diff.removed.foldl ConvergenceDetector.forget e.detector
    lastEdit := e.lastEdit.filter fun p => stays p.1
    passes := e.passes.filter fun p => stays p.1 }.report notices
  match rowIndices (bindings.map Prod.snd) with
  | .error .tooMany => (e.withRegistry registry, .error .tooManyDigits)
  | .ok rows =>
    let links := LinkGraph.build (registry.nodes.map fun n => (n.id, n.dependencies))
    ({ e with rows, links }.withRegistry (linkNodes links registry), .ok diff)

/-! ## Handling changes -/

/-- Handles the change of a field: its dependents are computed anew.  If the field is an output,
they are marked as caused by it, so that they do not compute over the edit. -/
def handleInput (e : Engine) (name : String) : Move :=
  let source := if e.registry.contains name then some name else none
  (e.schedule (e.links.dependentsOf name) .normal source none).drain

/-- Handles that fields came or went: everything is computed anew. -/
def handleLayout (e : Engine) : Move :=
  match e.rescan with
  | (e, .error err) => .fail e err
  | (e, .ok _) => (e.schedule e.links.order .low none none).drain

/-- Handles a change. -/
def handle (e : Engine) : Trigger → Move
  | .input name => e.handleInput name
  | .layout => e.handleLayout

/-! ## Processing an update -/

/-- Writes a text to a field; what the form reports about that is passed over. -/
def writeField (e : Engine) (field text : String) : Engine :=
  let e := { e with writing := true }
  let e := { e with tree := e.tree.write field text }
  { e with writing := false }

/-- Writes the value of a node to its field, unless that is not wanted or the text is the one
written last. -/
def applyNode (e : Engine) (n : OutputNode) : Except EngineError Engine :=
  let (text, notices) := n.lastValue.display e.locale n.format
  match text with
  | .error err => .error (.format err)
  | .ok text =>
    let e := e.report notices
    let current := n.lastWritten.orElse fun _ => e.tree.read n.field
    if current == some text || !n.autoApply then .ok e
    else
      let e := e.writeField n.field text
      .ok { e with registry := e.registry.modify n.id fun n => { n with lastWritten := some text } }

/-- Stores a new value of a node, writes it, and announces it. -/
def accept (e : Engine) (n : OutputNode) (value : Value) (entry : QueueEntry) : Move :=
  let fresh := { n with lastValue := value, evaluated := true }
  let stored := { e with
    registry := e.registry.modify n.id fun n => { n with lastValue := value, evaluated := true } }
  match stored.applyNode fresh with
  | .error err => .fail stored err
  | .ok e =>
    let e := { e with
      changed := if e.changed.contains n.id then e.changed else e.changed ++ [n.id]
      announcing := fresh :: e.announcing }
    let watchers := (e.watchers.filter (·.2 == n.id)).map (·.1)
    .call e [.own (.watchers n.id n.lastValue value watchers), .own (.propagate entry)]

/-- Judges a value that was computed for a node: one that repeats the last one or goes back and
forth is not passed on. -/
def judge (e : Engine) (n : OutputNode) (value : Value) (entry : QueueEntry) : Move :=
  if !e.detector.canRemember then .fail e .historyTooLong
  else
    let fromPeer := entry.source.any n.linked.contains
    let (verdict, detector) := e.detector.observe n.id value fromPeer
    let e := { e with detector }
    match verdict with
    | .oscillating => (e.report [.oscillating n.id n.lastValue]).finish
    | .converged => e.finish
    | .changed =>
      if n.evaluated && e.detector.tolerances.converged value n.lastValue then e.finish
      else e.accept n value entry

/-- Evaluates a node and judges the value. -/
def evaluateNode (e : Engine) (n : OutputNode) (entry : QueueEntry) : Move :=
  let ((result, notices), evaluator) := e.evaluator.evaluate n.expression e.resolve e.rows
  let e := { e with evaluator }.report notices
  match result with
  | .error err => .fail e (.evaluation err)
  | .ok value => e.judge n value entry

/-- Counts a pass of a node and evaluates it; a node with too many passes breaks the cycle off.
Convergence is judged within one cycle, so the first pass starts a new history. -/
def passNode (e : Engine) (n : OutputNode) (entry : QueueEntry) : Move :=
  let passes := (e.passes.lookup n.id).getD 0 + 1
  if e.settings.maxPasses < passes then
    let e := e.report [.unsettled n.id e.settings.maxPasses]
    { e with halted := true, scheduler := e.scheduler.clear }.finish
  else
    let e := { e with
      passes := (n.id, passes) :: e.passes.filter (·.1 != n.id)
      detector := if passes = 1 then e.detector.forget n.id else e.detector }
    e.evaluateNode n entry

/-- Processes an update.  A node is not computed over an edit of its own, nor while it is being
edited. -/
def process (e : Engine) (entry : QueueEntry) : Move :=
  if e.halted then e.finish
  else match e.registry.find? entry.node with
    | none => e.finish
    | some n =>
      if entry.source == some n.id || e.shouldSkip n then e.finish
      else e.passNode n entry

/-! ## Passing a change on -/

/-- Tells the rest of the watchers of a node about its new value. -/
def tellWatchers (e : Engine) (id : String) (old new : Value) : List Nat → Move
  | [] => e.finish
  | w :: rest => .call e [.ask (.watcher w id old new), .own (.watchers id old new rest)]

/-- Lets a linked node wait because of a change, unless it is the source of the change, lies
outside the scope, waits already, or has had its pass and does not read the changed node. -/
def propagateTo (n : OutputNode) (source : Option String) (readers : List String) (e : Engine)
    (peer : String) : Except EngineError Engine :=
  if !n.linked.contains peer || source == some peer then .ok e
  else do
    let p ← e.node peer
    if !inScope p.scope e.scope then .ok e
    else if e.scheduler.isPending peer then .ok e
    else if e.passes.any (·.1 == peer) && !readers.contains peer then .ok e
    else .ok (e.enqueue peer .high (some n.id))

/-- Passes a change on to linked nodes, one after the other; one that is not registered ends it. -/
def propagateAll (n : OutputNode) (source : Option String) (readers : List String) (e : Engine) :
    List String → Move
  | [] => e.finish
  | peer :: peers =>
    match propagateTo n source readers e peer with
    | .ok e => propagateAll n source readers e peers
    | .error err => .fail e err

/-- Passes the change of the node on that was announced last. -/
def propagate (e : Engine) (entry : QueueEntry) : Move :=
  match e.announcing with
  | [] => e.finish
  | n :: announcing =>
    propagateAll n entry.source (e.links.graph.successors n.id) { e with announcing } e.links.order

/-! ## The end of a cycle -/

/-- Tells the rest of the listeners which nodes have changed. -/
def tellListeners (e : Engine) (changed : List String) : List Nat → Move
  | [] => e.finish
  | l :: rest => .call e [.ask (.listener l changed), .own (.listeners changed rest)]

/-- Ends a cycle: what belongs to it is let go of, and the listeners hear what has changed. -/
def complete (e : Engine) : Move :=
  let changed := e.changed
  let e := { e with
    changed := []
    passes := []
    scope := none
    halted := false
    phase := if e.rests then .queued else .idle }
  if changed.isEmpty then e.finish else e.tellListeners changed e.listeners

/-! ## Going on -/

/-- Goes on when what was called has come back. -/
def resume (f : Frame) (e : Engine) : Move :=
  match f with
  | .queue f => e.ofScheduler (e.scheduler.resume f)
  | .clock f => e.ofDebouncer (e.debouncer.resume f)
  | .handle t => e.handle t
  | .process entry => e.process entry
  | .batchDone => e.finish
  | .watchers id old new rest => e.tellWatchers id old new rest
  | .propagate entry => e.propagate entry
  | .complete => e.complete
  | .listeners changed rest => e.tellListeners changed rest

/-- Goes on when what was called has failed.  A failing watcher or listener is reported and does
not keep the others from hearing; any other failure passes through. -/
def recover (f : Frame) (err : EngineError) (e : Engine) : Move :=
  match f with
  | .watchers id old new rest => (e.report [.watcherFailed id]).tellWatchers id old new rest
  | .listeners changed rest => (e.report [.listenerFailed]).tellListeners changed rest
  | .queue f => .fail { e with scheduler := e.scheduler.unwind f } err
  | _ => .fail e err

end Engine

end LiveForm
