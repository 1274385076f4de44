import LiveForm.Engine.Operation

/-!
# Sessions on an engine

Watchers and listeners have a tag and a script, which is done on their first calls.  Some of them
fail whenever they are called, behind their script.
-/

namespace LiveForm.Session.Computing

open Engine (Operation)

/-- Something asked of an engine or its form that changes nothing. -/
inductive Query where
  | value (node : String)
  | display (node : String)
  | node (id : String)
  | history (node : String)
  | nodes
  | links
  | queue
  | results
  | read (name : String)
  | isFocused (name : String)
  | outputSpecs (scope : Option String)
  | inputNames (scope : Option String)
  deriving DecidableEq

/-- Something done to an engine or to its form. -/
inductive Step where
  | operation (op : Operation)
  | query (q : Query)
  /-- Watch a node. -/
  | watch (node tag : String) (times : Nat) (script : List Step) (fails : Bool)
  /-- Listen to changes. -/
  | onChange (tag : String) (times : Nat) (script : List Step) (fails : Bool)
  /-- Remove a watcher or listener. -/
  | unwatch (tag : String)
  deriving Inhabited

/-- What a step answers. -/
inductive Response where
  | engine (r : Engine.Response)
  | value (v : Value)
  | text (s : Option String)
  | flag (b : Bool)
  | node (n : OutputNode)
  | values (vs : List Value)
  | names (ns : List String)
  | links (g : LinkGraph)
  | queue (es : List QueueEntry)
  | results (rs : List Engine.Result)
  | specs (ss : List OutputSpec)

instance : Inhabited Response := ⟨.engine default⟩

/-- What is noted of callbacks. -/
inductive Event where
  | watched (tag node : String) (old new : Value)
  | changed (tag : String) (nodes : List String)
  | did (step : Step) (r : Response)

/-- The script of a watcher or listener. -/
structure Script where
  tag : String
  /-- On how many further calls the script is done. -/
  times : Nat
  steps : List Step
  /-- Fails at the end of each call. -/
  fails : Bool

/-- An engine, the scripts by handle, the handles by tag, and what was noted. -/
structure State where
  engine : Engine
  scripts : List (Nat × Script) := []
  handles : List (String × Nat) := []
  events : List Event := []

/-- What is left to do. -/
inductive Frame where
  | begin (step : Step)
  | engine (f : Engine.Frame)
  | ask (a : Engine.Ask)
  /-- Note what a step answered and do the rest of the script. -/
  | rest (tag : String) (step : Step) (script : List Step) (fails : Bool)

abbrev Move := LiveForm.Move State Frame Response EngineError

def State.note (s : State) (e : Event) : State := { s with events := s.events ++ [e] }

/-- A move of the engine as one of the session. -/
def State.ofEngine (s : State) (m : Engine.Move) : Move :=
  m.embed (fun engine => { s with engine }) (Activity.elim .engine .ask) .engine

/-- The outcome of looking something up, with notices. -/
def State.answer {α : Type} (s : State) (found : Except EngineError α × List Notice)
    (f : α → Response) : Move :=
  let s := { s with engine := s.engine.report found.2 }
  match found.1 with
  | .ok a => .ret s (f a)
  | .error err => .fail s err

def ask (s : State) : Query → Move
  | .value id => s.answer (s.engine.value id, []) .value
  | .display id => s.answer (s.engine.display id) fun t => .text (some t)
  | .node id => s.answer (s.engine.node id, []) .node
  | .history id => .ret s (.values (s.engine.detector.history id))
  | .nodes => .ret s (.names s.engine.registry.ids)
  | .links => .ret s (.links s.engine.links)
  | .queue => .ret s (.queue s.engine.scheduler.queue.pending)
  | .results => s.answer s.engine.results .results
  | .read name => .ret s (.text (s.engine.tree.read name))
  | .isFocused name => .ret s (.flag (s.engine.tree.isFocused name))
  | .outputSpecs scope => .ret s (.specs (s.engine.tree.outputSpecs scope))
  | .inputNames scope => .ret s (.names (s.engine.tree.inputNames scope))

/-- Adds a subscription that was made. -/
def State.subscribe (s : State) (made : Nat × Engine) (script : Script) : Move :=
  .ret { s with
    engine := made.2
    scripts := (made.1, script) :: s.scripts
    handles := (script.tag, made.1) :: s.handles } (.engine default)

def perform (s : State) : Step → Move
  | .operation op => s.ofEngine (s.engine.perform op)
  | .query q => ask s q
  | .watch node tag times steps fails =>
    s.subscribe (s.engine.watch node) ⟨tag, times, steps, fails⟩
  | .onChange tag times steps fails => s.subscribe s.engine.listen ⟨tag, times, steps, fails⟩
  | .unwatch tag =>
    match s.handles.lookup tag with
    | some handle => .ret { s with engine := s.engine.unsubscribe handle } (.engine default)
    | none => .fail s (.callback (.unknownSubscription tag))

/-- Does the rest of a script. -/
def goOn (s : State) (tag : String) (fails : Bool) : List Step → Move
  | [] => if fails then .fail s (.callback (.failed tag)) else .ret s (.engine default)
  | step :: script => .call s [.begin step, .rest tag step script fails]

/-- Calls a callback: notes what it hears, and does its script unless that is used up. -/
def callBack (s : State) (handle : Nat) (event : String → Event) : Move :=
  match s.scripts.lookup handle with
  | none => .ret s (.engine default)
  | some script =>
    let s := s.note (event script.tag)
    match script.times with
    | 0 => goOn s script.tag script.fails []
    | times + 1 =>
      let scripts := s.scripts.map fun p =>
        if p.1 == handle then (p.1, { p.2 with times }) else p
      goOn { s with scripts } script.tag script.fails script.steps

def machine : Machine State Frame Response EngineError
  | .begin step, _, s => perform s step
  | .engine f, .returned _, s => s.ofEngine (s.engine.resume f)
  | .engine f, .raised e, s => s.ofEngine (s.engine.recover f e)
  | .ask (.watcher handle node old new), _, s => callBack s handle (.watched · node old new)
  | .ask (.listener handle changed), _, s => callBack s handle (.changed · changed)
  | .rest tag step script fails, .returned r, s => goOn (s.note (.did step r)) tag fails script
  | .rest .., .raised e, s => .fail s e

/-- Does a step; gives the state with what was noted during it, and what the step answers. -/
def doStep (s : State) (step : Step) : State × Reply Response EngineError :=
  let tree := { s.engine.tree with writes := [] }
  let s := { s with events := [], engine := { s.engine with notices := [], tree } }
  Machine.complete machine (.call s [.begin step])

end LiveForm.Session.Computing
