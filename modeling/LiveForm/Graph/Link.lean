import LiveForm.Graph.Dependency
import LiveForm.Name

/-!
# How the outputs of a form hang together

An output *reads* another one if a dependency covers its id.  Two outputs are *linked* if one
reads the other or both depend on a common variable.
-/

namespace LiveForm

/-- The dependencies of each output, in the order of the form. -/
abbrev Dependencies := List (String × List String)

/-- One of the dependencies covers the variable. -/
def reads (dependencies : List String) (name : String) : Bool :=
  dependencies.any (matchesVariable · name)

/-- The two outputs hang together. -/
def related (a b : String × List String) : Bool :=
  reads a.2 b.1 || reads b.2 a.1 || dependenciesOverlap a.2 b.2

/-- The outputs of a form with their links. -/
structure LinkGraph where
  /-- What each output depends on. -/
  dependencies : Dependencies := []
  /-- The outputs that each output is linked with. -/
  links : List (String × List String) := []
  /-- Who reads whom. -/
  graph : DependencyGraph String := {}
  /-- The outputs, what is read first; those on a cycle or behind one last. -/
  order : List String := []
  deriving DecidableEq

namespace LinkGraph

/-- The outputs linked with an output. -/
def peers (g : LinkGraph) (id : String) : List String := (g.links.lookup id).getD []

def areLinked (g : LinkGraph) (a b : String) : Bool := (g.peers a).contains b

/-- The outputs with a dependency that covers the variable, in order of evaluation. -/
def dependentsOf (g : LinkGraph) (name : String) : List String :=
  g.order.filter fun id => reads ((g.dependencies.lookup id).getD []) name

/-- The edges between an output and the ones behind it in the form. -/
def edgesWith (a : String × List String) (rest : Dependencies) : List (String × String) :=
  rest.flatMap fun b =>
    (if reads a.2 b.1 then [(b.1, a.1)] else []) ++ (if reads b.2 a.1 then [(a.1, b.1)] else [])

/-- An edge for each output that reads another one. -/
def readEdges : Dependencies → List (String × String)
  | [] => []
  | a :: rest => edgesWith a rest ++ readEdges rest

/-- A pair for each two outputs that hang together, the one in front first. -/
def relatedPairs : Dependencies → List (String × String)
  | [] => []
  | a :: rest => (rest.filter (related a)).map (fun b => (a.1, b.1)) ++ relatedPairs rest

/-- One output more that another one is linked with. -/
def addPeer (links : List (String × List String)) (id peer : String) :
    List (String × List String) :=
  links.map fun p => if p.1 == id then (p.1, p.2 ++ [peer]) else p

/-- Links two outputs with each other. -/
def connect (links : List (String × List String)) (pair : String × String) :
    List (String × List String) :=
  addPeer (addPeer links pair.1 pair.2) pair.2 pair.1

/-- The links of outputs whose ids are distinct. -/
def build (ds : Dependencies) : LinkGraph :=
  let ids := ds.map (·.1)
  let graph := DependencyGraph.ofEdges (readEdges ds) ids
  { dependencies := ds
    links := (relatedPairs ds).foldl connect (ids.map fun id => (id, []))
    graph
    order := graph.evaluationOrder }

end LinkGraph

end LiveForm
