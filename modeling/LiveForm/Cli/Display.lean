import LiveForm.Console.Table
import LiveForm.Console.Tree
import LiveForm.Engine.Operation
import LiveForm.Name

/-!
# What the commands show

Results are shown as a table and dependencies as a tree.
-/

namespace LiveForm.Cli

/-- The cells of a line of the screen. -/
def screenWidth : Nat := 200

/-- The lines without the blanks at their ends. -/
def toLines (ls : List (List Char)) : List String :=
  ls.map fun l => .ofList (Console.dropEndBlanks l)

/-- The table of the results: each output with its expression, its value as a literal, and the
text that is displayed. -/
def resultLines (e : Engine) (rs : List Engine.Result) : List String :=
  if rs.isEmpty then ["The form declares no outputs"]
  else
    let columns : List Console.Column :=
      [⟨"Output", .left⟩, ⟨"Expression", .left⟩, ⟨"Value", .right⟩, ⟨"Display", .right⟩]
    let rows := (e.registry.nodes.zip rs).map fun (n, r) =>
      [r.field, n.expression, r.value.literal, r.display]
    toLines (Console.table screenWidth columns rows)

/-- The branch of an output: what it reads, and the outputs that it is linked with. -/
def outputBranch (links : LinkGraph) (n : OutputNode) : Console.Tree :=
  let listed (names : List String) : List Char := Console.shown (", ".intercalate names)
  let reads := ((links.dependencies.lookup n.id).getD []).mergeSort fun a b => decide (a ≤ b)
  let peers := links.order.filter (links.peers n.id).contains
  .node (Console.shown n.id ++ " = ".toList ++ Console.shown n.expression)
    (.node ("reads: ".toList ++ (if reads.isEmpty then ['-'] else listed reads)) [] ::
      if peers.isEmpty then [] else [.node ("linked: ".toList ++ listed peers) []])

/-- The tree of the dependencies. -/
def dependencyLines (e : Engine) : List String :=
  let outputs := e.links.order.filterMap fun id =>
    (e.registry.find? id).map (outputBranch e.links)
  let warning : List Console.Tree :=
    if e.links.graph.hasCycle then
      [.node "Outputs reference each other in a cycle".toList []]
    else []
  toLines (Console.Tree.lines screenWidth
    (.node "Outputs (evaluation order)".toList (outputs ++ warning)))

end LiveForm.Cli
