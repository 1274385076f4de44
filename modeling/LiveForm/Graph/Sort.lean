/-!
# Topological order

A graph is given by the successors of its nodes.  Nodes without an unplaced predecessor are placed
one after another, first come, first served; when none is left, the nodes on a cycle and behind
one remain.
-/

namespace LiveForm

/-- The successors of some nodes; a node may be listed as a successor only, and more than once. -/
abbrev Successors (α : Type) := List (α × List α)

namespace Successors

variable {α : Type} [BEq α]

/-- The nodes of the graph in the order in which they are first mentioned. -/
def nodes (g : Successors α) : List α := (g.flatMap fun p => p.1 :: p.2).eraseDups

/-- The successors of a node, as often as they are listed. -/
def of (g : Successors α) (n : α) : List α := (g.lookup n).getD []

/-- For each node how many edges from unplaced nodes lead to it. -/
abbrev Degrees (α : Type) := List (α × Nat)

/-- The degrees while nothing is placed. -/
def degrees (g : Successors α) : Degrees α :=
  let targets := g.flatMap (·.2)
  g.nodes.map fun n => (n, targets.count n)

/-- One edge less to a node. -/
def Degrees.decrease (d : Degrees α) (n : α) : Degrees α :=
  d.map fun p => if p.1 == n then (p.1, p.2 - 1) else p

/-- What is left when the edges to these nodes are gone, and the nodes to which no edge is left,
in the order in which they get free. -/
def Degrees.release (d : Degrees α) : List α → Degrees α × List α
  | [] => (d, [])
  | n :: ns =>
    let d := d.decrease n
    let (rest, free) := release d ns
    (rest, if d.lookup n == some 0 then n :: free else free)

/-- Places the waiting nodes and the ones that get free on the way. -/
def place (g : Successors α) : (fuel : Nat) → Degrees α → (waiting : List α) → List α
  | 0, _, _ => []
  | _ + 1, _, [] => []
  | fuel + 1, d, n :: waiting =>
    let (d, free) := d.release (g.of n)
    n :: place g fuel d (waiting ++ free)

/-- The nodes that are neither on a cycle nor behind one, each before its successors.  A node is
placed at most once, so there are no more steps than nodes. -/
def placed (g : Successors α) : List α :=
  let d := g.degrees
  place g g.nodes.length d ((d.filter (·.2 == 0)).map (·.1))

/-- All nodes, each before its successors; there is no such order if the graph has a cycle. -/
def topologicalOrder? (g : Successors α) : Option (List α) :=
  let order := g.placed
  if order.length = g.nodes.length then some order else none

/-- All nodes: those that have a place in a topological order, and then the others in the order in
which they are first mentioned. -/
def evaluationOrder (g : Successors α) : List α :=
  let order := g.placed
  order ++ g.nodes.filter (!order.contains ·)

end Successors

end LiveForm
