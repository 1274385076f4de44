import LiveForm.Graph.Sort

/-!
# Dependency graphs

An edge from `a` to `b` says that `b` depends on `a`.  Cycles are allowed.  The graph keeps its
nodes in the order in which they were given, and that order decides wherever the edges do not.
-/

namespace LiveForm

/-- A directed graph with its nodes in order; the nodes next to each node are in that order too. -/
structure DependencyGraph (α : Type) where
  nodes : List α := []
  /-- The successors of each node. -/
  successorLists : Successors α := []
  /-- The predecessors of each node. -/
  predecessorLists : List (α × List α) := []
  deriving DecidableEq

namespace DependencyGraph

variable {α : Type} [BEq α]

/-- The graph of some edges; its nodes are the ones given, and then the ends of the edges by first
appearance. -/
def ofEdges (edges : List (α × α)) (nodes : List α) : DependencyGraph α :=
  let all := (nodes ++ edges.flatMap fun e => [e.1, e.2]).eraseDups
  let successorsOf (n : α) : List α :=
    let targets := (edges.filter (·.1 == n)).map (·.2)
    all.filter targets.contains
  let predecessorsOf (n : α) : List α :=
    let sources := (edges.filter (·.2 == n)).map (·.1)
    all.filter sources.contains
  ⟨all, all.map fun n => (n, successorsOf n), all.map fun n => (n, predecessorsOf n)⟩

/-- The nodes that depend on a node directly. -/
def successors (g : DependencyGraph α) (n : α) : List α := g.successorLists.of n

/-- The nodes that a node depends on directly. -/
def predecessors (g : DependencyGraph α) (n : α) : List α := (g.predecessorLists.lookup n).getD []

/-! ## Walking through a graph -/

/-- The nodes listed with their successors that were not visited. -/
def unvisited (g : DependencyGraph α) (visited : List α) : List α :=
  (g.successorLists.map (·.1)).filter (!visited.contains ·)

section

variable {g : DependencyGraph α} {n : α} {visited ahead : List α}

theorem unvisited_cons_sublist : (g.unvisited (n :: visited)).Sublist (g.unvisited visited) := by
  have h : g.unvisited (n :: visited) = (g.unvisited visited).filter (!· == n) := by
    rw [unvisited, unvisited, List.filter_filter]
    refine List.filter_congr fun m _ => ?_
    rw [List.contains_cons, Bool.not_or]
  rw [h]
  exact List.filter_sublist

variable [LawfulBEq α]

theorem mem_unvisited (h : g.successors n ≠ []) (hn : visited.contains n = false) :
    n ∈ g.unvisited visited := by
  refine List.mem_filter.mpr ⟨?_, by simpa using hn⟩
  unfold successors Successors.of at h
  cases hl : g.successorLists.lookup n with
  | none => simp [hl] at h
  | some ns =>
    obtain ⟨front, back, heq, -⟩ := List.lookup_eq_some_iff.mp hl
    rw [heq]
    simp

/-- To visit a node leaves one less to visit, or the node has no successors. -/
theorem unvisited_decreases (hn : visited.contains n = false) :
    Prod.Lex (· < ·) (· < ·)
      ((g.unvisited (n :: visited)).length, (g.successors n ++ ahead).length)
      ((g.unvisited visited).length, (n :: ahead).length) := by
  have hsublist : (g.unvisited (n :: visited)).Sublist (g.unvisited visited) :=
    unvisited_cons_sublist
  rcases Nat.lt_or_eq_of_le hsublist.length_le with hlt | hlength
  · exact .left _ _ hlt
  · have hsame := hsublist.eq_of_length hlength
    have hnil : g.successors n = [] := by
      refine Decidable.byContradiction fun h => ?_
      have hmem := mem_unvisited h hn
      rw [← hsame] at hmem
      simp [unvisited] at hmem
    rw [hsame, hnil]
    exact .right _ (Nat.lt_succ_self _)

end

/-- Goes to the nodes ahead, one after another, and from each that was not visited to its successors
first; gives the nodes that were visited. -/
def walk [LawfulBEq α] (g : DependencyGraph α) (ahead visited : List α) : List α :=
  match ahead with
  | [] => visited
  | n :: ahead =>
    if visited.contains n then g.walk ahead visited
    else g.walk (g.successors n ++ ahead) (n :: visited)
termination_by ((g.unvisited visited).length, ahead.length)
decreasing_by
  · exact .right _ (Nat.lt_succ_self _)
  · exact unvisited_decreases (Bool.eq_false_iff.mpr ‹_›)

/-- The nodes that depend on a node, directly or not. -/
def descendants [LawfulBEq α] (g : DependencyGraph α) (n : α) : List α :=
  g.walk (g.successors n) []

/-! ## Orders -/

/-- All nodes, each before its dependents, if the graph has no cycle. -/
def topologicalOrder? (g : DependencyGraph α) : Option (List α) :=
  g.successorLists.topologicalOrder?

/-- All nodes, dependencies first, the ones on a cycle or behind one last and in their order. -/
def evaluationOrder (g : DependencyGraph α) : List α := g.successorLists.evaluationOrder

def hasCycle (g : DependencyGraph α) : Bool := g.topologicalOrder?.isNone

def contains (g : DependencyGraph α) (n : α) : Bool := g.nodes.contains n

/-- The edges, ordered by their first and then by their second node. -/
def edges (g : DependencyGraph α) : List (α × α) :=
  g.nodes.flatMap fun n => (g.successors n).map fun m => (n, m)

end DependencyGraph

end LiveForm
