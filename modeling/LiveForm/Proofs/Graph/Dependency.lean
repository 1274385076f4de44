import LiveForm.Graph.Dependency
import LiveForm.Proofs.Graph.Sort

/-!
# The graph of some edges

A graph that is built from edges has just these edges.  Its nodes stand in the order in which they
were inserted, each of them once, and so do the successors of each node.
-/

namespace LiveForm.DependencyGraph

open Successors (Edge)

variable {α : Type} [DecidableEq α] {edges : List (α × α)} {nodes : List α} {u v : α}

/-- The nodes of the graph as they are inserted: those that are given, and then the ends of the
edges, the source of each in front of its target. -/
def inserted (edges : List (α × α)) (nodes : List α) : List α :=
  (nodes ++ edges.flatMap fun e => [e.1, e.2]).eraseDups

/-- The targets of the edges from a node, in the order of the nodes. -/
def targets (edges : List (α × α)) (nodes : List α) (n : α) : List α :=
  (inserted edges nodes).filter (((edges.filter (·.1 == n)).map (·.2)).contains ·)

/-- The sources of the edges to a node, in the order of the nodes. -/
def sources (edges : List (α × α)) (nodes : List α) (n : α) : List α :=
  (inserted edges nodes).filter (((edges.filter (·.2 == n)).map (·.1)).contains ·)

theorem nodes_ofEdges (edges : List (α × α)) (nodes : List α) :
    (ofEdges edges nodes).nodes = inserted edges nodes := rfl

theorem successorLists_ofEdges (edges : List (α × α)) (nodes : List α) :
    (ofEdges edges nodes).successorLists =
      (inserted edges nodes).map fun n => (n, targets edges nodes n) := rfl

theorem predecessorLists_ofEdges (edges : List (α × α)) (nodes : List α) :
    (ofEdges edges nodes).predecessorLists =
      (inserted edges nodes).map fun n => (n, sources edges nodes n) := rfl

theorem nodup_inserted (edges : List (α × α)) (nodes : List α) : (inserted edges nodes).Nodup :=
  Successors.nodup_eraseDups _

/-- The ends of each edge are nodes. -/
theorem mem_inserted_of_edge (h : (u, v) ∈ edges) :
    u ∈ inserted edges nodes ∧ v ∈ inserted edges nodes := by
  have hends : ∀ x ∈ [u, v], x ∈ inserted edges nodes := by
    intro x hx
    refine List.mem_eraseDups.mpr (List.mem_append_right _ ?_)
    exact List.mem_flatMap.mpr ⟨(u, v), h, hx⟩
  exact ⟨hends u (by simp), hends v (by simp)⟩

theorem mem_targets : v ∈ targets edges nodes u ↔ (u, v) ∈ edges := by
  have hmem : (((edges.filter (·.1 == u)).map (·.2)).contains v) = true ↔ (u, v) ∈ edges := by
    simp
  rw [targets, List.mem_filter, hmem]
  exact and_iff_right_of_imp fun h => (mem_inserted_of_edge h).2

/-- The edges of the graph are those that it was built from. -/
theorem edge_ofEdges : Edge (ofEdges edges nodes).successorLists u v ↔ (u, v) ∈ edges := by
  rw [Edge, Successors.of, successorLists_ofEdges, mem_lookup_map_pair, mem_targets]
  exact and_iff_right_of_imp fun h => (mem_inserted_of_edge h).1

theorem mem_successors_ofEdges : v ∈ (ofEdges edges nodes).successors u ↔ (u, v) ∈ edges :=
  edge_ofEdges

theorem mem_sources : u ∈ sources edges nodes v ↔ (u, v) ∈ edges := by
  have hmem : (((edges.filter (·.2 == v)).map (·.1)).contains u) = true ↔ (u, v) ∈ edges := by
    simp
  rw [sources, List.mem_filter, hmem]
  exact and_iff_right_of_imp fun h => (mem_inserted_of_edge h).1

/-- A node has a predecessor for each edge that leads to it. -/
theorem mem_predecessors_ofEdges : u ∈ (ofEdges edges nodes).predecessors v ↔ (u, v) ∈ edges := by
  rw [predecessors, predecessorLists_ofEdges, mem_lookup_map_pair, mem_sources]
  exact and_iff_right_of_imp fun h => (mem_inserted_of_edge h).2

theorem nodup_keys_ofEdges (edges : List (α × α)) (nodes : List α) :
    ((ofEdges edges nodes).successorLists.map (·.1)).Nodup := by
  rw [successorLists_ofEdges, List.map_map]
  simpa only [Function.comp_def, List.map_id'] using nodup_inserted edges nodes

/-- The sort goes through just these nodes. -/
theorem mem_nodes_ofEdges :
    v ∈ (ofEdges edges nodes).successorLists.nodes ↔ v ∈ inserted edges nodes := by
  rw [Successors.mem_nodes, successorLists_ofEdges]
  constructor
  · rintro ⟨p, hp, hv⟩
    obtain ⟨n, hn, rfl⟩ := List.mem_map.mp hp
    rcases hv with rfl | hv
    · exact hn
    · exact (mem_inserted_of_edge (mem_targets.mp hv)).2
  · intro hv
    exact ⟨_, List.mem_map_of_mem hv, Or.inl rfl⟩

/-- The order of evaluation has each node once. -/
theorem evaluationOrder_perm_inserted (edges : List (α × α)) (nodes : List α) :
    (ofEdges edges nodes).evaluationOrder.Perm (inserted edges nodes) := by
  refine (Successors.evaluationOrder_perm (nodup_keys_ofEdges edges nodes)).trans ?_
  refine (List.perm_ext_iff_of_nodup (Successors.nodup_nodes _) (nodup_inserted edges nodes)).mpr ?_
  exact fun v => mem_nodes_ofEdges

end LiveForm.DependencyGraph
