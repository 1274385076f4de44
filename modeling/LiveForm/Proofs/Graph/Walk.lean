import LiveForm.Proofs.Graph.Dependency
import LiveForm.Proofs.Graph.Order

/-!
# The nodes that a walk reaches

The descendants of a node are found by walking: a node ahead is visited unless it was before, and
its successors are then ahead too.  A walk comes to its end, because to visit a node leaves one less
to visit.  At the end the visited nodes are all that the node leads to, directly or not, so that a
graph has a cycle exactly when a node is one of its own descendants.
-/

namespace LiveForm.DependencyGraph

open Relation (ReflTransGen TransGen)
open Successors (Edge)

variable {α : Type} [DecidableEq α] {g : DependencyGraph α} {m n : α} {ahead visited : List α}

/-- One turn of a walk, from the nodes ahead and those visited to what these are then. -/
inductive Turn (g : DependencyGraph α) : List α × List α → List α × List α → Prop where
  | again {n : α} {ahead visited : List α} (h : n ∈ visited) :
    Turn g (n :: ahead, visited) (ahead, visited)
  | visit {n : α} {ahead visited : List α} (h : n ∉ visited) :
    Turn g (n :: ahead, visited) (g.successors n ++ ahead, n :: visited)

/-- No walk goes on for ever: each turn leaves fewer nodes to visit, or as many and fewer ahead. -/
theorem wellFounded_turn (g : DependencyGraph α) : WellFounded (flip g.Turn) := by
  let size (w : List α × List α) : Nat × Nat := ((g.unvisited w.2).length, w.1.length)
  refine Subrelation.wf ?_ (InvImage.wf size (Prod.instWellFoundedRelation).wf)
  intro w' w hturn
  cases hturn with
  | again h => exact .right _ (Nat.lt_succ_self _)
  | visit h => exact unvisited_decreases (by simpa using h)

/-- A walk takes turns until nothing is ahead. -/
theorem turns_walk (g : DependencyGraph α) (ahead visited : List α) :
    ReflTransGen g.Turn (ahead, visited) ([], g.walk ahead visited) := by
  induction ahead, visited using walk.induct g with
  | case1 visited =>
    rw [walk]
  | case2 visited n ahead h ih =>
    rw [walk, if_pos h]
    exact .head (.again (List.contains_iff_mem.mp h)) ih
  | case3 visited n ahead h ih =>
    rw [walk, if_neg h]
    exact .head (.visit (mt List.contains_iff_mem.mpr h)) ih

/-- What a walk from the successors of a node keeps to: the node leads to all that is ahead or
visited, and all that the node or a visited one leads to directly is ahead or visited. -/
structure Explores (g : DependencyGraph α) (n : α) (w : List α × List α) : Prop where
  sound : ∀ m, m ∈ w.1 ∨ m ∈ w.2 → TransGen (Edge g.successorLists) n m
  complete : ∀ u, u = n ∨ u ∈ w.2 → ∀ m, Edge g.successorLists u m → m ∈ w.1 ∨ m ∈ w.2

theorem explores_start (g : DependencyGraph α) (n : α) : Explores g n (g.successors n, []) where
  sound m hm := by
    have hm : m ∈ g.successors n := by simpa using hm
    exact .single hm
  complete u hu m hm := by
    obtain rfl : u = n := by simpa using hu
    exact Or.inl hm

theorem Explores.turn {w w' : List α × List α} (h : Explores g n w) (hturn : g.Turn w w') :
    Explores g n w' := by
  cases hturn with
  | @again k ahead visited hk =>
    refine ⟨fun m hm => h.sound m ?_, fun u hu m hum => ?_⟩
    · exact hm.imp_left (List.mem_cons_of_mem k)
    · rcases h.complete u hu m hum with hm | hm
      · rcases List.mem_cons.mp hm with rfl | hm
        · exact Or.inr hk
        · exact Or.inl hm
      · exact Or.inr hm
  | @visit k ahead visited hk =>
    have hsound : TransGen (Edge g.successorLists) n k := h.sound k (Or.inl List.mem_cons_self)
    refine ⟨fun m hm => ?_, fun u hu m hum => ?_⟩
    · simp only [List.mem_append, List.mem_cons] at hm
      rcases hm with (hm | hm) | rfl | hm
      · exact hsound.tail hm
      · exact h.sound m (Or.inl (List.mem_cons_of_mem k hm))
      · exact hsound
      · exact h.sound m (Or.inr hm)
    · by_cases huk : u = k
      · subst huk
        exact Or.inl (List.mem_append_left _ hum)
      · have hold : u = n ∨ u ∈ visited := hu.imp_right fun hu => List.mem_of_ne_of_mem huk hu
        rcases h.complete u hold m hum with hm | hm
        · rcases List.mem_cons.mp hm with rfl | hm
          · exact Or.inr List.mem_cons_self
          · exact Or.inl (List.mem_append_right _ hm)
        · exact Or.inr (List.mem_cons_of_mem k hm)

theorem Explores.turns {w w' : List α × List α} (h : Explores g n w)
    (hturns : ReflTransGen g.Turn w w') : Explores g n w' := by
  induction hturns with
  | refl => exact h
  | tail _ hturn ih => exact ih.turn hturn

/-- The descendants of a node are those that it leads to, directly or not. -/
theorem mem_descendants_iff :
    m ∈ g.descendants n ↔ TransGen (Edge g.successorLists) n m := by
  have hend : Explores g n ([], g.descendants n) :=
    (explores_start g n).turns (turns_walk g (g.successors n) [])
  have hvisited : ∀ u, u = n ∨ u ∈ g.descendants n → ∀ m, Edge g.successorLists u m →
      m ∈ g.descendants n := by
    intro u hu m hum
    simpa using hend.complete u hu m hum
  constructor
  · intro hm
    exact hend.sound m (Or.inr hm)
  · intro hm
    induction hm with
    | single hnm => exact hvisited n (Or.inl rfl) _ hnm
    | tail _ hum ih => exact hvisited _ (Or.inr ih) _ hum

/-- The edges of a graph, its walks and its sort agree.  Successors and predecessors are the ends of
the edges.  No walk goes on for ever, and the one that starts from the successors of a node has at
its end visited all that the node leads to, directly or not.  The graph has a cycle just if a node
is one of its own descendants. -/
theorem reachability_agrees (edges : List (α × α)) (nodes : List α) :
    (∀ a b, (b ∈ (ofEdges edges nodes).successors a ↔ (a, b) ∈ edges) ∧
      (a ∈ (ofEdges edges nodes).predecessors b ↔ (a, b) ∈ edges)) ∧
    WellFounded (flip (ofEdges edges nodes).Turn) ∧
    (∀ n, ReflTransGen (ofEdges edges nodes).Turn ((ofEdges edges nodes).successors n, [])
        ([], (ofEdges edges nodes).descendants n) ∧
      ∀ m, m ∈ (ofEdges edges nodes).descendants n ↔ TransGen (fun a b => (a, b) ∈ edges) n m) ∧
    ((ofEdges edges nodes).hasCycle = true ↔
      ∃ n ∈ (ofEdges edges nodes).nodes, n ∈ (ofEdges edges nodes).descendants n) := by
  have hedge : Edge (ofEdges edges nodes).successorLists = fun a b => (a, b) ∈ edges := by
    funext a b
    exact propext edge_ofEdges
  refine ⟨fun a b => ⟨mem_successors_ofEdges, mem_predecessors_ofEdges⟩, wellFounded_turn _,
    fun n => ⟨turns_walk _ _ _, fun m => ?_⟩, ?_⟩
  · rw [mem_descendants_iff, hedge]
  · have hcycle : (ofEdges edges nodes).hasCycle = true ↔
        ∃ n, n ∈ (ofEdges edges nodes).descendants n := by
      simp only [mem_descendants_iff]
      rw [hasCycle, Option.isNone_iff_eq_none]
      exact Successors.topologicalOrder?_eq_none_iff (nodup_keys_ofEdges edges nodes)
    rw [hcycle]
    constructor
    · rintro ⟨n, hn⟩
      rw [mem_descendants_iff, hedge] at hn
      obtain ⟨m, hm, -⟩ := TransGen.head'_iff.mp hn
      refine ⟨n, ?_, by rwa [mem_descendants_iff, hedge]⟩
      rw [nodes_ofEdges]
      exact (mem_inserted_of_edge hm).1
    · rintro ⟨n, -, hn⟩
      exact ⟨n, hn⟩

end LiveForm.DependencyGraph
