import LiveForm.Proofs.Graph.Sort

/-!
# Topological orders

What the two sorts of a graph come to.  The strict one fails just where a node leads back to
itself, and else it lists every node in front of all its successors.  The lenient one lists every
node too; the nodes that no cycle reaches come first, in such an order.
-/

namespace LiveForm.Successors

variable {α : Type} [DecidableEq α] {g : Successors α} {n u : α} {order : List α}

/-- Every node of the graph is listed once, and in front of all its successors. -/
structure IsTopological (g : Successors α) (order : List α) : Prop where
  nodup : order.Nodup
  mem : ∀ n, n ∈ order ↔ ∃ p ∈ g, n = p.1 ∨ n ∈ p.2
  ordered : ∀ u n, Edge g u n → order.idxOf u < order.idxOf n

/-! ## Placed nodes -/

/-- In a list without repetition what stands behind an element has a greater index. -/
theorem idxOf_lt_of_mem {front back : List α} (h : (front ++ u :: back).Nodup) (hn : n ∈ back) :
    (front ++ u :: back).idxOf u < (front ++ u :: back).idxOf n := by
  obtain ⟨-, hback, hdisjoint⟩ := List.nodup_append.mp h
  have hu : u ∉ front := fun hu => hdisjoint u hu u List.mem_cons_self rfl
  have hnfront : n ∉ front := fun hf => hdisjoint n hf n (List.mem_cons_of_mem _ hn) rfl
  have hne : u ≠ n := fun hun => (List.nodup_cons.mp hback).1 (hun ▸ hn)
  rw [List.idxOf_append_of_notMem hu, List.idxOf_append_of_notMem hnfront, List.idxOf_cons_self,
    List.idxOf_cons_ne _ hne]
  omega

section

variable (hg : (g.map (·.1)).Nodup)
include hg

/-- What leads to a placed node is placed in front of it. -/
theorem idxOf_lt_of_edge (hn : n ∈ g.placed) (he : Edge g u n) :
    g.placed.idxOf u < g.placed.idxOf n := by
  have hne : n ≠ u := fun hnu => not_edge_self_of_mem_placed hg hn (hnu ▸ he)
  have hordered := placed_ordered hg
  have hnodup := nodup_placed hg
  obtain ⟨front, back, hsplit⟩ := List.append_of_mem (mem_placed_of_edge hg hn he)
  rw [hsplit] at hn hordered hnodup ⊢
  rcases List.mem_append.mp hn with hn | hn
  · -- A node in front of what leads to it
    exact absurd he ((List.pairwise_append.mp hordered).2.2 n hn u List.mem_cons_self)
  · exact idxOf_lt_of_mem hnodup ((List.mem_cons.mp hn).resolve_left hne)

/-- So no placed node leads back to itself. -/
theorem idxOf_lt_of_transGen (hn : n ∈ g.placed) (h : Relation.TransGen (Edge g) u n) :
    g.placed.idxOf u < g.placed.idxOf n := by
  induction h with
  | single he => exact idxOf_lt_of_edge hg hn he
  | tail _ he ih => exact (ih (mem_placed_of_edge hg hn he)).trans (idxOf_lt_of_edge hg hn he)

theorem mem_placed_of_reflTransGen (hn : n ∈ g.placed) (h : Relation.ReflTransGen (Edge g) u n) :
    u ∈ g.placed := by
  induction h with
  | refl => exact hn
  | tail _ he ih => exact ih (mem_placed_of_edge hg hn he)

/-- The placed nodes are those that no cycle reaches. -/
theorem mem_placed_iff : n ∈ g.placed ↔ n ∈ g.nodes ∧ ¬ BehindCycle g n := by
  constructor
  · intro hn
    refine ⟨mem_nodes_of_mem_placed hg hn, ?_⟩
    rintro ⟨c, hc, hcn⟩
    exact absurd (idxOf_lt_of_transGen hg (mem_placed_of_reflTransGen hg hn hcn) hc)
      (Nat.lt_irrefl _)
  · rintro ⟨hn, hb⟩
    exact mem_placed_of_not_behindCycle hg hn hb

/-! ## The strict sort -/

/-- All nodes are placed just where no node leads back to itself. -/
theorem length_placed_iff :
    g.placed.length = g.nodes.length ↔ ¬ ∃ n, Relation.TransGen (Edge g) n n := by
  constructor
  · rintro hlength ⟨c, hc⟩
    have hperm : g.placed.Perm g.nodes :=
      (List.subperm_of_subset (nodup_placed hg) fun _ => mem_nodes_of_mem_placed hg)
        |>.perm_of_length_le hlength.ge
    have hcnodes : c ∈ g.nodes := by
      obtain ⟨m, hm, -⟩ := Relation.TransGen.head'_iff.mp hc
      exact (mem_nodes_of_edge hm).1
    exact ((mem_placed_iff hg).mp (hperm.mem_iff.mpr hcnodes)).2 ⟨c, hc, .refl⟩
  · intro hacyclic
    have hperm : g.placed.Perm g.nodes := by
      refine (List.perm_ext_iff_of_nodup (nodup_placed hg) (nodup_nodes g)).mpr fun m => ?_
      rw [mem_placed_iff hg, and_iff_left_iff_imp]
      exact fun _ ⟨c, hc, _⟩ => hacyclic ⟨c, hc⟩
    exact hperm.length_eq

theorem topologicalOrder?_eq_none_iff :
    g.topologicalOrder? = none ↔ ∃ n, Relation.TransGen (Edge g) n n := by
  have hiff := length_placed_iff hg
  unfold topologicalOrder?
  dsimp only
  split
  · next hlength => simp [hiff.mp hlength]
  · next hlength => simpa [hiff] using hlength

/-- Where the strict sort gives an order it is the lenient one, and topological. -/
theorem of_topologicalOrder? (h : g.topologicalOrder? = some order) :
    IsTopological g order ∧ g.evaluationOrder = order := by
  have hacyclic : ∀ n, ¬ Relation.TransGen (Edge g) n n := by
    intro n hn
    have hnone := (topologicalOrder?_eq_none_iff hg).mpr ⟨n, hn⟩
    rw [h] at hnone
    cases hnone
  obtain rfl : g.placed = order := by
    unfold topologicalOrder? at h
    dsimp only at h
    split at h
    · exact Option.some.inj h
    · cases h
  have hall : ∀ n, n ∈ g.placed ↔ n ∈ g.nodes := fun n =>
    ⟨mem_nodes_of_mem_placed hg, mem_placed_of_acyclic hg hacyclic⟩
  refine ⟨⟨nodup_placed hg, fun n => (hall n).trans mem_nodes, fun u n he => ?_⟩,
    evaluationOrder_eq_placed hg hacyclic⟩
  exact idxOf_lt_of_edge hg ((hall n).mpr (mem_nodes_of_edge he).2) he

/-! ## Both sorts -/

/-- The strict sort fails if and only if the graph has a cycle, and else gives a topological order.
The lenient one lists each node once, agrees with the strict one where that succeeds, and begins
with the nodes that no cycle reaches, each in front of its successors among them. -/
theorem topological_orders :
    (g.topologicalOrder? = none ↔ ∃ n, Relation.TransGen (Edge g) n n) ∧
    (∀ order, g.topologicalOrder? = some order → IsTopological g order) ∧
    (g.evaluationOrder.Nodup ∧
      ∀ n, n ∈ g.evaluationOrder ↔ ∃ p ∈ g, n = p.1 ∨ n ∈ p.2) ∧
    (∀ order, g.topologicalOrder? = some order → g.evaluationOrder = order) ∧
    ∃ front back, g.evaluationOrder = front ++ back ∧
      (∀ n, n ∈ front ↔ (∃ p ∈ g, n = p.1 ∨ n ∈ p.2) ∧ ¬ BehindCycle g n) ∧
      ∀ u ∈ front, ∀ n ∈ front, Edge g u n → front.idxOf u < front.idxOf n := by
  have hperm := evaluationOrder_perm hg
  refine ⟨topologicalOrder?_eq_none_iff hg, fun order h => (of_topologicalOrder? hg h).1,
    ⟨hperm.nodup_iff.mpr (nodup_nodes g), fun n => hperm.mem_iff.trans mem_nodes⟩,
    fun order h => (of_topologicalOrder? hg h).2, g.placed, _, rfl, fun n => ?_,
    fun u _ n hn he => idxOf_lt_of_edge hg hn he⟩
  rw [mem_placed_iff hg, mem_nodes]

end

/-- A graph with a node that leads to itself, one that leads to it, one behind it, an edge that is
listed twice and nodes that are listed as successors only. -/
def looped : Successors String :=
  [("c", ["d"]), ("b", ["c", "e", "e"]), ("c'", ["c'", "f"]), ("a", ["c", "b"])]

theorem topological_orders_looped :
    (looped.map (·.1)).Nodup ∧ looped.topologicalOrder? = none ∧
      (∃ n, Relation.TransGen (Edge looped) n n) ∧
      looped.evaluationOrder = ["a", "b", "c", "e", "d", "c'", "f"] ∧
      ∃ front back, looped.evaluationOrder = front ++ back ∧
        (∀ n, n ∈ front ↔ (∃ p ∈ looped, n = p.1 ∨ n ∈ p.2) ∧ ¬ BehindCycle looped n) := by
  have hkeys : (looped.map (·.1)).Nodup := by decide
  have hnone : looped.topologicalOrder? = none := by decide +kernel
  obtain ⟨hiff, -, -, -, front, back, hsplit, hfront, -⟩ := topological_orders hkeys
  exact ⟨hkeys, hnone, hiff.mp hnone, by decide +kernel, front, back, hsplit, hfront⟩

end LiveForm.Successors
