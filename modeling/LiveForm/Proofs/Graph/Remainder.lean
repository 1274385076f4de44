import LiveForm.Proofs.Graph.Dependency
import LiveForm.Proofs.Graph.Link
import LiveForm.Proofs.Graph.Order

/-!
# The nodes that cycles reach

The order of evaluation ends with the nodes on a cycle and behind one.  They stand in the order in
which the sort meets them as it goes through the nodes and, behind each node, through its
successors.  So a node that was inserted later stands in front of an earlier one exactly when it is
met ahead, as a successor.
-/

namespace LiveForm

variable {α β : Type} [DecidableEq α]

/-! ## What comes first in a list -/

theorem idxOf_cons_lt_iff {as : List α} {x a b : α} :
    (x :: as).idxOf a < (x :: as).idxOf b ↔ x ≠ b ∧ (x = a ∨ as.idxOf a < as.idxOf b) := by
  rw [List.idxOf_cons, List.idxOf_cons]
  by_cases hxb : x = b
  · simp [hxb]
  · by_cases hxa : x = a
    · have hab : a ≠ b := hxa ▸ hxb
      simp [hxa, hab, beq_false_of_ne hab]
    · simp [hxa, hxb, beq_false_of_ne hxa, beq_false_of_ne hxb]

theorem idxOf_append_lt_iff {as bs : List α} {a b : α} :
    (as ++ bs).idxOf a < (as ++ bs).idxOf b ↔
      as.idxOf a < as.idxOf b ∨ (a ∉ as ∧ b ∉ as ∧ bs.idxOf a < bs.idxOf b) := by
  induction as with
  | nil => simp
  | cons x as ih =>
    rw [List.cons_append, idxOf_cons_lt_iff, idxOf_cons_lt_iff, ih]
    by_cases hxa : x = a
    · simp [hxa]
    · by_cases hxb : x = b
      · simp [hxb]
      · simp [hxa, hxb, Ne.symm hxa, Ne.symm hxb]

/-- What is left of a list keeps its order. -/
theorem idxOf_filter_lt_iff {p : α → Bool} {as : List α} {a b : α} (ha : p a = true)
    (hb : p b = true) :
    (as.filter p).idxOf a < (as.filter p).idxOf b ↔ as.idxOf a < as.idxOf b := by
  induction as with
  | nil => simp
  | cons x as ih =>
    rw [List.filter_cons, idxOf_cons_lt_iff]
    split
    · rw [idxOf_cons_lt_iff, ih]
    · next hx =>
      have hxa : x ≠ a := fun h => hx (h ▸ ha)
      have hxb : x ≠ b := fun h => hx (h ▸ hb)
      simp [hxa, hxb, ih]

/-- What is listed again does not change what comes first. -/
theorem idxOf_eraseDups_lt_iff {as : List α} {a b : α} :
    as.eraseDups.idxOf a < as.eraseDups.idxOf b ↔ as.idxOf a < as.idxOf b := by
  induction hn : as.length using Nat.strongRecOn generalizing as with
  | _ k ih =>
    cases as with
    | nil => simp
    | cons x as =>
      rw [List.eraseDups_cons, idxOf_cons_lt_iff, idxOf_cons_lt_iff]
      refine and_congr_right fun hxb => or_congr_right' fun hxa => ?_
      have hlt : (as.filter fun c => !c == x).length < k := by
        rw [← hn, List.length_cons]
        exact Nat.lt_succ_of_le (List.length_filter_le _ _)
      rw [ih _ hlt rfl]
      exact idxOf_filter_lt_iff (by simpa using Ne.symm hxa) (by simpa using Ne.symm hxb)

/-- Of two elements that one comes first which comes first in the first part with any of them. -/
theorem idxOf_flatMap_lt_iff {f : β → List α} {ns : List β} {a b : α} :
    (ns.flatMap f).idxOf a < (ns.flatMap f).idxOf b ↔
      ∃ front n back, ns = front ++ n :: back ∧ (∀ m ∈ front, a ∉ f m ∧ b ∉ f m) ∧
        (f n).idxOf a < (f n).idxOf b := by
  induction ns with
  | nil => simp
  | cons n ns ih =>
    rw [List.flatMap_cons, idxOf_append_lt_iff, ih]
    constructor
    · rintro (h | ⟨ha, hb, front, m, back, rfl, hfront, h⟩)
      · exact ⟨[], n, ns, rfl, List.forall_mem_nil _, h⟩
      · exact ⟨n :: front, m, back, rfl, List.forall_mem_cons.mpr ⟨⟨ha, hb⟩, hfront⟩, h⟩
    · rintro ⟨front, m, back, hns, hfront, h⟩
      cases front with
      | nil =>
        obtain ⟨rfl, -⟩ := List.cons.inj hns
        exact Or.inl h
      | cons k front =>
        obtain ⟨rfl, rfl⟩ := List.cons.inj hns
        obtain ⟨⟨ha, hb⟩, hfront⟩ := List.forall_mem_cons.mp hfront
        exact Or.inr ⟨ha, hb, front, m, back, rfl, hfront, h⟩

theorem pairwise_idxOf {as : List α} (h : as.Nodup) :
    as.Pairwise fun a b => as.idxOf a < as.idxOf b := by
  rw [List.pairwise_iff_getElem]
  intro i j hi hj hij
  rwa [h.idxOf_getElem i hi, h.idxOf_getElem j hj]

/-- What comes first in a list in which all pairs are related is related to the other. -/
theorem rel_of_idxOf_lt {r : α → α → Prop} {as : List α} {a b : α} (h : as.Pairwise r)
    (hb : b ∈ as) (hlt : as.idxOf a < as.idxOf b) : r a b := by
  have hbound := List.idxOf_lt_length_of_mem hb
  have hrel := List.pairwise_iff_getElem.mp h _ _ (hlt.trans hbound) hbound hlt
  rwa [List.getElem_idxOf, List.getElem_idxOf] at hrel

/-- A list whose elements come in the order in which another one has them is a part of it. -/
theorem sublist_of_idxOf {as bs : List α} (has : as.Nodup) (hbs : bs.Nodup)
    (hsubset : ∀ b ∈ bs, b ∈ as)
    (h : ∀ a ∈ bs, ∀ b ∈ bs, bs.idxOf a < bs.idxOf b → as.idxOf a < as.idxOf b) :
    bs.Sublist as := by
  have hperm : bs.Perm (as.filter (bs.contains ·)) := by
    refine (List.perm_ext_iff_of_nodup hbs (has.filter _)).mpr fun b => ?_
    rw [List.mem_filter, List.contains_iff_mem]
    exact ⟨fun hb => ⟨hsubset b hb, hb⟩, And.right⟩
  have hpairwise : bs.Pairwise fun a b => as.idxOf a < as.idxOf b :=
    (pairwise_idxOf hbs).imp_of_mem fun ha hb => h _ ha _ hb
  have heq : bs = as.filter (bs.contains ·) :=
    hperm.eq_of_pairwise (fun _ _ _ _ hab hba => absurd hab (Nat.lt_asymm hba)) hpairwise
      ((pairwise_idxOf has).sublist List.filter_sublist)
  rw [heq]
  exact List.filter_sublist

/-! ## What the sort meets ahead -/

/-- The node is on a cycle or behind one. -/
def ReachedByCycle (edge : α → α → Prop) (n : α) : Prop :=
  ∃ c, Relation.TransGen edge c c ∧ Relation.ReflTransGen edge c n

/-- One node is met ahead of another one: an edge leads to it from a node that was inserted before
the other one and before all nodes that lead to that one. -/
def MetAhead (edge : α → α → Prop) (inserted : List α) (v u : α) : Prop :=
  ∃ m, edge m v ∧ inserted.idxOf m < inserted.idxOf u ∧
    ∀ p, edge p u → inserted.idxOf m < inserted.idxOf p

/-- All nodes, those that cycles reach behind the others.  Of two of these the later one stands in
front if and only if it is met ahead; where none is, they stand as they were inserted. -/
structure CyclesLast (edge : α → α → Prop) (inserted front back : List α) : Prop where
  perm : (front ++ back).Perm inserted
  mem : ∀ n, n ∈ back ↔ n ∈ inserted ∧ ReachedByCycle edge n
  swapped : ∀ u ∈ back, ∀ v ∈ back, inserted.idxOf u < inserted.idxOf v →
    (back.idxOf v < back.idxOf u ↔ MetAhead edge inserted v u)
  kept : back.Sublist inserted ↔ ∀ u ∈ back, ∀ v ∈ back,
    inserted.idxOf u < inserted.idxOf v → ¬ MetAhead edge inserted v u

namespace DependencyGraph

variable {edges : List (α × α)} {nodes : List α} {u v : α}

/-- The nodes as the sort meets them: each one and then its successors. -/
theorem nodes_successorLists (edges : List (α × α)) (nodes : List α) :
    (ofEdges edges nodes).successorLists.nodes =
      ((inserted edges nodes).flatMap fun n => n :: targets edges nodes n).eraseDups := by
  rw [Successors.nodes, successorLists_ofEdges, List.flatMap_map]

/-- What does not stand in front of a node, nor is it, stands behind it. -/
theorem idxOf_inserted_lt {front back : List α} {n x : α}
    (hsplit : inserted edges nodes = front ++ n :: back) (hx : x ∈ inserted edges nodes)
    (hfront : x ∉ front) (hne : x ≠ n) :
    (inserted edges nodes).idxOf n < (inserted edges nodes).idxOf x := by
  have hnodup := nodup_inserted edges nodes
  rw [hsplit] at hx hnodup ⊢
  have hback : x ∈ back :=
    (List.mem_cons.mp ((List.mem_append.mp hx).resolve_left hfront)).resolve_left hne
  exact Successors.idxOf_lt_of_mem hnodup hback

theorem mem_targets_of_idxOf_lt {n x y : α}
    (h : (targets edges nodes n).idxOf x < (targets edges nodes n).idxOf y) :
    x ∈ targets edges nodes n :=
  List.idxOf_lt_length_iff.mp (h.trans_le List.idxOf_le_length)

theorem metAhead_of_idxOf_met_lt (hu : u ∈ inserted edges nodes)
    (hlt : (inserted edges nodes).idxOf u < (inserted edges nodes).idxOf v)
    (h : (ofEdges edges nodes).successorLists.nodes.idxOf v <
      (ofEdges edges nodes).successorLists.nodes.idxOf u) :
    MetAhead (fun a b => (a, b) ∈ edges) (inserted edges nodes) v u := by
  rw [nodes_successorLists, idxOf_eraseDups_lt_iff] at h
  obtain ⟨front, n, back, hsplit, hfront, h⟩ := idxOf_flatMap_lt_iff.mp h
  obtain ⟨hnu, h⟩ := idxOf_cons_lt_iff.mp h
  have hufront : u ∉ front := fun hmem => (hfront u hmem).2 List.mem_cons_self
  have hun := idxOf_inserted_lt hsplit hu hufront (Ne.symm hnu)
  rcases h with rfl | h
  · exact absurd hun (by omega)
  have hvn := mem_targets_of_idxOf_lt h
  refine ⟨n, mem_targets.mp hvn, hun, fun p hp => ?_⟩
  have hpfront : p ∉ front := fun hmem =>
    (hfront p hmem).2 (List.mem_cons_of_mem _ (mem_targets.mpr hp))
  refine idxOf_inserted_lt hsplit (mem_inserted_of_edge hp).1 hpfront ?_
  rintro rfl
  -- Successors of one node are met as they were inserted
  have hpu : u ∈ targets edges nodes p := mem_targets.mpr hp
  have := (idxOf_filter_lt_iff (List.mem_filter.mp hvn).2 (List.mem_filter.mp hpu).2).mp h
  omega

theorem idxOf_met_lt_of_metAhead (hu : u ∈ inserted edges nodes) (hne : u ≠ v)
    (h : MetAhead (fun a b => (a, b) ∈ edges) (inserted edges nodes) v u) :
    (ofEdges edges nodes).successorLists.nodes.idxOf v <
      (ofEdges edges nodes).successorLists.nodes.idxOf u := by
  rw [nodes_successorLists, idxOf_eraseDups_lt_iff]
  obtain ⟨m, hmv, hmu, hm⟩ := h
  have hmet : u ∈ (inserted edges nodes).flatMap fun n => n :: targets edges nodes n :=
    List.mem_flatMap.mpr ⟨u, hu, List.mem_cons_self⟩
  by_contra hnot
  obtain ⟨front, n, back, hsplit, hfront, h⟩ := idxOf_flatMap_lt_iff.mp
    (Nat.lt_of_le_of_ne (Nat.not_lt.mp hnot) (mt (List.idxOf_inj hmet).mp hne))
  have hmn : (inserted edges nodes).idxOf m < (inserted edges nodes).idxOf n := by
    rcases (idxOf_cons_lt_iff.mp h).2 with rfl | h
    · exact hmu
    · exact hm n (mem_targets.mp (mem_targets_of_idxOf_lt h))
  have hmfront : m ∈ front := by
    by_contra hmfront
    have hmne : m ≠ n := by
      rintro rfl
      exact Nat.lt_irrefl _ hmn
    have := idxOf_inserted_lt hsplit (mem_inserted_of_edge hmv).1 hmfront hmne
    omega
  exact (hfront m hmfront).2 (List.mem_cons_of_mem _ (mem_targets.mpr hmv))

/-- The nodes that the sort is left with, as it met them. -/
def remainder (edges : List (α × α)) (nodes : List α) : List α :=
  (ofEdges edges nodes).successorLists.nodes.filter
    (!(ofEdges edges nodes).successorLists.placed.contains ·)

theorem evaluationOrder_ofEdges (edges : List (α × α)) (nodes : List α) :
    (ofEdges edges nodes).evaluationOrder =
      (ofEdges edges nodes).successorLists.placed ++ remainder edges nodes := rfl

/-- They are those that cycles reach. -/
theorem mem_remainder_iff : v ∈ remainder edges nodes ↔
    v ∈ inserted edges nodes ∧ ReachedByCycle (fun a b => (a, b) ∈ edges) v := by
  have hedge : Successors.Edge (ofEdges edges nodes).successorLists =
      fun a b => (a, b) ∈ edges := by
    funext a b
    exact propext edge_ofEdges
  have hbehind : ReachedByCycle (fun a b => (a, b) ∈ edges) v ↔
      Successors.BehindCycle (ofEdges edges nodes).successorLists v := by
    rw [Successors.BehindCycle, hedge]
    rfl
  have hplaced := Successors.mem_placed_iff (n := v) (nodup_keys_ofEdges edges nodes)
  rw [mem_nodes_ofEdges] at hplaced
  rw [remainder, List.mem_filter, mem_nodes_ofEdges, hbehind]
  simp only [List.contains_iff_mem, Bool.not_eq_true', ← Bool.not_eq_true, hplaced]
  tauto

theorem nodup_remainder (edges : List (α × α)) (nodes : List α) :
    (remainder edges nodes).Nodup := by
  have hperm := evaluationOrder_perm_inserted edges nodes
  rw [evaluationOrder_ofEdges] at hperm
  exact (List.nodup_append.mp (hperm.nodup_iff.mpr (nodup_inserted edges nodes))).2.1

/-- Of two of them the one that was inserted later stands in front just if it is met ahead. -/
theorem idxOf_remainder_lt_iff (hu : u ∈ remainder edges nodes) (hv : v ∈ remainder edges nodes)
    (hlt : (inserted edges nodes).idxOf u < (inserted edges nodes).idxOf v) :
    (remainder edges nodes).idxOf v < (remainder edges nodes).idxOf u ↔
      MetAhead (fun a b => (a, b) ∈ edges) (inserted edges nodes) v u := by
  have hins := (mem_remainder_iff.mp hu).1
  have hne : u ≠ v := by
    rintro rfl
    exact Nat.lt_irrefl _ hlt
  refine Iff.trans ?_ ⟨metAhead_of_idxOf_met_lt hins hlt, idxOf_met_lt_of_metAhead hins hne⟩
  exact idxOf_filter_lt_iff (List.mem_filter.mp hv).2 (List.mem_filter.mp hu).2

/-- They stand as they were inserted just if none is met ahead. -/
theorem remainder_sublist_iff : (remainder edges nodes).Sublist (inserted edges nodes) ↔
    ∀ u ∈ remainder edges nodes, ∀ v ∈ remainder edges nodes,
      (inserted edges nodes).idxOf u < (inserted edges nodes).idxOf v →
        ¬ MetAhead (fun a b => (a, b) ∈ edges) (inserted edges nodes) v u := by
  have hnodup := nodup_inserted edges nodes
  constructor
  · intro hsublist u hu v hv hlt hahead
    have := rel_of_idxOf_lt ((pairwise_idxOf hnodup).sublist hsublist) hu
      ((idxOf_remainder_lt_iff hu hv hlt).mpr hahead)
    omega
  · intro hnone
    refine sublist_of_idxOf hnodup (nodup_remainder edges nodes)
      (fun n hn => (mem_remainder_iff.mp hn).1) fun u hu v hv hlt => ?_
    -- Otherwise the one that was inserted earlier would have been swapped
    by_contra hnot
    have hne : (inserted edges nodes).idxOf v ≠ (inserted edges nodes).idxOf u := by
      intro heq
      obtain rfl := (List.idxOf_inj (mem_remainder_iff.mp hv).1).mp heq
      exact Nat.lt_irrefl _ hlt
    have hvu := Nat.lt_of_le_of_ne (Nat.not_lt.mp hnot) hne
    exact hnone v hv u hu hvu ((idxOf_remainder_lt_iff hv hu hvu).mp hlt)

/-- The nodes of which nothing waits, and then the nodes that cycles reach. -/
theorem cyclesLast_ofEdges (edges : List (α × α)) (nodes : List α) :
    CyclesLast (fun a b => (a, b) ∈ edges) (inserted edges nodes)
      (ofEdges edges nodes).successorLists.placed (remainder edges nodes) where
  perm := evaluationOrder_perm_inserted edges nodes
  mem _ := mem_remainder_iff
  swapped _ hu _ hv := idxOf_remainder_lt_iff hu hv
  kept := remainder_sublist_iff

end DependencyGraph

/-- The order of evaluation of a graph, and that of the outputs of a form, ends with the nodes on a
cycle and behind one.  Two of them stand as they were inserted, unless the later one is met ahead as
a target. -/
theorem evaluationOrder_ends (edges : List (α × α)) (nodes : List α) {ds : Dependencies}
    (hd : (ds.map (·.1)).Nodup) :
    (∃ front back, (DependencyGraph.ofEdges edges nodes).evaluationOrder = front ++ back ∧
      CyclesLast (fun u v => (u, v) ∈ edges)
        (nodes ++ edges.flatMap fun e => [e.1, e.2]).eraseDups front back) ∧
    ∃ front back, (LinkGraph.build ds).order = front ++ back ∧
      CyclesLast (fun u v => u ≠ v ∧ ds.Reads v u) (ds.map (·.1)) front back := by
  refine ⟨⟨_, _, DependencyGraph.evaluationOrder_ofEdges edges nodes,
    DependencyGraph.cyclesLast_ofEdges edges nodes⟩, ?_⟩
  have hlast := DependencyGraph.cyclesLast_ofEdges (LinkGraph.readEdges ds) (ds.map (·.1))
  have hinserted : DependencyGraph.inserted (LinkGraph.readEdges ds) (ds.map (·.1)) =
      ds.map (·.1) := LinkGraph.nodes_build hd
  have hedge : (fun u v => (u, v) ∈ LinkGraph.readEdges ds) = fun u v => u ≠ v ∧ ds.Reads v u := by
    funext u v
    exact propext (LinkGraph.mem_readEdges hd)
  rw [hinserted, hedge] at hlast
  exact ⟨_, _, DependencyGraph.evaluationOrder_ofEdges _ _, hlast⟩

/-- Three outputs, where the last two read each other and the last one reads the first one too. -/
def crossedOutputs : Dependencies := [("a", []), ("b", ["c"]), ("c", ["a", "b"])]

/-- The later one of the two is met ahead, as a reader of the first output. -/
theorem evaluationOrder_ends_crossed :
    (crossedOutputs.map (·.1)).Nodup ∧
      MetAhead (fun u v => u ≠ v ∧ crossedOutputs.Reads v u) ["a", "b", "c"] "c" "b" ∧
      (LinkGraph.build crossedOutputs).order = ["a", "c", "b"] ∧
      ∃ front back, (LinkGraph.build crossedOutputs).order = front ++ back ∧
        CyclesLast (fun u v => u ≠ v ∧ crossedOutputs.Reads v u) ["a", "b", "c"] front back := by
  refine ⟨by decide, ⟨"a", by decide +kernel, by decide, ?_⟩, by decide +kernel,
    (evaluationOrder_ends [] ([] : List String) (by decide)).2⟩
  rintro p ⟨-, hp⟩
  obtain rfl | rfl | rfl : p = "a" ∨ p = "b" ∨ p = "c" := by simpa [crossedOutputs] using hp.1
  · exact absurd hp (by decide +kernel)
  · decide
  · decide

/-- The edges between these outputs, from what is read to who reads it. -/
def crossedEdges : List (String × String) := [("a", "c"), ("b", "c"), ("c", "b")]

/-- The nodes on a cycle do not always stand in the order in which they were inserted. -/
theorem cycle_out_of_order :
    (∀ n, ReachedByCycle (fun u v => (u, v) ∈ crossedEdges) n ↔ n = "b" ∨ n = "c") ∧
      (DependencyGraph.ofEdges crossedEdges ["a", "b", "c"]).nodes = ["a", "b", "c"] ∧
      (DependencyGraph.ofEdges crossedEdges ["a", "b", "c"]).evaluationOrder = ["a", "c", "b"] ∧
      (LinkGraph.build crossedOutputs).order = ["a", "c", "b"] := by
  refine ⟨fun n => ⟨?_, ?_⟩, by decide +kernel⟩
  · rintro ⟨c, hcycle, hreached⟩
    -- An edge leads to each node that a cycle reaches
    obtain ⟨m, -, hm⟩ :=
      Relation.TransGen.tail'_iff.mp (Relation.TransGen.trans_left hcycle hreached)
    have hn : m = "a" ∧ n = "c" ∨ m = "b" ∧ n = "c" ∨ m = "c" ∧ n = "b" := by
      simpa [crossedEdges] using hm
    tauto
  · have hbc : Relation.TransGen (fun u v => (u, v) ∈ crossedEdges) "b" "c" := .single (by decide)
    have hcb : Relation.TransGen (fun u v => (u, v) ∈ crossedEdges) "c" "b" := .single (by decide)
    rintro (rfl | rfl)
    · exact ⟨"b", hbc.trans hcb, .refl⟩
    · exact ⟨"c", hcb.trans hbc, .refl⟩

end LiveForm
