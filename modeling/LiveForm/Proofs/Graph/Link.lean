import LiveForm.Graph.Link
import LiveForm.Proofs.Graph.Dependency
import LiveForm.Proofs.Overlap

/-!
# How the outputs hang together

The links of outputs with distinct ids say what the dependencies say: an edge leads from an output
to each other one that reads it, an output is linked with those it reads and those that read it, and
the order of evaluation puts what is read first if nothing reads itself.
-/

namespace LiveForm

variable {ds : Dependencies} {u v : String}

/-- An output of the form reads another one, or itself. -/
def Dependencies.Reads (ds : Dependencies) (v u : String) : Prop :=
  u ∈ ds.map (·.1) ∧ ∃ a ∈ ds, a.1 = v ∧ reads a.2 u = true

instance (ds : Dependencies) (v u : String) : Decidable (ds.Reads v u) :=
  inferInstanceAs (Decidable (u ∈ ds.map (·.1) ∧ ∃ a ∈ ds, a.1 = v ∧ reads a.2 u = true))

theorem Dependencies.Reads.mem (h : ds.Reads v u) : v ∈ ds.map (·.1) := by
  obtain ⟨-, a, ha, rfl, -⟩ := h
  exact List.mem_map_of_mem ha

/-- No output reads itself, also not by way of others. -/
def Dependencies.Acyclic (ds : Dependencies) : Prop := ∀ v, ¬ Relation.TransGen ds.Reads v v

theorem Dependencies.Acyclic.not_reads_self (h : ds.Acyclic) (v : String) : ¬ ds.Reads v v :=
  fun hv => h v (.single hv)

/-- Where each output ranks above those that it reads, none reads itself. -/
theorem Dependencies.acyclic_of_rank (rank : String → Nat)
    (h : ∀ a ∈ ds, ∀ u ∈ ds.map (·.1), reads a.2 u = true → rank u < rank a.1) : ds.Acyclic := by
  have hlt : ∀ v u, Relation.TransGen ds.Reads v u → rank u < rank v := by
    intro v u hvu
    induction hvu with
    | single hr =>
      obtain ⟨hu, a, ha, rfl, hr⟩ := hr
      exact h a ha _ hu hr
    | tail _ hr ih =>
      obtain ⟨hu, a, ha, rfl, hr⟩ := hr
      exact (h a ha _ hu hr).trans ih
  exact fun v hv => Nat.lt_irrefl _ (hlt v v hv)

namespace LinkGraph

/-! ## Edges -/

theorem mem_edgesWith {a : String × List String} {rest : Dependencies} :
    (u, v) ∈ edgesWith a rest ↔ ∃ b ∈ rest,
      (reads a.2 b.1 = true ∧ u = b.1 ∧ v = a.1) ∨ (reads b.2 a.1 = true ∧ u = a.1 ∧ v = b.1) := by
  rw [edgesWith, List.mem_flatMap]
  refine exists_congr fun b => and_congr_right fun _ => ?_
  rw [List.mem_append]
  refine or_congr ?_ ?_
  · split
    · next h => simp [h]
    · next h => simp [h]
  · split
    · next h => simp [h]
    · next h => simp [h]

/-- There is an edge for each output that reads another one. -/
theorem mem_readEdges (hd : (ds.map (·.1)).Nodup) :
    (u, v) ∈ readEdges ds ↔ u ≠ v ∧ ds.Reads v u := by
  induction ds with
  | nil => simp [readEdges, Dependencies.Reads]
  | cons a rest ih =>
    rw [List.map_cons] at hd
    obtain ⟨ha, hrest⟩ := List.nodup_cons.mp hd
    have hne : ∀ b ∈ rest, b.1 ≠ a.1 := fun b hb he => ha (he ▸ List.mem_map_of_mem hb)
    rw [readEdges, List.mem_append, mem_edgesWith, ih hrest]
    constructor
    · rintro (⟨b, hb, ⟨hr, rfl, rfl⟩ | ⟨hr, rfl, rfl⟩⟩ | ⟨huv, hu, b, hb, rfl, hr⟩)
      · exact ⟨hne b hb, List.mem_cons_of_mem _ (List.mem_map_of_mem hb), a, List.mem_cons_self,
          rfl, hr⟩
      · exact ⟨(hne b hb).symm, List.mem_cons_self, b, List.mem_cons_of_mem _ hb, rfl, hr⟩
      · exact ⟨huv, List.mem_cons_of_mem _ hu, b, List.mem_cons_of_mem _ hb, rfl, hr⟩
    · rintro ⟨huv, hu, b, hb, rfl, hr⟩
      rcases List.mem_cons.mp hb with rfl | hb
      · rcases List.mem_cons.mp hu with rfl | hu
        · exact absurd rfl huv
        · obtain ⟨c, hc, rfl⟩ := List.mem_map.mp hu
          exact Or.inl ⟨c, hc, Or.inl ⟨hr, rfl, rfl⟩⟩
      · rcases List.mem_cons.mp hu with rfl | hu
        · exact Or.inl ⟨b, hb, Or.inr ⟨hr, rfl, rfl⟩⟩
        · exact Or.inr ⟨huv, hu, b, hb, rfl, hr⟩

theorem mem_of_mem_readEdges (hd : (ds.map (·.1)).Nodup) (h : (u, v) ∈ readEdges ds) :
    u ∈ ds.map (·.1) ∧ v ∈ ds.map (·.1) := by
  obtain ⟨-, hu, a, ha, rfl, -⟩ := (mem_readEdges hd).mp h
  exact ⟨hu, List.mem_map_of_mem ha⟩

/-! ## Connecting outputs -/

theorem related_comm (a b : String × List String) : related a b = related b a := by
  rw [related, related, dependenciesOverlap_comm, Bool.or_comm (reads a.2 b.1)]

theorem lookup_addPeer (links : List (String × List String)) (id peer u : String) :
    (addPeer links id peer).lookup u =
      (links.lookup u).map fun peers => if u = id then peers ++ [peer] else peers :=
  lookup_map_at links id u (· ++ [peer])

/-- To connect two outputs adds each to what the other one is linked with. -/
theorem mem_connect (links : List (String × List String)) (pair : String × String) :
    ((connect links pair).lookup u).isSome = (links.lookup u).isSome ∧
    (v ∈ ((connect links pair).lookup u).getD [] ↔ v ∈ (links.lookup u).getD [] ∨
      (links.lookup u).isSome = true ∧ (pair = (u, v) ∨ pair = (v, u))) := by
  obtain ⟨a, b⟩ := pair
  rw [connect, lookup_addPeer, lookup_addPeer]
  cases links.lookup u with
  | none => simp
  | some peers =>
    simp only [Option.map_some, Option.isSome_some, Option.getD_some, Prod.mk.injEq, true_and]
    grind

theorem mem_foldl_connect {pairs : List (String × String)} {links : List (String × List String)} :
    v ∈ ((pairs.foldl connect links).lookup u).getD [] ↔ v ∈ (links.lookup u).getD [] ∨
      (links.lookup u).isSome = true ∧ ((u, v) ∈ pairs ∨ (v, u) ∈ pairs) := by
  induction pairs generalizing links with
  | nil => simp
  | cons pair pairs ih =>
    obtain ⟨hsome, hmem⟩ := mem_connect (u := u) (v := v) links pair
    rw [List.foldl_cons, ih, hsome, hmem]
    simp only [List.mem_cons, eq_comm (a := pair)]
    tauto

section

variable (hd : (ds.map (·.1)).Nodup)
include hd

/-- The nodes of the graph are the outputs. -/
theorem nodes_build : (build ds).graph.nodes = ds.map (·.1) := by
  have hends : ∀ x ∈ (readEdges ds).flatMap (fun e => [e.1, e.2]), x ∈ ds.map (·.1) := by
    intro x hx
    obtain ⟨e, he, hx⟩ := List.mem_flatMap.mp hx
    obtain ⟨h1, h2⟩ := mem_of_mem_readEdges hd he
    simp only [List.mem_cons, List.not_mem_nil, or_false] at hx
    rcases hx with rfl | rfl
    · exact h1
    · exact h2
  show (ds.map (·.1) ++ (readEdges ds).flatMap fun e => [e.1, e.2]).eraseDups = _
  have hrest : ((readEdges ds).flatMap fun e => [e.1, e.2]).removeAll (ds.map (·.1)) = [] := by
    rw [List.removeAll, List.filter_eq_nil_iff]
    intro x hx
    simpa using hends x hx
  rw [List.eraseDups_append, Successors.eraseDups_of_nodup hd, hrest, List.eraseDups_nil,
    List.append_nil]

/-- An edge leads from an output to those that read it. -/
theorem edge_iff : Successors.Edge (build ds).graph.successorLists u v ↔ u ≠ v ∧ ds.Reads v u :=
  DependencyGraph.edge_ofEdges.trans (mem_readEdges hd)

theorem mem_successors_iff : v ∈ (build ds).graph.successors u ↔ u ≠ v ∧ ds.Reads v u :=
  edge_iff hd

/-! ## The order of evaluation -/

/-- The order has each output once. -/
theorem order_perm : (build ds).order.Perm (ds.map (·.1)) := by
  rw [← nodes_build hd]
  exact DependencyGraph.evaluationOrder_perm_inserted (readEdges ds) _

/-- The readers of a variable are the outputs with a dependency that covers it. -/
theorem mem_dependentsOf : u ∈ (build ds).dependentsOf v ↔
    ∃ a ∈ ds, a.1 = u ∧ reads a.2 v = true := by
  have hlookup : ∀ a ∈ ds, (build ds).dependencies.lookup a.1 = some a.2 :=
    fun a ha => lookup_of_mem hd ha
  rw [dependentsOf, List.mem_filter, (order_perm hd).mem_iff, List.mem_map]
  constructor
  · rintro ⟨⟨a, ha, rfl⟩, hread⟩
    rw [hlookup a ha] at hread
    exact ⟨a, ha, rfl, hread⟩
  · rintro ⟨a, ha, rfl, hread⟩
    refine ⟨⟨a, ha, rfl⟩, ?_⟩
    rw [hlookup a ha]
    exact hread

theorem not_transGen_edge (h : ds.Acyclic) (n : String) :
    ¬ Relation.TransGen (Successors.Edge (build ds).graph.successorLists) n n := by
  intro hcycle
  refine h n (Relation.transGen_swap.mp ?_)
  exact Relation.TransGen.mono (fun a b hab => ((edge_iff hd).mp hab).2) n n hcycle

/-- Where no output reads itself, what is read comes first. -/
theorem order_ordered (h : ds.Acyclic) : (build ds).order.Pairwise fun a b => ¬ ds.Reads a b := by
  have hacyclic := not_transGen_edge hd h
  have hkeys : ((build ds).graph.successorLists.map (·.1)).Nodup :=
    DependencyGraph.nodup_keys_ofEdges (readEdges ds) _
  have horder : (build ds).order = (build ds).graph.successorLists.placed :=
    Successors.evaluationOrder_eq_placed hkeys hacyclic
  rw [horder]
  refine ((Successors.placed_ordered hkeys).and (Successors.nodup_placed hkeys)).imp ?_
  intro a b hab hreads
  exact hab.1 ((edge_iff hd).mpr ⟨Ne.symm hab.2, hreads⟩)

/-! ## Links -/

/-- There is a pair for each two outputs that are related. -/
theorem mem_relatedPairs : (u, v) ∈ relatedPairs ds ∨ (v, u) ∈ relatedPairs ds ↔
    u ≠ v ∧ ∃ a ∈ ds, ∃ b ∈ ds, a.1 = u ∧ b.1 = v ∧ related a b = true := by
  induction ds with
  | nil => simp [relatedPairs]
  | cons a rest ih =>
    rw [List.map_cons] at hd
    obtain ⟨ha, hrest⟩ := List.nodup_cons.mp hd
    have hne : ∀ b ∈ rest, b.1 ≠ a.1 := fun b hb he => ha (he ▸ List.mem_map_of_mem hb)
    have hfront : ∀ u v, (u, v) ∈ relatedPairs (a :: rest) ↔
        (u, v) ∈ relatedPairs rest ∨ ∃ b ∈ rest, a.1 = u ∧ b.1 = v ∧ related a b = true := by
      intro u v
      simp only [relatedPairs, List.mem_append, List.mem_map, List.mem_filter, Prod.mk.injEq]
      grind
    rw [hfront, hfront]
    constructor
    · rintro ((h | ⟨b, hb, rfl, rfl, h⟩) | h | ⟨b, hb, rfl, rfl, h⟩)
      · grind
      · exact ⟨(hne b hb).symm, a, by simp, b, by simp [hb], rfl, rfl, h⟩
      · grind
      · exact ⟨hne b hb, b, by simp [hb], a, by simp, rfl, rfl, related_comm a b ▸ h⟩
    · rintro ⟨huv, c, hc, b, hb, rfl, rfl, h⟩
      rcases List.mem_cons.mp hc with rfl | hcrest
      · rcases List.mem_cons.mp hb with rfl | hbrest
        · exact absurd rfl huv
        · exact Or.inl (Or.inr ⟨b, hbrest, rfl, rfl, h⟩)
      · rcases List.mem_cons.mp hb with rfl | hbrest
        · exact Or.inr (Or.inr ⟨c, hcrest, rfl, rfl, related_comm c b ▸ h⟩)
        · grind

/-- Two outputs are linked if they are related. -/
theorem mem_peers {a : String × List String} (ha : a ∈ ds) :
    v ∈ (build ds).peers a.1 ↔ ∃ b ∈ ds, b.1 = v ∧ b.1 ≠ a.1 ∧ related a b = true := by
  have hstart : ((ds.map (·.1)).map fun id => (id, ([] : List String))).lookup a.1 = some [] := by
    rw [lookup_map_pair, if_pos (List.mem_map_of_mem ha)]
  have hpeers : v ∈ (build ds).peers a.1 ↔
      (a.1, v) ∈ relatedPairs ds ∨ (v, a.1) ∈ relatedPairs ds := by
    rw [peers, build, mem_foldl_connect, hstart]
    simp
  rw [hpeers, mem_relatedPairs hd]
  constructor
  · rintro ⟨hne, a', ha', b, hb, he, rfl, h⟩
    obtain rfl := List.inj_on_of_nodup_map hd ha' ha he
    exact ⟨b, hb, rfl, hne.symm, h⟩
  · rintro ⟨b, hb, rfl, hne, h⟩
    exact ⟨hne.symm, a, ha, b, hb, rfl, rfl, h⟩

/-- An output is linked with the others that read it. -/
theorem mem_peers_of_reads (h : ds.Reads v u) (hne : u ≠ v) : v ∈ (build ds).peers u := by
  obtain ⟨hu, b, hb, rfl, hr⟩ := h
  obtain ⟨a, ha, rfl⟩ := List.mem_map.mp hu
  refine (mem_peers hd ha).mpr ⟨b, hb, rfl, Ne.symm hne, ?_⟩
  rw [related, hr, Bool.or_true, Bool.true_or]

/-- No output is linked with itself. -/
theorem not_mem_peers_self (hv : v ∈ ds.map (·.1)) : v ∉ (build ds).peers v := by
  obtain ⟨a, ha, rfl⟩ := List.mem_map.mp hv
  intro h
  obtain ⟨b, -, he, hne, -⟩ := (mem_peers hd ha).mp h
  exact hne he

end

end LinkGraph

end LiveForm
