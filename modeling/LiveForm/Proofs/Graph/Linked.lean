import LiveForm.Proofs.Graph.Link

/-!
# Links, edges and readers

Three things are found out about the outputs of a form, each by going through it in another way:
which outputs are linked, which edges lead from one to another, and who reads a variable.  They
agree.  What reads an output has an edge from it and is linked with it, links go both ways, and apart
from readers just those outputs are linked whose dependencies overlap.
-/

namespace LiveForm.LinkGraph

variable {ds : Dependencies} {u v : String}

theorem areLinked_iff {g : LinkGraph} : g.areLinked u v = true ↔ v ∈ g.peers u := by
  rw [areLinked, List.contains_iff_mem]

/-- What is no output of the form has no links. -/
theorem peers_of_not_mem (hu : u ∉ ds.map (·.1)) : (build ds).peers u = [] := by
  refine List.eq_nil_iff_forall_not_mem.mpr fun v hv => ?_
  rw [peers, build, mem_foldl_connect, lookup_map_pair, if_neg hu] at hv
  simp at hv

section

variable (hd : (ds.map (·.1)).Nodup)
include hd

/-- Two outputs are linked if one reads the other or their dependencies overlap. -/
theorem areLinked_build {a b : String × List String} (ha : a ∈ ds) (hb : b ∈ ds) (hne : a.1 ≠ b.1) :
    (build ds).areLinked a.1 b.1 = true ↔
      reads a.2 b.1 = true ∨ reads b.2 a.1 = true ∨ dependenciesOverlap a.2 b.2 = true := by
  have hrelated : related a b = true ↔
      reads a.2 b.1 = true ∨ reads b.2 a.1 = true ∨ dependenciesOverlap a.2 b.2 = true := by
    rw [related, Bool.or_eq_true, Bool.or_eq_true, or_assoc]
  rw [areLinked_iff, mem_peers hd ha, ← hrelated]
  constructor
  · rintro ⟨b', hb', he, -, h⟩
    obtain rfl := List.inj_on_of_nodup_map hd hb' hb he
    exact h
  · intro h
    exact ⟨b, hb, rfl, hne.symm, h⟩

theorem exists_of_areLinked (h : (build ds).areLinked u v = true) :
    ∃ a ∈ ds, ∃ b ∈ ds, a.1 = u ∧ b.1 = v ∧ u ≠ v ∧ related a b = true := by
  rw [areLinked_iff] at h
  by_cases hu : u ∈ ds.map (·.1)
  · obtain ⟨a, ha, rfl⟩ := List.mem_map.mp hu
    obtain ⟨b, hb, rfl, hne, hrelated⟩ := (mem_peers hd ha).mp h
    exact ⟨a, ha, b, hb, rfl, rfl, hne.symm, hrelated⟩
  · rw [peers_of_not_mem hu] at h
    cases h

theorem areLinked_symm (h : (build ds).areLinked u v = true) :
    (build ds).areLinked v u = true := by
  obtain ⟨a, ha, b, hb, rfl, rfl, hne, hrelated⟩ := exists_of_areLinked hd h
  rw [areLinked_iff, mem_peers hd hb]
  exact ⟨a, ha, rfl, hne, related_comm a b ▸ hrelated⟩

/-- What reads another output is linked with it. -/
theorem areLinked_of_reads (h : v ∈ (build ds).graph.successors u) :
    (build ds).areLinked u v = true := by
  obtain ⟨hne, hreads⟩ := (mem_successors_iff hd).mp h
  exact areLinked_iff.mpr (mem_peers_of_reads hd hreads hne)

/-- An edge leads from an output to each other one that reads it. -/
theorem mem_successors_iff_mem_dependentsOf (hu : u ∈ ds.map (·.1)) (hne : u ≠ v) :
    v ∈ (build ds).graph.successors u ↔ v ∈ (build ds).dependentsOf u := by
  rw [mem_successors_iff hd, mem_dependentsOf hd]
  constructor
  · rintro ⟨-, -, a, ha, rfl, h⟩
    exact ⟨a, ha, rfl, h⟩
  · rintro ⟨a, ha, rfl, h⟩
    exact ⟨hne, hu, a, ha, rfl, h⟩

/-- The links of a form, its edges, its order and its readers agree.  Links go both ways and none
leads from an output to itself; between two outputs there is an edge just if the second one is among
the readers of the first one, and then they are linked; two outputs are linked just if one reads the
other or their dependencies overlap; the order has every output once; and the readers of a variable
are the outputs with a dependency that covers it, as they stand in the order. -/
theorem links_agree :
    ((∀ u v, (build ds).areLinked u v = (build ds).areLinked v u) ∧
      ∀ u, (build ds).areLinked u u = false) ∧
    (∀ u ∈ ds.map (·.1), ∀ v ∈ ds.map (·.1), u ≠ v →
      (v ∈ (build ds).graph.successors u ↔ v ∈ (build ds).dependentsOf u) ∧
      (v ∈ (build ds).graph.successors u → (build ds).areLinked u v = true)) ∧
    (∀ a ∈ ds, ∀ b ∈ ds, a.1 ≠ b.1 → ((build ds).areLinked a.1 b.1 = true ↔
      reads a.2 b.1 = true ∨ reads b.2 a.1 = true ∨ dependenciesOverlap a.2 b.2 = true)) ∧
    (build ds).order.Perm (ds.map (·.1)) ∧
    ∀ v, ((build ds).dependentsOf v).Sublist (build ds).order ∧
      ∀ id, id ∈ (build ds).dependentsOf v ↔
        ∃ a ∈ ds, a.1 = id ∧ ∃ d ∈ a.2, matchesVariable d v = true := by
  refine ⟨⟨fun u v => ?_, fun u => ?_⟩, fun u hu v _ hne => ⟨?_, areLinked_of_reads hd⟩,
    fun a ha b hb => areLinked_build hd ha hb, order_perm hd, fun v => ⟨?_, fun id => ?_⟩⟩
  · exact Bool.eq_iff_iff.mpr ⟨areLinked_symm hd, areLinked_symm hd⟩
  · refine Bool.eq_false_iff.mpr fun h => ?_
    obtain ⟨-, -, -, -, -, -, hne, -⟩ := exists_of_areLinked hd h
    exact hne rfl
  · exact mem_successors_iff_mem_dependentsOf hd hu hne
  · exact List.filter_sublist
  · simp only [mem_dependentsOf hd, reads_iff]

end

/-- A family of rows, one of its rows, an output that reads both and one that shares a field with it. -/
def rowOutputs : Dependencies :=
  [("total", ["rows_?_amount", "fee"]), ("rows_1_amount", ["rows_1_qty"]),
    ("share", ["rows_1_amount", "total"]), ("charge", ["fee"])]

theorem links_agree_rows :
    (rowOutputs.map (·.1)).Nodup ∧
    (build rowOutputs).order = ["rows_1_amount", "charge", "total", "share"] ∧
    (build rowOutputs).dependentsOf "rows_1_amount" = ["total", "share"] ∧
    (build rowOutputs).areLinked "total" "charge" = true ∧
    (build rowOutputs).areLinked "charge" "total" = true ∧
    (build rowOutputs).areLinked "charge" "share" = false ∧
    (build rowOutputs).order.Perm (rowOutputs.map (·.1)) := by
  have hd : (rowOutputs.map (·.1)).Nodup := by decide
  obtain ⟨⟨hsymm, -⟩, -, -, hperm, -⟩ := links_agree hd
  have hlinked : (build rowOutputs).areLinked "total" "charge" = true := by decide +kernel
  exact ⟨hd, by decide +kernel, by decide +kernel, hlinked, hsymm "total" "charge" ▸ hlinked,
    by decide +kernel, hperm⟩

end LiveForm.LinkGraph
