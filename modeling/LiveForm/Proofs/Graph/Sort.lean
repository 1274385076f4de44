import LiveForm.Graph.Sort
import LiveForm.Proofs.Lookup
import Mathlib.Data.Finite.Defs
import Mathlib.Data.Set.Finite.List
import Mathlib.Data.List.Nodup
import Mathlib.Data.List.Perm.Subperm
import Mathlib.Logic.Relation
import Mathlib.Order.WellFounded
import Mathlib.Tactic.Common

/-!
# The topological order is one

The degrees count the edges from nodes without a place, and a node waits or has its place exactly
when none is left.  So every node is placed behind all that lead to it, and a node that is never
placed has a predecessor that is not placed either.
-/

namespace LiveForm.Successors

variable {α : Type} [DecidableEq α] {g : Successors α} {n m u : α} {ps : List α}

/-! ## Lists without repetition -/

theorem nodup_eraseDups (as : List α) : as.eraseDups.Nodup := by
  induction hn : as.length using Nat.strongRecOn generalizing as with
  | _ k ih =>
    cases as with
    | nil => exact List.nodup_nil
    | cons a as =>
      rw [List.eraseDups_cons]
      have hlt : (as.filter fun b => !b == a).length < k := by
        rw [← hn, List.length_cons]
        exact Nat.lt_succ_of_le (List.length_filter_le _ _)
      refine List.nodup_cons.mpr ⟨fun ha => ?_, ih _ hlt _ rfl⟩
      have hmem := (List.mem_filter.mp (List.mem_eraseDups.mp ha)).2
      simp at hmem

theorem eraseDups_of_nodup {as : List α} (h : as.Nodup) : as.eraseDups = as := by
  induction as with
  | nil => rfl
  | cons a as ih =>
    obtain ⟨ha, has⟩ := List.nodup_cons.mp h
    have hfilter : (as.filter fun b => !b == a) = as :=
      List.filter_eq_self.mpr fun b hb => by
        simpa using fun hba : b = a => ha (hba ▸ hb)
    rw [List.eraseDups_cons, hfilter, ih has]

/-! ## Edges -/

/-- The edge from one node to another. -/
def Edge (g : Successors α) (u n : α) : Prop := n ∈ g.of u

/-- The node is on a cycle or behind one: it is reached from a node that leads to itself. -/
def BehindCycle (g : Successors α) (n : α) : Prop :=
  ∃ c, Relation.TransGen (Edge g) c c ∧ Relation.ReflTransGen (Edge g) c n

theorem mem_nodes {n : α} : n ∈ g.nodes ↔ ∃ p ∈ g, n = p.1 ∨ n ∈ p.2 := by
  simp [nodes, List.mem_eraseDups]

theorem nodup_nodes (g : Successors α) : g.nodes.Nodup := nodup_eraseDups _

/-- The nodes that have successors are listed with them. -/
theorem mem_of_edge (h : Edge g u n) : ∃ p ∈ g, p.1 = u ∧ n ∈ p.2 := by
  unfold Edge Successors.of at h
  cases hl : g.lookup u with
  | none =>
    rw [hl] at h
    exact absurd h List.not_mem_nil
  | some ns =>
    rw [hl] at h
    exact ⟨(u, ns), mem_of_lookup hl, rfl, h⟩

theorem mem_nodes_of_edge (h : Edge g u n) : u ∈ g.nodes ∧ n ∈ g.nodes := by
  obtain ⟨p, hp, rfl, hn⟩ := mem_of_edge h
  exact ⟨mem_nodes.mpr ⟨p, hp, Or.inl rfl⟩, mem_nodes.mpr ⟨p, hp, Or.inr hn⟩⟩

/-! ## Edges from nodes without a place -/

/-- The targets of the edges from nodes that are not among these. -/
def remaining (g : Successors α) (ps : List α) : List α :=
  (g.filter fun p => !ps.contains p.1).flatMap (·.2)

theorem of_cons (p : α × List α) (g : Successors α) (n : α) :
    Successors.of (p :: g) n = if n == p.1 then p.2 else g.of n := by
  rw [Successors.of, List.lookup_cons]
  split
  · next h =>
    rw [if_pos h]
    rfl
  · next h =>
    rw [if_neg (by simp [h])]
    rfl

theorem remaining_cons (p : α × List α) (g : Successors α) (ps : List α) :
    remaining (p :: g) ps = (if ps.contains p.1 then [] else p.2) ++ remaining g ps := by
  unfold remaining
  rw [List.filter_cons]
  cases ps.contains p.1 with
  | true => rfl
  | false => rfl

theorem remaining_append_of_not_mem (h : ∀ p ∈ g, p.1 ≠ n) :
    remaining g (ps ++ [n]) = remaining g ps := by
  unfold remaining
  congr 1
  refine List.filter_congr fun p hp => ?_
  rw [List.contains_eq_mem, List.contains_eq_mem]
  simp [h p hp]

/-- Placing a node takes its edges away. -/
theorem count_remaining (hg : (g.map (·.1)).Nodup) (hn : n ∉ ps) (m : α) :
    (remaining g ps).count m = (remaining g (ps ++ [n])).count m + (g.of n).count m := by
  induction g with
  | nil => rfl
  | cons p g ih =>
    obtain ⟨hp, hg⟩ := List.nodup_cons.mp hg
    rw [remaining_cons, remaining_cons, of_cons, List.count_append, List.count_append]
    by_cases h : n = p.1
    · have hnot : ∀ q ∈ g, q.1 ≠ n := fun q hq hqn =>
        hp (List.mem_map.mpr ⟨q, hq, hqn.trans h⟩)
      have hps : ps.contains p.1 = false := by
        rw [List.contains_eq_mem, ← h]
        exact decide_eq_false hn
      have hps' : (ps ++ [n]).contains p.1 = true := by
        rw [List.contains_eq_mem, ← h]
        exact decide_eq_true (List.mem_append_right _ (List.mem_singleton_self n))
      rw [remaining_append_of_not_mem hnot, if_pos (beq_iff_eq.mpr h), hps, hps']
      simp only [Bool.false_eq_true, if_false, if_true, List.count_nil]
      omega
    · have hps : (ps ++ [n]).contains p.1 = ps.contains p.1 := by
        rw [List.contains_eq_mem, List.contains_eq_mem, decide_eq_decide, List.mem_append,
          List.mem_singleton]
        exact or_iff_left fun hp => h hp.symm
      have hbeq : ¬ (n == p.1) = true := by simpa using h
      rw [hps, if_neg hbeq, ih hg]
      omega

theorem edge_of_count (h : (remaining g ps).count n ≠ 0) :
    ∃ p ∈ g, p.1 ∉ ps ∧ n ∈ p.2 := by
  have hmem : n ∈ remaining g ps := by
    by_contra hn
    exact h (List.count_eq_zero.mpr hn)
  obtain ⟨p, hp, hn⟩ := List.mem_flatMap.mp hmem
  obtain ⟨hp, hps⟩ := List.mem_filter.mp hp
  exact ⟨p, hp, by simpa using hps, hn⟩

/-- A node to which no edge is left has all its predecessors placed. -/
theorem mem_of_count_eq_zero (h : (remaining g ps).count n = 0) (he : Edge g u n) : u ∈ ps := by
  obtain ⟨p, hp, rfl, hn⟩ := mem_of_edge he
  by_contra hu
  refine List.count_eq_zero.mp h (List.mem_flatMap.mpr ⟨p, List.mem_filter.mpr ⟨hp, ?_⟩, hn⟩)
  simpa using hu

/-! ## Releasing nodes -/

section

variable {d : Degrees α} {ns : List α}

theorem lookup_decrease (d : Degrees α) (n m : α) :
    (d.decrease n).lookup m = if m = n then (d.lookup m).map (· - 1) else d.lookup m := by
  induction d with
  | nil => simp [Degrees.decrease]
  | cons p d ih =>
    obtain ⟨k, c⟩ := p
    rw [Degrees.decrease] at ih ⊢
    rw [List.map_cons]
    by_cases hk : k = n
    · subst hk
      rw [if_pos (by simp), List.lookup_cons, List.lookup_cons, ih]
      by_cases hm : m = k
      · subst hm
        simp
      · rw [beq_eq_false_iff_ne.mpr hm]
    · rw [if_neg (by simpa using hk), List.lookup_cons, List.lookup_cons, ih]
      by_cases hm : m = k
      · subst hm
        simp [hk]
      · rw [beq_eq_false_iff_ne.mpr hm]

/-- Releasing takes one off a degree for each edge. -/
theorem lookup_release (m : α) :
    (d.release ns).1.lookup m = (d.lookup m).map (· - ns.count m) := by
  induction ns generalizing d with
  | nil => exact Option.map_id'.symm
  | cons n ns ih =>
    rw [Degrees.release]
    dsimp only
    rw [ih, lookup_decrease]
    by_cases hm : m = n
    · rw [if_pos hm, hm, List.count_cons_self, Option.map_map]
      refine Option.map_congr fun k _ => ?_
      rw [Function.comp_apply]
      omega
    · rw [if_neg hm, List.count_cons_of_ne (Ne.symm hm)]

/-- No node has more edges to be released than its degree says. -/
def Covers (d : Degrees α) (ns : List α) : Prop :=
  ∀ m k, d.lookup m = some k → ns.count m ≤ k

theorem Covers.decrease {n : α} (h : Covers d (n :: ns)) : Covers (d.decrease n) ns := by
  intro m k hk
  rw [lookup_decrease] at hk
  split at hk
  · next hm =>
    subst hm
    obtain ⟨k', hk', rfl⟩ := Option.map_eq_some_iff.mp hk
    have := h m k' hk'
    rw [List.count_cons_self] at this
    omega
  · next hm =>
    have := h m k hk
    rwa [List.count_cons_of_ne (Ne.symm hm)] at this

/-- It frees the nodes whose last edge goes. -/
theorem mem_release (h : Covers d ns) {m : α} :
    m ∈ (d.release ns).2 ↔ m ∈ ns ∧ d.lookup m = some (ns.count m) := by
  induction ns generalizing d with
  | nil =>
    rw [Degrees.release]
    simp
  | cons n ns ih =>
    have hih := ih h.decrease
    rw [lookup_decrease] at hih
    have hstep : m ∈ (d.release (n :: ns)).2 ↔
        (m = n ∧ (d.decrease n).lookup n = some 0) ∨ m ∈ ((d.decrease n).release ns).2 := by
      rw [Degrees.release]
      dsimp only
      split
      · next hzero => rw [List.mem_cons, and_iff_left (beq_iff_eq.mp hzero)]
      · next hzero => rw [or_iff_right fun hm => hzero (beq_iff_eq.mpr hm.2)]
    rw [hstep, hih, lookup_decrease, if_pos rfl, List.mem_cons]
    by_cases hm : m = n
    · subst hm
      rw [if_pos rfl, List.count_cons_self]
      cases hk : d.lookup m with
      | none => simp
      | some k =>
        have hcount := h m k hk
        have hpos : m ∈ ns ↔ 0 < ns.count m := List.count_pos_iff.symm
        rw [List.count_cons_self] at hcount
        simp only [true_and, true_or, Option.map_some, Option.some.injEq, hpos]
        omega
    · rw [if_neg hm, List.count_cons_of_ne (Ne.symm hm)]
      simp only [hm, false_and, false_or]

/-- It frees each of them once. -/
theorem nodup_release (h : Covers d ns) : (d.release ns).2.Nodup := by
  induction ns generalizing d with
  | nil => exact List.nodup_nil
  | cons n ns ih =>
    rw [Degrees.release]
    dsimp only
    split
    · next hzero =>
      refine List.nodup_cons.mpr ⟨fun hm => ?_, ih h.decrease⟩
      obtain ⟨hmem, hlookup⟩ := (mem_release h.decrease).mp hm
      rw [beq_iff_eq.mp hzero] at hlookup
      have := List.count_pos_iff.mpr hmem
      rw [← Option.some.inj hlookup] at this
      omega
    · exact ih h.decrease

end

/-! ## Placing nodes -/

/-- The state of the sort: the nodes placed, the degrees, and the nodes that wait. -/
structure Good (g : Successors α) (ps : List α) (d : Degrees α) (waiting : List α) : Prop where
  nodup : (ps ++ waiting).Nodup
  degrees : ∀ m, d.lookup m = if m ∈ g.nodes then some ((remaining g ps).count m) else none
  /-- The nodes to which no edge is left are those that are placed or wait. -/
  free : ∀ m, m ∈ ps ++ waiting ↔ m ∈ g.nodes ∧ (remaining g ps).count m = 0
  ordered : ps.Pairwise fun a b => ¬ Edge g b a
  loopless : ∀ m ∈ ps, ¬ Edge g m m

theorem Good.length_le {d : Degrees α} {waiting : List α} (h : Good g ps d waiting) :
    ps.length + waiting.length ≤ g.nodes.length := by
  rw [← List.length_append]
  exact (List.subperm_of_subset h.nodup fun m hm => ((h.free m).mp hm).1).length_le

theorem Good.place {d : Degrees α} {waiting : List α} (hg : (g.map (·.1)).Nodup)
    (h : Good g ps d (n :: waiting)) :
    Good g (ps ++ [n]) (d.release (g.of n)).1 (waiting ++ (d.release (g.of n)).2) := by
  have hn : n ∉ ps := fun hn =>
    (List.nodup_append.mp h.nodup).2.2 n hn n List.mem_cons_self rfl
  have hcount := count_remaining hg hn
  have hnodes : ∀ m ∈ g.of n, m ∈ g.nodes := fun m hm => (mem_nodes_of_edge hm).2
  have hdegree : ∀ m ∈ g.of n, d.lookup m = some ((remaining g ps).count m) :=
    fun m hm => by rw [h.degrees, if_pos (hnodes m hm)]
  have hcovers : Covers d (g.of n) := by
    intro m k hk
    rw [h.degrees] at hk
    split at hk
    · cases hk
      rw [hcount m]
      exact Nat.le_add_left _ _
    · cases hk
  have hnodup := nodup_release hcovers
  have hmem : ∀ m, m ∈ (d.release (g.of n)).2 ↔
      m ∈ g.of n ∧ (remaining g ps).count m = (g.of n).count m := by
    intro m
    rw [mem_release hcovers]
    refine and_congr_right fun hm => ?_
    rw [hdegree m hm, Option.some.injEq]
  -- Nothing that has its place or waits is freed again
  have hfresh : ∀ m ∈ ps ++ n :: waiting, m ∉ (d.release (g.of n)).2 := by
    intro m hm hfree
    have hin := (hmem m).mp hfree
    have hpos := List.count_pos_iff.mpr hin.1
    have := ((h.free m).mp hm).2
    omega
  refine ⟨?_, fun m => ?_, fun m => ?_, ?_, fun m hm => ?_⟩
  · rw [List.append_assoc, List.singleton_append, ← List.cons_append, ← List.append_assoc]
    refine List.nodup_append.mpr ⟨h.nodup, hnodup, ?_⟩
    rintro a ha b hb rfl
    exact hfresh a ha hb
  · rw [lookup_release, h.degrees]
    split
    · rw [Option.map_some, hcount m, Nat.add_sub_cancel]
    · rfl
  · rw [List.append_assoc, List.singleton_append, ← List.cons_append, ← List.append_assoc,
      List.mem_append, h.free, hmem]
    have hc := hcount m
    constructor
    · rintro (⟨hm, h0⟩ | ⟨hm, h0⟩)
      · exact ⟨hm, by omega⟩
      · exact ⟨hnodes m hm, by omega⟩
    · rintro ⟨hm, h0⟩
      by_cases hin : m ∈ g.of n
      · exact Or.inr ⟨hin, by omega⟩
      · rw [List.count_eq_zero.mpr hin] at hc
        exact Or.inl ⟨hm, by omega⟩
  · refine List.pairwise_append.mpr ⟨h.ordered, List.pairwise_singleton _ _, ?_⟩
    intro a ha b hb hedge
    rw [List.mem_singleton.mp hb] at hedge
    have hfree := ((h.free a).mp (List.mem_append_left _ ha)).2
    exact hn (mem_of_count_eq_zero hfree hedge)
  · rcases List.mem_append.mp hm with hm | hm
    · exact h.loopless m hm
    · intro hedge
      rw [List.mem_singleton.mp hm] at hedge
      have hfree := ((h.free n).mp (List.mem_append_right _ List.mem_cons_self)).2
      exact hn (mem_of_count_eq_zero hfree hedge)

theorem good_place {d : Degrees α} {waiting : List α} {fuel : Nat} (hg : (g.map (·.1)).Nodup)
    (h : Good g ps d waiting) (hfuel : g.nodes.length ≤ ps.length + fuel) :
    ∃ d', Good g (ps ++ place g fuel d waiting) d' [] := by
  induction fuel generalizing ps d waiting with
  | zero =>
    have hlen := h.length_le
    have hnil : waiting = [] := List.length_eq_zero_iff.mp (by omega)
    subst hnil
    rw [Successors.place, List.append_nil]
    exact ⟨d, h⟩
  | succ fuel ih =>
    cases waiting with
    | nil =>
      rw [Successors.place, List.append_nil]
      exact ⟨d, h⟩
    | cons n waiting =>
      rw [Successors.place]
      dsimp only
      obtain ⟨d', hd'⟩ := ih (h.place hg) (by
        rw [List.length_append, List.length_singleton]
        omega)
      rw [List.append_assoc, List.singleton_append] at hd'
      exact ⟨d', hd'⟩

theorem remaining_nil (g : Successors α) : remaining g [] = g.flatMap (·.2) := by
  have hall : (g.filter fun p => !([] : List α).contains p.1) = g :=
    List.filter_eq_self.mpr fun _ _ => rfl
  rw [remaining, hall]

theorem good_start (g : Successors α) :
    Good g [] g.degrees ((g.degrees.filter (·.2 == 0)).map (·.1)) := by
  have hmap : (g.degrees.filter (·.2 == 0)).map (·.1) =
      g.nodes.filter fun n => (g.flatMap (·.2)).count n == 0 := by
    rw [degrees, List.filter_map, List.map_map]
    exact List.map_id _
  rw [hmap]
  refine ⟨(nodup_nodes g).filter _, fun m => ?_, fun m => ?_, List.Pairwise.nil,
    List.forall_mem_nil _⟩
  · rw [remaining_nil]
    exact lookup_map_pair
  · rw [remaining_nil, List.nil_append, List.mem_filter, beq_iff_eq]

/-- The sort ends with nothing waiting. -/
theorem good_placed (hg : (g.map (·.1)).Nodup) : ∃ d, Good g g.placed d [] :=
  good_place hg (good_start g) (by simp)

section

variable (hg : (g.map (·.1)).Nodup)
include hg

theorem nodup_placed : g.placed.Nodup := by
  obtain ⟨d, h⟩ := good_placed hg
  simpa using h.nodup

/-- No node is placed before one that leads to it. -/
theorem placed_ordered : g.placed.Pairwise fun a b => ¬ Edge g b a := by
  obtain ⟨d, h⟩ := good_placed hg
  exact h.ordered

theorem mem_nodes_of_mem_placed (hn : n ∈ g.placed) : n ∈ g.nodes := by
  obtain ⟨d, h⟩ := good_placed hg
  exact ((h.free n).mp (by simpa using hn)).1

theorem not_edge_self_of_mem_placed (hn : n ∈ g.placed) : ¬ Edge g n n := by
  obtain ⟨d, h⟩ := good_placed hg
  exact h.loopless n hn

/-- All that leads to a node that is placed is placed. -/
theorem mem_placed_of_edge (hn : n ∈ g.placed) (he : Edge g u n) : u ∈ g.placed := by
  obtain ⟨d, h⟩ := good_placed hg
  exact mem_of_count_eq_zero ((h.free n).mp (by simpa using hn)).2 he

/-- Something that is not placed leads to a node that is not placed. -/
theorem exists_edge_of_not_mem_placed (hn : n ∈ g.nodes) (hp : n ∉ g.placed) :
    ∃ u, u ∉ g.placed ∧ Edge g u n := by
  obtain ⟨d, h⟩ := good_placed hg
  have hcount : (remaining g g.placed).count n ≠ 0 := fun h0 =>
    hp (by simpa using (h.free n).mpr ⟨hn, h0⟩)
  obtain ⟨p, hpg, hps, hnp⟩ := edge_of_count hcount
  refine ⟨p.1, hps, ?_⟩
  unfold Edge Successors.of
  rw [lookup_of_mem hg hpg]
  exact hnp

/-- A node is placed unless it is on a cycle or behind one. -/
theorem mem_placed_of_not_behindCycle (hn : n ∈ g.nodes) (hb : ¬ BehindCycle g n) :
    n ∈ g.placed := by
  -- On the nodes in question, which are finitely many, "leads to" is well-founded
  let R : { n // n ∈ g.nodes ∧ ¬ BehindCycle g n } → { n // n ∈ g.nodes ∧ ¬ BehindCycle g n } →
    Prop := fun a b => Relation.TransGen (Edge g) a.1 b.1
  have htrans : IsTrans _ R := ⟨fun _ _ _ h h' => h.trans h'⟩
  have hirrefl : Std.Irrefl R := ⟨fun a h => a.2.2 ⟨a.1, h, .refl⟩⟩
  have hfinite : Finite { n // n ∈ g.nodes ∧ ¬ BehindCycle g n } :=
    (List.finite_toSet g.nodes).subset fun _ h => h.1
  have hwf : WellFounded R := Finite.wellFounded_of_trans_of_irrefl R
  suffices h : ∀ a : { n // n ∈ g.nodes ∧ ¬ BehindCycle g n }, a.1 ∈ g.placed from h ⟨n, hn, hb⟩
  intro a
  induction a using hwf.induction with
  | _ a ih =>
    by_contra hp
    obtain ⟨u, hu, hedge⟩ := exists_edge_of_not_mem_placed hg a.2.1 hp
    have hfree : ¬ BehindCycle g u := fun ⟨c, hc, hcu⟩ => a.2.2 ⟨c, hc, hcu.tail hedge⟩
    exact hu (ih ⟨u, (mem_nodes_of_edge hedge).1, hfree⟩ (.single hedge))

/-- In a graph without a cycle every node is placed. -/
theorem mem_placed_of_acyclic (hacyclic : ∀ n, ¬ Relation.TransGen (Edge g) n n)
    (hn : n ∈ g.nodes) : n ∈ g.placed :=
  mem_placed_of_not_behindCycle hg hn fun ⟨c, hc, _⟩ => hacyclic c hc

theorem evaluationOrder_perm : g.evaluationOrder.Perm g.nodes := by
  rw [evaluationOrder]
  have hsub : g.nodes.filter (g.placed.contains ·) |>.Perm g.placed := by
    refine (List.perm_ext_iff_of_nodup ((nodup_nodes g).filter _) (nodup_placed hg)).mpr ?_
    intro m
    rw [List.mem_filter, List.contains_iff_mem]
    exact and_iff_right_of_imp fun hm => mem_nodes_of_mem_placed hg hm
  exact (hsub.symm.append_right _).trans (List.filter_append_perm _ _)

/-- In a graph without a cycle the order of evaluation is the topological order. -/
theorem evaluationOrder_eq_placed (hacyclic : ∀ n, ¬ Relation.TransGen (Edge g) n n) :
    g.evaluationOrder = g.placed := by
  rw [evaluationOrder, List.filter_eq_nil_iff.mpr, List.append_nil]
  intro m hm
  simpa using mem_placed_of_acyclic hg hacyclic hm

end

end LiveForm.Successors
