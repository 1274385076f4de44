import LiveForm.Proofs.Form.Registry
import Mathlib.Data.List.Forall2

/-!
# Declarations that are read again

A registry that has read the declarations has a node for each one, in their order, and each node
suits its declaration.  Reading the same declarations again changes nothing.
-/

namespace LiveForm

namespace OutputNode

variable {n : OutputNode} {spec : OutputSpec}

/-- The node is as the declaration has it. -/
structure Suits (n : OutputNode) (spec : OutputSpec) : Prop where
  id_eq : n.id = variableName spec.id
  computation : n.sameComputation (ofSpec spec) = true
  attributes : n.sameAttributes (ofSpec spec) = true

instance : Decidable (n.Suits spec) :=
  decidable_of_iff (n.id = variableName spec.id ∧ n.sameComputation (ofSpec spec) = true ∧
      n.sameAttributes (ofSpec spec) = true)
    ⟨fun ⟨hid, hcomputation, hattributes⟩ => ⟨hid, hcomputation, hattributes⟩,
      fun h => ⟨h.id_eq, h.computation, h.attributes⟩⟩

/-- Declaring a node again as it is changes nothing. -/
theorem Suits.redeclare (h : n.Suits spec) : n.redeclare spec = (n, false) := by
  have hattributes := h.attributes
  unfold OutputNode.redeclare
  dsimp only
  rw [if_pos h.computation, hattributes]
  simp only [sameAttributes, Bool.and_eq_true, beq_iff_eq] at hattributes
  obtain ⟨⟨⟨⟨⟨hfield, hformat⟩, happly⟩, hskip⟩, htriggers⟩, hscope⟩ := hattributes
  rw [← hfield, ← hformat, ← happly, ← hskip, ← htriggers, ← hscope]
  rfl

theorem sameComputation_of_eq {m : OutputNode} (he : n.expression = m.expression)
    (hd : n.dependencies = m.dependencies) : n.sameComputation m = true := by
  have hall : m.dependencies.all m.dependencies.contains = true :=
    List.all_eq_true.mpr fun v hv => List.contains_iff_mem.mpr hv
  rw [sameComputation, he, beq_self_eq_true, sameDependencies, hd, hall]
  rfl

theorem Suits.format (h : n.Suits spec) : n.format = spec.format := by
  have hattributes := h.attributes
  simp only [sameAttributes, Bool.and_eq_true, beq_iff_eq] at hattributes
  exact hattributes.1.1.1.1.2

theorem Suits.autoApply (h : n.Suits spec) : n.autoApply = spec.autoApply := by
  have hattributes := h.attributes
  simp only [sameAttributes, Bool.and_eq_true, beq_iff_eq] at hattributes
  exact hattributes.1.1.1.2

/-- A node whose memory another one resumes is computed as that one is declared. -/
theorem Resumes.sameComputation {m : OutputNode} (h : m.Resumes n) (hm : m.Suits spec) :
    n.sameComputation (ofSpec spec) = true := by
  have hsame := hm.computation
  unfold OutputNode.sameComputation sameDependencies at hsame ⊢
  rw [← h.expression, ← h.dependencies]
  exact hsame

theorem suits_ofSpec (spec : OutputSpec) (serial : Nat) :
    Suits { ofSpec spec with serial } spec where
  id_eq := rfl
  computation := sameComputation_of_eq rfl rfl
  attributes := by simp [sameAttributes]

theorem suits_redeclare (h : n.id = variableName spec.id) : (n.redeclare spec).1.Suits spec := by
  have hid : (n.redeclare spec).1.id = variableName spec.id := (redeclare_id n spec).trans h
  unfold OutputNode.redeclare at hid ⊢
  dsimp only at hid ⊢
  split at hid
  · next hsame =>
    rw [if_pos hsame]
    exact ⟨hid, hsame, by simp [sameAttributes]⟩
  · next hsame =>
    rw [if_neg hsame]
    exact ⟨hid, sameComputation_of_eq rfl rfl, by simp [sameAttributes]⟩

end OutputNode

namespace Registry

variable {r : Registry} {n : OutputNode} {spec : OutputSpec} {specs : List OutputSpec}

theorem put_of_unknown {nodes : List OutputNode} (h : n.id ∉ nodes.map (·.id)) :
    put nodes n = nodes ++ [n] := by
  have hany : ¬ nodes.any (·.id == n.id) = true := fun hn => h (by simpa using hn)
  rw [put, if_neg hany]

theorem put_of_mem (h : r.ids.Nodup) (hn : n ∈ r.nodes) : put r.nodes n = r.nodes := by
  have hany : r.nodes.any (·.id == n.id) = true := List.any_eq_true.mpr ⟨n, hn, beq_self_eq_true _⟩
  have hsame : ∀ m ∈ r.nodes, (if m.id == n.id then n else m) = m := by
    intro m hm
    split
    · next hid => exact eq_of_mem h hn hm (beq_iff_eq.mp hid).symm
    · rfl
  rw [put, if_pos hany, List.map_congr_left hsame, List.map_id']

/-- A node that suits its declaration is taken over as it is. -/
theorem Sync.add_of_suits (h : r.ids.Nodup) (hn : n ∈ r.nodes) (hsuits : n.Suits spec)
    {s : Sync} (hold : s.old = r.nodes) (hnew : n.id ∉ s.new.map (·.id)) :
    s.add spec = { s with new := s.new ++ [n] } := by
  have hfind : s.old.find? (·.id == variableName spec.id) = some n := by
    rw [hold, ← hsuits.id_eq]
    exact find?_of_mem h hn
  have hany : ¬ s.new.any (·.id == variableName spec.id) = true := fun hn => hnew (by
    rw [hsuits.id_eq]
    simpa using hn)
  unfold Sync.add
  dsimp only
  rw [if_neg hany, hfind]
  dsimp only
  rw [hsuits.redeclare, put_of_unknown hnew, hold, put_of_mem h hn, ← hold]
  rfl

/-! ## Which declaration counts -/

/-- The declaration of an id: of several the last one. -/
def declaration? (specs : List OutputSpec) (id : String) : Option OutputSpec :=
  (specs.filter (variableName ·.id == id)).getLast?

theorem declaration?_append_self (specs : List OutputSpec) (spec : OutputSpec) :
    declaration? (specs ++ [spec]) (variableName spec.id) = some spec := by
  have hfilter : [spec].filter (variableName ·.id == variableName spec.id) = [spec] := by simp
  rw [declaration?, List.filter_append, hfilter, List.getLast?_append]
  rfl

theorem declaration?_append_of_ne {id : String} (h : id ≠ variableName spec.id) :
    declaration? (specs ++ [spec]) id = declaration? specs id := by
  have hfilter : [spec].filter (variableName ·.id == id) = [] := by simp [Ne.symm h]
  rw [declaration?, List.filter_append, hfilter, List.append_nil]
  rfl

/-- When the declarations were read each node suits the one that counts. -/
theorem suits_declaration (r : Registry) (specs : List OutputSpec) :
    ∀ n ∈ (r.sync specs).1.nodes, ∃ spec, declaration? specs n.id = some spec ∧ n.Suits spec := by
  suffices hall : ∀ (todo done : List OutputSpec) (s : Sync),
      (∀ n ∈ s.new, ∃ spec, declaration? done n.id = some spec ∧ n.Suits spec) →
      ∀ n ∈ (todo.foldl Sync.add s).new,
        ∃ spec, declaration? (done ++ todo) n.id = some spec ∧ n.Suits spec from
    hall specs [] { old := r.nodes, nextSerial := r.nextSerial }
      fun _ hn => absurd hn List.not_mem_nil
  intro todo
  induction todo with
  | nil =>
    intro done s hs
    rw [List.append_nil]
    exact hs
  | cons spec todo ih =>
    intro done s hs
    rw [List.append_cons]
    refine ih (done ++ [spec]) (s.add spec) ?_
    have hput : ∀ {n : OutputNode}, n.Suits spec → ∀ m ∈ put s.new n,
        ∃ spec', declaration? (done ++ [spec]) m.id = some spec' ∧ m.Suits spec' := by
      intro n hn m hm
      rcases mem_put_cases hm with rfl | ⟨hm, hne⟩
      · exact ⟨spec, hn.id_eq ▸ declaration?_append_self done spec, hn⟩
      -- The later declaration is another one's
      · rw [declaration?_append_of_ne (hn.id_eq ▸ hne)]
        exact hs m hm
    rcases s.add_cases spec with ⟨-, -, hnew⟩ | ⟨n, hf, -, hnew⟩
    · rw [hnew]
      exact hput (OutputNode.suits_ofSpec spec _)
    · rw [hnew]
      exact hput (OutputNode.suits_redeclare (by simpa using List.find?_some hf))

/-! ## Reading the same declarations again -/

/-- What suits the declarations is left as it is when they are read again. -/
theorem sync_of_suits (h : r.ids.Nodup) (hs : List.Forall₂ OutputNode.Suits r.nodes specs) :
    r.sync specs = (r, {}, []) := by
  suffices hall : ∀ (done todo : List OutputNode) (specs : List OutputSpec),
      r.nodes = done ++ todo → List.Forall₂ OutputNode.Suits todo specs →
      specs.foldl Sync.add { old := r.nodes, new := done, nextSerial := r.nextSerial } =
        { old := r.nodes, new := r.nodes, nextSerial := r.nextSerial } by
    unfold sync
    dsimp only
    rw [hall [] r.nodes specs rfl hs]
    have hremoved : r.ids.filter (fun id => !r.nodes.any (·.id == id)) = [] := by
      refine List.filter_eq_nil_iff.mpr fun id hid => ?_
      obtain ⟨n, hn, rfl⟩ := List.mem_map.mp hid
      have hany : r.nodes.any (·.id == n.id) = true :=
        List.any_eq_true.mpr ⟨n, hn, beq_self_eq_true _⟩
      rw [hany]
      exact Bool.false_ne_true
    dsimp only
    rw [hremoved]
  -- The nodes are taken over one after another
  intro done todo
  induction todo generalizing done with
  | nil =>
    intro specs hnodes hsuits
    cases hsuits
    rw [List.append_nil] at hnodes
    rw [List.foldl_nil, hnodes]
  | cons n todo ih =>
    intro specs hnodes hsuits
    cases hsuits with
    | @cons _ spec _ specs hn hrest =>
      have hmem : n ∈ r.nodes := by
        rw [hnodes]
        exact List.mem_append_right _ List.mem_cons_self
      have hnew : n.id ∉ done.map (·.id) := by
        have hids := h
        rw [ids, hnodes, List.map_append, List.map_cons] at hids
        exact fun hid => (List.nodup_append.mp hids).2.2 _ hid _ List.mem_cons_self rfl
      rw [List.foldl_cons, Sync.add_of_suits h hmem hn rfl hnew]
      exact ih (done ++ [n]) specs (by rw [hnodes, List.append_assoc]; rfl) hrest

/-- Where the declarations have distinct ids, each node suits its own when they were read. -/
theorem suits_sync (hd : (specs.map fun spec => variableName spec.id).Nodup) :
    List.Forall₂ OutputNode.Suits (r.sync specs).1.nodes specs := by
  suffices hall : ∀ (todo done : List OutputSpec) (s : Sync),
      ((done ++ todo).map fun spec => variableName spec.id).Nodup →
      List.Forall₂ OutputNode.Suits s.new done →
      List.Forall₂ OutputNode.Suits (todo.foldl Sync.add s).new (done ++ todo) from
    hall specs [] { old := r.nodes, nextSerial := r.nextSerial } hd .nil
  have hids : ∀ {nodes : List OutputNode} {specs : List OutputSpec},
      List.Forall₂ OutputNode.Suits nodes specs →
      nodes.map (·.id) = specs.map fun spec => variableName spec.id := by
    intro nodes specs h
    induction h with
    | nil => rfl
    | cons hn _ ih => rw [List.map_cons, List.map_cons, hn.id_eq, ih]
  intro todo
  induction todo with
  | nil =>
    intro done s _ hs
    rw [List.append_nil]
    exact hs
  | cons spec todo ih =>
    intro done s hd hs
    rw [List.append_cons] at hd ⊢
    refine ih (done ++ [spec]) (s.add spec) hd ?_
    have hunknown : variableName spec.id ∉ s.new.map (·.id) := by
      rw [hids hs]
      rw [List.append_assoc, List.singleton_append, List.map_append, List.map_cons] at hd
      exact fun hid => (List.nodup_append.mp hd).2.2 _ hid _ List.mem_cons_self rfl
    have hput : ∀ {n : OutputNode}, n.Suits spec →
        List.Forall₂ OutputNode.Suits (put s.new n) (done ++ [spec]) := by
      intro n hn
      rw [put_of_unknown (hn.id_eq ▸ hunknown)]
      exact List.rel_append hs (.cons hn .nil)
    rcases s.add_cases spec with ⟨-, -, hnew⟩ | ⟨n, hf, -, hnew⟩
    · rw [hnew]
      exact hput (OutputNode.suits_ofSpec spec _)
    · rw [hnew]
      exact hput (OutputNode.suits_redeclare (by simpa using List.find?_some hf))

end Registry

end LiveForm
