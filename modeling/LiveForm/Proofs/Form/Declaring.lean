import LiveForm.Proofs.Form.Registry
import Mathlib.Data.List.Forall2

/-!
# Nodes and their declarations

A registry that reads declarations is declared as an empty one is that reads them, whatever it was
before (`declared_sync`): under each id the last declaration counts (`declaredLast_sync`).  What a
node remembers it keeps if all declarations with its id compute it as before, and else it remembers
nothing (`recalls_sync`).
-/

namespace LiveForm

namespace OutputNode

variable {m n k : OutputNode} {spec : OutputSpec}

/-- The two have the same expression and depend on the same variables. -/
structure SameComputation (m n : OutputNode) : Prop where
  expression : m.expression = n.expression
  dependencies : ∀ v, v ∈ m.dependencies ↔ v ∈ n.dependencies

/-- The two are declared in the same way. -/
structure SameDeclaration (m n : OutputNode) : Prop extends SameComputation m n where
  id_eq : m.id = n.id
  field : m.field = n.field
  format : m.format = n.format
  autoApply : m.autoApply = n.autoApply
  skipWhileEditing : m.skipWhileEditing = n.skipWhileEditing
  triggerVariables : m.triggerVariables = n.triggerVariables
  scope : m.scope = n.scope

/-- The two remember the same. -/
structure SameMemory (m n : OutputNode) : Prop where
  lastValue : m.lastValue = n.lastValue
  lastWritten : m.lastWritten = n.lastWritten
  evaluated : m.evaluated = n.evaluated

theorem SameComputation.refl (n : OutputNode) : n.SameComputation n := ⟨rfl, fun _ => .rfl⟩

theorem SameComputation.symm (h : m.SameComputation n) : n.SameComputation m :=
  ⟨h.expression.symm, fun v => (h.dependencies v).symm⟩

theorem SameComputation.trans (h : m.SameComputation n) (h' : n.SameComputation k) :
    m.SameComputation k :=
  ⟨h.expression.trans h'.expression, fun v => (h.dependencies v).trans (h'.dependencies v)⟩

theorem SameDeclaration.symm (h : m.SameDeclaration n) : n.SameDeclaration m :=
  ⟨h.toSameComputation.symm, h.id_eq.symm, h.field.symm, h.format.symm, h.autoApply.symm,
    h.skipWhileEditing.symm, h.triggerVariables.symm, h.scope.symm⟩

theorem SameDeclaration.trans (h : m.SameDeclaration n) (h' : n.SameDeclaration k) :
    m.SameDeclaration k :=
  ⟨h.toSameComputation.trans h'.toSameComputation, h.id_eq.trans h'.id_eq, h.field.trans h'.field,
    h.format.trans h'.format, h.autoApply.trans h'.autoApply,
    h.skipWhileEditing.trans h'.skipWhileEditing, h.triggerVariables.trans h'.triggerVariables,
    h.scope.trans h'.scope⟩

theorem SameMemory.trans (h : m.SameMemory n) (h' : n.SameMemory k) : m.SameMemory k :=
  ⟨h.lastValue.trans h'.lastValue, h.lastWritten.trans h'.lastWritten,
    h.evaluated.trans h'.evaluated⟩

theorem Blank.sameMemory (hm : m.Blank) (hn : n.Blank) : m.SameMemory n :=
  ⟨hm.lastValue.trans hn.lastValue.symm, hm.lastWritten.trans hn.lastWritten.symm,
    hm.evaluated.trans hn.evaluated.symm⟩

theorem SameMemory.blank (h : m.SameMemory n) (hn : n.Blank) : m.Blank :=
  ⟨h.lastValue.trans hn.lastValue, h.lastWritten.trans hn.lastWritten,
    h.evaluated.trans hn.evaluated⟩

theorem sameComputation_iff : m.sameComputation n = true ↔ m.SameComputation n := by
  simp only [sameComputation, sameDependencies, Bool.and_eq_true, beq_iff_eq, List.all_eq_true,
    List.contains_iff_mem]
  exact ⟨fun ⟨h, h₁, h₂⟩ => ⟨h, fun v => ⟨h₁ v, h₂ v⟩⟩,
    fun ⟨h, h'⟩ => ⟨h, fun v => (h' v).mp, fun v => (h' v).mpr⟩⟩

theorem sameDeclaration_iff : (m.id = n.id ∧ m.sameComputation n = true ∧
    m.sameAttributes n = true) ↔ m.SameDeclaration n := by
  simp only [sameComputation_iff, sameAttributes, Bool.and_eq_true, beq_iff_eq]
  exact ⟨fun ⟨h, h', ⟨⟨⟨⟨h₁, h₂⟩, h₃⟩, h₄⟩, h₅⟩, h₆⟩ => ⟨h', h, h₁, h₂, h₃, h₄, h₅, h₆⟩,
    fun ⟨h', h, h₁, h₂, h₃, h₄, h₅, h₆⟩ => ⟨h, h', ⟨⟨⟨⟨h₁, h₂⟩, h₃⟩, h₄⟩, h₅⟩, h₆⟩⟩

instance : Decidable (m.SameComputation n) := decidable_of_iff _ sameComputation_iff

instance : Decidable (m.SameDeclaration n) := decidable_of_iff _ sameDeclaration_iff

/-! ## One node declared again -/

/-- A node that is computed as before keeps what it remembers. -/
theorem redeclare_of_same (h : n.SameComputation (ofSpec spec)) :
    (n.redeclare spec).1.SameMemory n ∧ (n.redeclare spec).1.SameComputation n := by
  rw [redeclare]
  dsimp only
  rw [if_pos (sameComputation_iff.mpr h)]
  exact ⟨⟨rfl, rfl, rfl⟩, rfl, fun _ => .rfl⟩

theorem blank_redeclare (h : ¬ n.SameComputation (ofSpec spec)) : (n.redeclare spec).1.Blank := by
  rw [redeclare]
  dsimp only
  rw [if_neg fun hsame => h (sameComputation_iff.mp hsame)]
  exact ⟨rfl, rfl, rfl⟩

theorem sameDeclaration_redeclare (hid : n.id = variableName spec.id) :
    (n.redeclare spec).1.SameDeclaration (ofSpec spec) := by
  rw [redeclare]
  dsimp only
  split
  · next h => exact ⟨sameComputation_iff.mp h, hid, rfl, rfl, rfl, rfl, rfl, rfl⟩
  · exact ⟨⟨rfl, fun _ => .rfl⟩, hid, rfl, rfl, rfl, rfl, rfl, rfl⟩

/-- That something is new is said of the nodes that were declared in another way. -/
theorem redeclare_snd_iff (hid : n.id = variableName spec.id) :
    (n.redeclare spec).2 = true ↔ ¬ n.SameDeclaration (ofSpec spec) := by
  have hid' : n.id = (ofSpec spec).id := hid
  rw [← sameDeclaration_iff, redeclare]
  dsimp only
  split
  · next h => simp [hid', h]
  · next h => simp [h]

theorem redeclare_eq_self (h : n.SameDeclaration (ofSpec spec)) : (n.redeclare spec).1 = n := by
  rw [redeclare]
  dsimp only
  rw [if_pos (sameComputation_iff.mpr h.toSameComputation), ← h.field, ← h.format, ← h.autoApply,
    ← h.skipWhileEditing, ← h.triggerVariables, ← h.scope]

end OutputNode

namespace Registry

open OutputNode (ofSpec)

variable {r : Registry} {m n : OutputNode} {id : String} {specs done : List OutputSpec}
  {spec : OutputSpec} {s : Sync}

/-! ## Declared as from scratch -/

/-- A declaration puts a node that is declared by it in the place of the one of its id. -/
theorem Sync.add_new (s : Sync) (spec : OutputSpec) :
    ∃ n, (s.add spec).new = put s.new n ∧ n.SameDeclaration (ofSpec spec) := by
  rcases s.add_cases spec with ⟨-, -, hnew⟩ | ⟨n, hfind, -, hnew⟩
  · exact ⟨_, hnew, ⟨rfl, fun _ => .rfl⟩, rfl, rfl, rfl, rfl, rfl, rfl, rfl⟩
  · have hid : n.id = variableName spec.id := by simpa using List.find?_some hfind
    exact ⟨_, hnew, OutputNode.sameDeclaration_redeclare hid⟩

theorem forall₂_put {ns ns' : List OutputNode} (h : List.Forall₂ OutputNode.SameDeclaration ns ns')
    (hn : m.SameDeclaration n) :
    List.Forall₂ OutputNode.SameDeclaration (put ns m) (put ns' n) := by
  have hany : ns.any (·.id == m.id) = ns'.any (·.id == n.id) := by
    rw [hn.id_eq]
    induction h with
    | nil => rfl
    | cons hhead _ ih => rw [List.any_cons, List.any_cons, ih, hhead.id_eq]
  rw [put, put, hany]
  split
  · rw [List.forall₂_map_left_iff, List.forall₂_map_right_iff]
    refine h.imp fun a b hab => ?_
    rw [hab.id_eq, hn.id_eq]
    split
    · exact hn
    · exact hab
  · exact List.rel_append h (.cons hn .nil)

/-- Whatever a registry was before, it is declared as one that reads the declarations from
scratch. -/
theorem declared_sync (r r' : Registry) (specs : List OutputSpec) :
    List.Forall₂ OutputNode.SameDeclaration (r.sync specs).1.nodes (r'.sync specs).1.nodes := by
  suffices hall : ∀ (specs : List OutputSpec) (s s' : Sync),
      List.Forall₂ OutputNode.SameDeclaration s.new s'.new →
      List.Forall₂ OutputNode.SameDeclaration (specs.foldl Sync.add s).new
        (specs.foldl Sync.add s').new from
    hall specs { old := r.nodes, nextSerial := r.nextSerial }
      { old := r'.nodes, nextSerial := r'.nextSerial } .nil
  intro specs
  induction specs with
  | nil => exact fun _ _ h => h
  | cons spec specs ih =>
    intro s s' h
    obtain ⟨m, hm, hdeclared⟩ := s.add_new spec
    obtain ⟨n, hn, hdeclared'⟩ := s'.add_new spec
    refine ih (s.add spec) (s'.add spec) ?_
    rw [hm, hn]
    exact forall₂_put h (hdeclared.trans hdeclared'.symm)

/-- The node is declared by the last one of the declarations that have its id. -/
def DeclaredLast (specs : List OutputSpec) (n : OutputNode) : Prop :=
  ∃ earlier spec later, specs = earlier ++ spec :: later ∧ n.SameDeclaration (ofSpec spec) ∧
    ∀ spec' ∈ later, variableName spec'.id ≠ n.id

theorem DeclaredLast.exists_mem (h : DeclaredLast specs n) :
    ∃ spec ∈ specs, variableName spec.id = n.id ∧ n.SameDeclaration (ofSpec spec) := by
  obtain ⟨earlier, spec, later, rfl, hdeclared, -⟩ := h
  exact ⟨spec, List.mem_append_right _ List.mem_cons_self, hdeclared.id_eq.symm, hdeclared⟩

theorem declaredLast_sync (r : Registry) (specs : List OutputSpec) :
    ∀ n ∈ (r.sync specs).1.nodes, DeclaredLast specs n := by
  suffices hall : ∀ (specs done : List OutputSpec) (s : Sync),
      (∀ n ∈ s.new, DeclaredLast done n) →
      ∀ n ∈ (specs.foldl Sync.add s).new, DeclaredLast (done ++ specs) n from
    hall specs [] { old := r.nodes, nextSerial := r.nextSerial } (List.forall_mem_nil _)
  intro specs
  induction specs with
  | nil =>
    intro done s h
    rwa [List.append_nil]
  | cons spec specs ih =>
    intro done s h
    rw [List.append_cons]
    refine ih (done ++ [spec]) (s.add spec) fun n hn => ?_
    obtain ⟨m, hm, hdeclared⟩ := s.add_new spec
    rw [hm] at hn
    rcases mem_put_cases hn with rfl | ⟨hn, hid⟩
    · exact ⟨done, spec, [], rfl, hdeclared, List.forall_mem_nil _⟩
    · obtain ⟨earlier, spec', later, rfl, hdeclared', hlater⟩ := h n hn
      refine ⟨earlier, spec', later ++ [spec], by simp, hdeclared', fun spec'' hmem => ?_⟩
      rcases List.mem_append.mp hmem with hmem | hmem
      · exact hlater spec'' hmem
      · rw [List.mem_singleton.mp hmem]
        exact fun heq => hid (heq.symm.trans hdeclared.id_eq.symm)

/-- The ids are those of the declarations. -/
theorem mem_ids_sync :
    id ∈ (r.sync specs).1.ids ↔ id ∈ specs.map fun spec => variableName spec.id := by
  suffices hall : ∀ (specs : List OutputSpec) (s : Sync),
      id ∈ (specs.foldl Sync.add s).new.map (·.id) ↔
        id ∈ s.new.map (·.id) ∨ id ∈ specs.map fun spec => variableName spec.id by
    have h := hall specs { old := r.nodes, nextSerial := r.nextSerial }
    rwa [List.map_nil, or_iff_right List.not_mem_nil] at h
  intro specs
  induction specs with
  | nil =>
    intro s
    simp
  | cons spec specs ih =>
    intro s
    obtain ⟨n, hn, hdeclared⟩ := s.add_new spec
    have hid : n.id = variableName spec.id := hdeclared.id_eq
    rw [List.foldl_cons, ih, hn, ids_put, hid, List.map_cons, List.mem_cons, ← or_assoc]
    refine or_congr_left ?_
    split
    · next hmem => exact ⟨Or.inl, fun h => h.elim (fun hin => hin) fun heq => heq ▸ hmem⟩
    · rw [List.mem_append, List.mem_singleton]

/-! ## What nodes remember -/

theorem find?_put_self (nodes : List OutputNode) (n : OutputNode) :
    (put nodes n).find? (·.id == n.id) = some n := by
  cases hf : (put nodes n).find? (·.id == n.id) with
  | none => exact absurd (List.find?_eq_none.mp hf n (mem_put_self nodes n)) (by simp)
  | some m =>
    have hid : m.id = n.id := by simpa using List.find?_some hf
    rcases mem_put_cases (List.mem_of_find?_eq_some hf) with rfl | ⟨-, hne⟩
    · rfl
    · exact absurd hid hne

/-- What became of a node after some declarations: it remembers what it did if all those with its id
compute it as before, and else nothing. -/
structure Recalls (m : OutputNode) (done : List OutputSpec) (n : OutputNode) : Prop where
  id_eq : n.id = m.id
  kept : (∀ spec ∈ done, variableName spec.id = m.id → m.SameComputation (ofSpec spec)) →
    n.SameMemory m ∧ n.SameComputation m
  lost : (∃ spec ∈ done, variableName spec.id = m.id ∧ ¬ m.SameComputation (ofSpec spec)) → n.Blank

theorem Recalls.refl (m : OutputNode) : Recalls m [] m where
  id_eq := rfl
  kept _ := ⟨⟨rfl, rfl, rfl⟩, .refl m⟩
  lost := fun ⟨_, hmem, _⟩ => absurd hmem List.not_mem_nil

/-- A declaration with another id makes no difference. -/
theorem Recalls.other (h : Recalls m done n) (hid : variableName spec.id ≠ m.id) :
    Recalls m (done ++ [spec]) n where
  id_eq := h.id_eq
  kept hall := h.kept fun spec' hspec' => hall spec' (List.mem_append_left _ hspec')
  lost := by
    rintro ⟨spec', hspec', heq, hother⟩
    rcases List.mem_append.mp hspec' with hspec' | hspec'
    · exact h.lost ⟨spec', hspec', heq, hother⟩
    · rw [List.mem_singleton.mp hspec'] at heq
      exact absurd heq hid

theorem Recalls.redeclare (h : Recalls m done n) (hid : variableName spec.id = m.id) :
    Recalls m (done ++ [spec]) (n.redeclare spec).1 where
  id_eq := (n.redeclare_id spec).trans h.id_eq
  kept hall := by
    obtain ⟨hmemory, hsame⟩ :=
      h.kept fun spec' hspec' => hall spec' (List.mem_append_left _ hspec')
    have hspec := hall spec (List.mem_append_right _ (List.mem_singleton_self spec)) hid
    obtain ⟨hmemory', hsame'⟩ := OutputNode.redeclare_of_same (hsame.trans hspec)
    exact ⟨hmemory'.trans hmemory, hsame'.trans hsame⟩
  lost := by
    rintro ⟨spec', hspec', heq, hother⟩
    by_cases hsame : n.SameComputation (ofSpec spec)
    · refine (OutputNode.redeclare_of_same hsame).1.blank (h.lost ?_)
      rcases List.mem_append.mp hspec' with hspec' | hspec'
      · exact ⟨spec', hspec', heq, hother⟩
      · -- The node is computed as the declaration says, so an earlier one has changed it.
        rw [List.mem_singleton.mp hspec'] at hother
        by_contra hnone
        have hall : ∀ spec ∈ done, variableName spec.id = m.id → m.SameComputation (ofSpec spec) :=
          fun spec hspec heq => by_contra fun hne => hnone ⟨spec, hspec, heq, hne⟩
        exact hother ((h.kept hall).2.symm.trans hsame)
    · exact OutputNode.blank_redeclare hsame

/-- What a registry that has read some of the declarations remembers. -/
structure Sync.Recalling (r : Registry) (done : List OutputSpec) (s : Sync) : Prop where
  known : ∀ {id m}, r.find? id = some m → ∃ n, s.old.find? (·.id == id) = some n ∧ Recalls m done n
  unknown : ∀ {id}, r.find? id = none → s.old.find? (·.id == id) = none
  new : ∀ n ∈ s.new, r.find? n.id = none ∧ n.Blank ∨ s.old.find? (·.id == n.id) = some n

theorem Sync.Recalling.find?_eq_none_iff (h : s.Recalling r done) :
    s.old.find? (·.id == id) = none ↔ r.find? id = none := by
  refine ⟨fun hfind => ?_, h.unknown⟩
  by_contra hknown
  obtain ⟨m, hm⟩ := Option.ne_none_iff_exists'.mp hknown
  obtain ⟨n, hn, -⟩ := h.known hm
  exact absurd (hfind.symm.trans hn) (Option.some_ne_none n).symm

theorem Sync.Recalling.add (h : s.Recalling r done) (spec : OutputSpec) :
    (s.add spec).Recalling r (done ++ [spec]) := by
  rcases s.add_cases spec with ⟨hfind, hold, hnew⟩ | ⟨c, hfind, hold, hnew⟩
  · have hunknown := h.find?_eq_none_iff.mp hfind
    refine ⟨fun {id m} hm => ?_, fun hid => hold ▸ h.unknown hid, fun n hn => ?_⟩
    · obtain ⟨n, hn, hrecalls⟩ := h.known hm
      refine ⟨n, hold ▸ hn, hrecalls.other fun heq => ?_⟩
      rw [heq, (mem_of_find? hm).2, hm] at hunknown
      cases hunknown
    · rw [hnew] at hn
      rcases mem_put hn with rfl | hn
      · exact Or.inl ⟨hunknown, rfl, rfl, rfl⟩
      · exact (h.new n hn).imp_right fun hn => hold ▸ hn
  · have hid : (c.redeclare spec).1.id = variableName spec.id :=
      (c.redeclare_id spec).trans (by simpa using List.find?_some hfind)
    have hself : (s.add spec).old.find? (·.id == variableName spec.id) =
        some (c.redeclare spec).1 := by
      rw [hold, ← hid]
      exact find?_put_self _ _
    have hothers : ∀ {id}, id ≠ variableName spec.id →
        (s.add spec).old.find? (·.id == id) = s.old.find? (·.id == id) := by
      intro id hne
      rw [hold, find?_put_of_ne (hid ▸ hne)]
    refine ⟨fun {id m} hm => ?_, fun {id} hnone => ?_, fun n hn => ?_⟩
    · obtain ⟨n, hn, hrecalls⟩ := h.known hm
      have hmid := (mem_of_find? hm).2
      by_cases heq : id = variableName spec.id
      · rw [heq] at hn ⊢
        obtain rfl := Option.some_inj.mp (hfind.symm.trans hn)
        exact ⟨_, hself, hrecalls.redeclare (heq.symm.trans hmid.symm)⟩
      · refine ⟨n, (hothers heq).trans hn, hrecalls.other fun hspec => ?_⟩
        exact heq (hmid.symm.trans hspec.symm)
    · rw [hothers fun heq => ?_]
      · exact h.unknown hnone
      · rw [heq] at hnone
        exact absurd (hfind.symm.trans (h.unknown hnone)) (Option.some_ne_none c)
    · rw [hnew] at hn
      rcases mem_put_cases hn with rfl | ⟨hn, hne⟩
      · exact Or.inr (hid ▸ hself)
      · refine (h.new n hn).imp_right fun hn => ?_
        rw [hothers (hid ▸ hne)]
        exact hn

theorem Sync.Recalling.start (r : Registry) :
    Sync.Recalling r [] { old := r.nodes, nextSerial := r.nextSerial } where
  known := fun {_ m} hm => ⟨m, hm, .refl m⟩
  unknown := fun hm => hm
  new := List.forall_mem_nil _

theorem Sync.Recalling.foldl (h : s.Recalling r done) (specs : List OutputSpec) :
    (specs.foldl Sync.add s).Recalling r (done ++ specs) := by
  induction specs generalizing done s with
  | nil => rwa [List.append_nil]
  | cons spec specs ih =>
    rw [List.append_cons]
    exact ih (h.add spec)

/-- A node of an id that was unknown remembers nothing; one whose id was known remembers what the
node of the id did if all declarations with the id compute it as before, and else nothing. -/
theorem recalls_sync (r : Registry) (specs : List OutputSpec) :
    ∀ n ∈ (r.sync specs).1.nodes,
      r.find? n.id = none ∧ n.Blank ∨ ∃ m, r.find? n.id = some m ∧ Recalls m specs n := by
  have h := (Sync.Recalling.start r).foldl specs
  intro n hn
  refine (h.new n hn).imp_right fun hold => ?_
  cases hm : r.find? n.id with
  | none => exact absurd (hold.symm.trans (h.unknown hm)) (Option.some_ne_none n)
  | some m =>
    obtain ⟨n', hn', hrecalls⟩ := h.known hm
    obtain rfl := Option.some_inj.mp (hold.symm.trans hn')
    exact ⟨m, rfl, hrecalls⟩

theorem recalls_of_mem (hr : r.ids.Nodup) (hm : m ∈ r.nodes)
    (hn : n ∈ (r.sync specs).1.nodes) (hid : n.id = m.id) : Recalls m specs n := by
  have hfind := find?_of_mem hr hm
  rw [← hid] at hfind
  rcases recalls_sync r specs n hn with ⟨hnone, -⟩ | ⟨m', hm', hrecalls⟩
  · rw [hnone] at hfind
    cases hfind
  · obtain rfl := Option.some_inj.mp (hfind.symm.trans hm')
    exact hrecalls

/-- A node remembers nothing that one of the declarations with its id computes in another way. -/
theorem blank_of_other (hm : m ∈ (r.sync specs).1.nodes)
    (h : ∃ spec ∈ specs, variableName spec.id = m.id ∧ ¬ m.SameComputation (ofSpec spec)) :
    m.Blank := by
  rcases recalls_sync r specs m hm with ⟨-, hblank⟩ | ⟨k, -, hk⟩
  · exact hblank
  · by_cases hkept : ∀ spec ∈ specs, variableName spec.id = k.id → k.SameComputation (ofSpec spec)
    · obtain ⟨spec, hspec, heq, hother⟩ := h
      have hsame := (hk.kept hkept).2.trans (hkept spec hspec (heq.trans hk.id_eq))
      exact absurd hsame hother
    · push Not at hkept
      exact hk.lost hkept

end Registry

end LiveForm
