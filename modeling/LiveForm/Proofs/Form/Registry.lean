import LiveForm.Form.Registry
import Mathlib.Data.List.Nodup
import Mathlib.Tactic.Common

/-!
# What a registry keeps

No two nodes of a registry have the same id, the id of a node is the variable of its field, and the
variables of its expression are among its dependencies.
-/

namespace LiveForm

/-- A node in line with its field and its expression. -/
structure OutputNode.Proper (n : OutputNode) : Prop where
  id_eq : n.id = variableName n.field
  reads : ∀ v ∈ Expr.variablesOf n.expression, v ∈ n.dependencies

namespace OutputNode

theorem proper_ofSpec (spec : OutputSpec) (serial : Nat) :
    Proper { ofSpec spec with serial } :=
  ⟨rfl, fun _ hv => List.mem_eraseDups.mpr (List.mem_append_left _ hv)⟩

theorem redeclare_id (n : OutputNode) (spec : OutputSpec) : (n.redeclare spec).1.id = n.id := by
  unfold redeclare
  dsimp only
  split
  · rfl
  · rfl

theorem redeclare_field (n : OutputNode) (spec : OutputSpec) :
    (n.redeclare spec).1.field = spec.id := by
  unfold redeclare
  dsimp only
  split
  · rfl
  · rfl

/-- The node remembers nothing. -/
structure Blank (n : OutputNode) : Prop where
  lastValue : n.lastValue = .absent
  lastWritten : n.lastWritten = none
  evaluated : n.evaluated = false

/-- The node remembers what another one does that is computed in the same way under the same id. -/
structure Resumes (m n : OutputNode) : Prop where
  id_eq : m.id = n.id
  expression : m.expression = n.expression
  dependencies : m.dependencies = n.dependencies
  lastValue : m.lastValue = n.lastValue
  lastWritten : m.lastWritten = n.lastWritten
  evaluated : m.evaluated = n.evaluated

theorem Resumes.trans {m n k : OutputNode} (h : m.Resumes n) (h' : n.Resumes k) : m.Resumes k :=
  ⟨h.id_eq.trans h'.id_eq, h.expression.trans h'.expression, h.dependencies.trans h'.dependencies,
    h.lastValue.trans h'.lastValue, h.lastWritten.trans h'.lastWritten,
    h.evaluated.trans h'.evaluated⟩

theorem Resumes.blank {m n : OutputNode} (h : m.Resumes n) (hn : n.Blank) : m.Blank :=
  ⟨h.lastValue.trans hn.lastValue, h.lastWritten.trans hn.lastWritten,
    h.evaluated.trans hn.evaluated⟩

/-- A node that is declared again keeps what was computed if it is computed in the same way, and
else forgets it. -/
theorem redeclare_kept (n : OutputNode) (spec : OutputSpec) :
    (n.redeclare spec).1.format = spec.format ∧ (n.redeclare spec).1.autoApply = spec.autoApply ∧
      (n.sameComputation (ofSpec spec) = true ∧ (n.redeclare spec).1.Resumes n ∨
        (n.redeclare spec).1.Blank) := by
  unfold redeclare
  dsimp only
  split
  · next h => exact ⟨rfl, rfl, Or.inl ⟨h, rfl, rfl, rfl, rfl, rfl, rfl⟩⟩
  · exact ⟨rfl, rfl, Or.inr ⟨rfl, rfl, rfl⟩⟩

/-- A node stays in line with the declaration that is read again for its id. -/
theorem Proper.redeclare {n : OutputNode} (h : n.Proper) {spec : OutputSpec}
    (hid : n.id = variableName spec.id) : (n.redeclare spec).1.Proper := by
  refine ⟨?_, ?_⟩
  · rw [redeclare_id, redeclare_field, hid]
  · unfold OutputNode.redeclare
    dsimp only
    split
    · exact h.reads
    · exact fun v hv => List.mem_eraseDups.mpr (List.mem_append_left _ hv)

end OutputNode

namespace Registry

variable {r : Registry} {n m : OutputNode} {id : String}

/-! ## Finding nodes -/

theorem mem_of_find? (h : r.find? id = some n) : n ∈ r.nodes ∧ n.id = id :=
  ⟨List.mem_of_find?_eq_some h, by simpa using List.find?_some h⟩

/-- The node of an id is the only one with it. -/
theorem eq_of_mem (h : r.ids.Nodup) (hn : n ∈ r.nodes) (hm : m ∈ r.nodes) (hid : n.id = m.id) :
    n = m :=
  List.inj_on_of_nodup_map h hn hm hid

theorem find?_of_mem (h : r.ids.Nodup) (hn : n ∈ r.nodes) : r.find? n.id = some n := by
  cases hf : r.find? n.id with
  | none =>
    have hnone := List.find?_eq_none.mp hf n hn
    simp at hnone
  | some m =>
    obtain ⟨hm, hid⟩ := mem_of_find? hf
    rw [eq_of_mem h hm hn hid]

theorem contains_iff : r.contains id = true ↔ id ∈ r.ids := by
  simp [contains, find?, ids]

theorem mem_ids_of_find? (h : r.find? id = some n) : id ∈ r.ids :=
  contains_iff.mp (Option.isSome_iff_exists.mpr ⟨n, h⟩)

theorem find?_eq_none : r.find? id = none ↔ id ∉ r.ids := by
  rw [← contains_iff, contains, Option.not_isSome_iff_eq_none]

/-! ## Changing a node -/

section

variable {f : OutputNode → OutputNode}

theorem mem_modify : m ∈ (r.modify id f).nodes ↔
    ∃ n ∈ r.nodes, (if n.id == id then f n else n) = m := List.mem_map

theorem ids_modify (hf : ∀ n, (f n).id = n.id) : (r.modify id f).ids = r.ids := by
  rw [ids, modify, List.map_map, ids]
  refine List.map_congr_left fun n _ => ?_
  rw [Function.comp_apply]
  split
  · exact hf n
  · rfl

theorem find?_modify_of_ne (hf : ∀ n, (f n).id = n.id) {id' : String} (h : id' ≠ id) :
    (r.modify id f).find? id' = r.find? id' := by
  rw [find?, modify, find?]
  dsimp only
  induction r.nodes with
  | nil => rfl
  | cons n ns ih =>
    rw [List.map_cons, List.find?_cons, List.find?_cons, ih]
    by_cases hn : n.id = id
    · rw [if_pos (beq_iff_eq.mpr hn), hf, hn, beq_eq_false_iff_ne.mpr (Ne.symm h)]
    · rw [if_neg (by simpa using hn)]

theorem find?_modify_self (hf : ∀ n, (f n).id = n.id) (h : r.find? id = some n) :
    (r.modify id f).find? id = some (f n) := by
  rw [find?, modify] at *
  dsimp only at *
  generalize r.nodes = ns at h
  induction ns with
  | nil => cases h
  | cons m ns ih =>
    rw [List.find?_cons] at h
    rw [List.map_cons, List.find?_cons]
    by_cases hm : m.id = id
    · rw [beq_iff_eq.mpr hm] at h
      cases h
      rw [if_pos (beq_iff_eq.mpr hm), hf, beq_iff_eq.mpr hm]
    · rw [beq_eq_false_iff_ne.mpr hm] at h
      rw [if_neg (by simpa using hm), beq_eq_false_iff_ne.mpr hm]
      exact ih h

end

/-! ## Reading the declarations -/

theorem mem_put_cases {nodes : List OutputNode} (h : m ∈ put nodes n) :
    m = n ∨ m ∈ nodes ∧ m.id ≠ n.id := by
  rw [put] at h
  split at h
  · obtain ⟨k, hk, hm⟩ := List.mem_map.mp h
    split at hm
    · exact Or.inl hm.symm
    · next hid => exact Or.inr (hm ▸ ⟨hk, by simpa using hid⟩)
  · next hany =>
    rcases List.mem_append.mp h with h | h
    · refine Or.inr ⟨h, fun hid => hany (List.any_eq_true.mpr ⟨m, h, beq_iff_eq.mpr hid⟩)⟩
    · exact Or.inl (List.mem_singleton.mp h)

theorem mem_put {nodes : List OutputNode} (h : m ∈ put nodes n) : m = n ∨ m ∈ nodes :=
  (mem_put_cases h).imp_right And.left

theorem ids_put (nodes : List OutputNode) (n : OutputNode) :
    (put nodes n).map (·.id) =
      if n.id ∈ nodes.map (·.id) then nodes.map (·.id) else nodes.map (·.id) ++ [n.id] := by
  have hany : (nodes.any (·.id == n.id)) = true ↔ n.id ∈ nodes.map (·.id) := by simp
  rw [put]
  by_cases h : nodes.any (·.id == n.id) = true
  · rw [if_pos h, if_pos (hany.mp h), List.map_map]
    refine List.map_congr_left fun m _ => ?_
    rw [Function.comp_apply]
    split
    · next hm => exact (beq_iff_eq.mp hm).symm
    · rfl
  · rw [if_neg h, if_neg (fun hm => h (hany.mpr hm)), List.map_append]
    rfl

theorem nodup_ids_put {nodes : List OutputNode} (h : (nodes.map (·.id)).Nodup)
    (n : OutputNode) : ((put nodes n).map (·.id)).Nodup := by
  rw [ids_put]
  split
  · exact h
  · next hn =>
    refine List.nodup_append.mpr ⟨h, List.nodup_singleton _, ?_⟩
    rintro a ha b hb rfl
    rw [List.mem_singleton.mp hb] at ha
    exact hn ha

/-- A declaration comes with a new node, or with the one there was under its id. -/
theorem Sync.add_cases (s : Sync) (spec : OutputSpec) :
    (s.old.find? (·.id == variableName spec.id) = none ∧ (s.add spec).old = s.old ∧
      (s.add spec).new = put s.new { OutputNode.ofSpec spec with serial := s.nextSerial }) ∨
    ∃ n, s.old.find? (·.id == variableName spec.id) = some n ∧
      (s.add spec).old = put s.old (n.redeclare spec).1 ∧
      (s.add spec).new = put s.new (n.redeclare spec).1 := by
  unfold Sync.add
  dsimp only
  generalize hs : (if s.new.any (·.id == variableName spec.id) then
    { s with notices := s.notices ++ [.idClash (variableName spec.id) spec.id] } else s) = t
  have ht : t.old = s.old ∧ t.new = s.new ∧ t.nextSerial = s.nextSerial := by
    rw [← hs]
    split
    · exact ⟨rfl, rfl, rfl⟩
    · exact ⟨rfl, rfl, rfl⟩
  obtain ⟨hold, hnew, hserial⟩ := ht
  rw [← hold, ← hnew, ← hserial]
  split
  · next hf => exact Or.inl ⟨hf, rfl, rfl⟩
  · next n hf => exact Or.inr ⟨n, hf, rfl, rfl⟩

/-- What holds of every node, of new ones, and of nodes that are declared again, holds of the nodes
when the declarations were read. -/
theorem forall_sync {P : OutputNode → Prop} {specs : List OutputSpec}
    (fresh : ∀ spec serial, P { OutputNode.ofSpec spec with serial })
    (redeclared : ∀ {n spec}, P n → n.id = variableName spec.id → P (n.redeclare spec).1)
    (h : ∀ n ∈ r.nodes, P n) : ∀ n ∈ (r.sync specs).1.nodes, P n := by
  suffices hall : ∀ (specs : List OutputSpec) (s : Sync), (∀ n ∈ s.old, P n) →
      (∀ n ∈ s.new, P n) → ∀ n ∈ (specs.foldl Sync.add s).new, P n from
    hall specs { old := r.nodes, nextSerial := r.nextSerial } h
      fun _ hn => absurd hn List.not_mem_nil
  intro specs
  induction specs with
  | nil => exact fun _ _ hnew => hnew
  | cons spec specs ih =>
    intro s hold hnew
    have hput : ∀ {nodes : List OutputNode} {n : OutputNode}, (∀ m ∈ nodes, P m) → P n →
        ∀ m ∈ put nodes n, P m := by
      intro nodes n hnodes hn m hm
      rcases mem_put hm with rfl | hm
      · exact hn
      · exact hnodes m hm
    rcases s.add_cases spec with ⟨-, ho, hn⟩ | ⟨n, hf, ho, hn⟩
    · exact ih (s.add spec) (ho ▸ hold) (hn ▸ hput hnew (fresh spec _))
    · have hredeclared : P (n.redeclare spec).1 :=
        redeclared (hold n (List.mem_of_find?_eq_some hf)) (by simpa using List.find?_some hf)
      exact ih (s.add spec) (ho ▸ hput hold hredeclared) (hn ▸ hput hnew hredeclared)

/-- The ids are distinct when the declarations were read. -/
theorem nodup_ids_sync (r : Registry) (specs : List OutputSpec) :
    (r.sync specs).1.ids.Nodup := by
  suffices hall : ∀ (specs : List OutputSpec) (s : Sync), (s.new.map (·.id)).Nodup →
      ((specs.foldl Sync.add s).new.map (·.id)).Nodup from
    hall specs { old := r.nodes, nextSerial := r.nextSerial } List.nodup_nil
  intro specs
  induction specs with
  | nil => exact fun _ hs => hs
  | cons spec specs ih =>
    intro s hs
    refine ih (s.add spec) ?_
    rcases s.add_cases spec with ⟨-, -, hnew⟩ | ⟨n, -, -, hnew⟩
    · exact hnew ▸ nodup_ids_put hs _
    · exact hnew ▸ nodup_ids_put hs _

/-- After the declarations were read the nodes are in line with them. -/
theorem proper_sync (h : ∀ n ∈ r.nodes, n.Proper) (specs : List OutputSpec) :
    ∀ n ∈ (r.sync specs).1.nodes, n.Proper :=
  forall_sync OutputNode.proper_ofSpec (fun hn hid => hn.redeclare hid) h

/-- Where nothing was evaluated nothing is when the declarations were read. -/
theorem unevaluated_sync (h : ∀ n ∈ r.nodes, n.evaluated = false) (specs : List OutputSpec) :
    ∀ n ∈ (r.sync specs).1.nodes, n.evaluated = false := by
  refine forall_sync (fun _ _ => rfl) (fun {n spec} hn _ => ?_) h
  obtain ⟨-, -, ⟨-, hresumes⟩ | hblank⟩ := n.redeclare_kept spec
  · exact hresumes.evaluated.trans hn
  · exact hblank.evaluated

/-- After the declarations were read a node remembers nothing, or what one did before. -/
theorem blank_or_resumes_sync (r : Registry) (specs : List OutputSpec) :
    ∀ m ∈ (r.sync specs).1.nodes, m.Blank ∨ ∃ n ∈ r.nodes, m.Resumes n := by
  refine forall_sync (fun _ _ => Or.inl ⟨rfl, rfl, rfl⟩) (fun {m spec} hm _ => ?_)
    fun n hn => Or.inr ⟨n, hn, rfl, rfl, rfl, rfl, rfl, rfl⟩
  obtain ⟨-, -, ⟨-, hresumes⟩ | hblank⟩ := m.redeclare_kept spec
  · rcases hm with hm | ⟨n, hn, hm⟩
    · exact Or.inl (hresumes.blank hm)
    · exact Or.inr ⟨n, hn, hresumes.trans hm⟩
  · exact Or.inl hblank

/-! ## Which nodes the declarations lead to -/

/-- The node that a registry has for a declaration when it has read it. -/
inductive Derives (r : Registry) (spec : OutputSpec) : OutputNode → Prop where
  | fresh (unknown : r.find? (variableName spec.id) = none) (serial : Nat) :
    Derives r spec { OutputNode.ofSpec spec with serial }
  | redeclared (m : OutputNode) (known : r.find? (variableName spec.id) = some m) :
    Derives r spec (m.redeclare spec).1

theorem Derives.id_eq {spec : OutputSpec} (h : Derives r spec n) : n.id = variableName spec.id := by
  cases h with
  | fresh => rfl
  | redeclared m known => rw [OutputNode.redeclare_id, (mem_of_find? known).2]

theorem mem_put_self (nodes : List OutputNode) (n : OutputNode) : n ∈ put nodes n := by
  rw [put]
  split
  · next h =>
    obtain ⟨m, hm, hid⟩ := List.any_eq_true.mp h
    exact List.mem_map.mpr ⟨m, hm, if_pos hid⟩
  · exact List.mem_append_right _ (List.mem_singleton_self n)

theorem mem_put_of_ne {nodes : List OutputNode} (hm : m ∈ nodes) (h : m.id ≠ n.id) :
    m ∈ put nodes n := by
  rw [put]
  split
  · exact List.mem_map.mpr ⟨m, hm, if_neg (by simpa using h)⟩
  · exact List.mem_append_left _ hm

theorem find?_put_of_ne {nodes : List OutputNode} (h : id ≠ n.id) :
    (put nodes n).find? (·.id == id) = nodes.find? (·.id == id) := by
  rw [put]
  split
  · have hid : ((·.id == id) ∘ fun m : OutputNode => if m.id == n.id then n else m) =
        (·.id == id) := by
      funext m
      rw [Function.comp_apply]
      split
      · next hm => rw [beq_iff_eq.mp hm]
      · rfl
    rw [List.find?_map, hid]
    cases hf : nodes.find? (·.id == id) with
    | none => rfl
    | some m =>
      have hm : m.id = id := by simpa using List.find?_some hf
      rw [Option.map_some, if_neg (by simpa [hm] using h)]
  · rw [List.find?_append, List.find?_cons, beq_eq_false_iff_ne.mpr (Ne.symm h)]
    exact Option.or_none

/-- A registry that has read some of the declarations, whose ids are distinct. -/
structure Sync.Reading (r : Registry) (done : List OutputSpec) (s : Sync) : Prop where
  new : ∀ n ∈ s.new, ∃ spec ∈ done, Derives r spec n
  all : ∀ spec ∈ done, ∃ n ∈ s.new, Derives r spec n
  old : ∀ id, (∀ spec ∈ done, variableName spec.id ≠ id) → s.old.find? (·.id == id) = r.find? id

theorem Sync.Reading.put {done : List OutputSpec} {s : Sync} (h : s.Reading r done)
    {spec : OutputSpec} (hspec : ∀ spec' ∈ done, variableName spec'.id ≠ variableName spec.id)
    (hn : Derives r spec n) :
    (∀ m ∈ Registry.put s.new n, ∃ spec' ∈ done ++ [spec], Derives r spec' m) ∧
      ∀ spec' ∈ done ++ [spec], ∃ m ∈ Registry.put s.new n, Derives r spec' m := by
  refine ⟨fun m hm => ?_, fun spec' hspec' => ?_⟩
  · rcases mem_put hm with rfl | hm
    · exact ⟨spec, List.mem_append_right _ (List.mem_singleton_self _), hn⟩
    · obtain ⟨spec', hspec', hm⟩ := h.new m hm
      exact ⟨spec', List.mem_append_left _ hspec', hm⟩
  · rcases List.mem_append.mp hspec' with hspec' | hspec'
    · obtain ⟨m, hm, hderives⟩ := h.all spec' hspec'
      refine ⟨m, mem_put_of_ne hm ?_, hderives⟩
      rw [hderives.id_eq, hn.id_eq]
      exact hspec spec' hspec'
    · rw [List.mem_singleton.mp hspec']
      exact ⟨n, mem_put_self _ _, hn⟩

theorem Sync.Reading.add {done : List OutputSpec} {s : Sync} (h : s.Reading r done)
    {spec : OutputSpec} (hspec : ∀ spec' ∈ done, variableName spec'.id ≠ variableName spec.id) :
    (s.add spec).Reading r (done ++ [spec]) := by
  have hfind := h.old _ hspec
  rcases s.add_cases spec with ⟨hf, hold, hnew⟩ | ⟨m, hf, hold, hnew⟩
  · obtain ⟨h₁, h₂⟩ := h.put hspec (.fresh (hfind ▸ hf) s.nextSerial)
    refine ⟨hnew ▸ h₁, hnew ▸ h₂, fun id hid => ?_⟩
    rw [hold]
    exact h.old id fun spec' hspec' => hid spec' (List.mem_append_left _ hspec')
  · have hderives : Derives r spec (m.redeclare spec).1 := .redeclared m (hfind ▸ hf)
    obtain ⟨h₁, h₂⟩ := h.put hspec hderives
    refine ⟨hnew ▸ h₁, hnew ▸ h₂, fun id hid => ?_⟩
    rw [hold, find?_put_of_ne]
    · exact h.old id fun spec' hspec' => hid spec' (List.mem_append_left _ hspec')
    · rw [hderives.id_eq]
      exact Ne.symm (hid spec (List.mem_append_right _ (List.mem_singleton_self _)))

/-- Where the ids of the declarations are distinct, each declaration leads to a node, and each node
comes from a declaration. -/
theorem derives_sync {specs : List OutputSpec}
    (hd : (specs.map fun spec => variableName spec.id).Nodup) :
    (∀ n ∈ (r.sync specs).1.nodes, ∃ spec ∈ specs, Derives r spec n) ∧
      ∀ spec ∈ specs, ∃ n ∈ (r.sync specs).1.nodes, Derives r spec n := by
  suffices hall : ∀ (specs done : List OutputSpec) (s : Sync),
      ((done ++ specs).map fun spec => variableName spec.id).Nodup → s.Reading r done →
      (specs.foldl Sync.add s).Reading r (done ++ specs) by
    have hs := hall specs [] { old := r.nodes, nextSerial := r.nextSerial } hd
      ⟨fun _ hn => absurd hn List.not_mem_nil, fun _ hn => absurd hn List.not_mem_nil,
        fun _ _ => rfl⟩
    exact ⟨hs.new, hs.all⟩
  intro specs
  induction specs with
  | nil =>
    intro done s _ hs
    rw [List.append_nil]
    exact hs
  | cons spec specs ih =>
    intro done s hd hs
    rw [List.append_cons] at hd ⊢
    refine ih (done ++ [spec]) (s.add spec) hd (hs.add fun spec' hspec' => ?_)
    rw [List.append_assoc, List.singleton_append, List.map_append, List.map_cons] at hd
    exact (List.nodup_append.mp hd).2.2 _ (List.mem_map_of_mem hspec') _ List.mem_cons_self

end Registry

end LiveForm
