import LiveForm.Proofs.Form.Declaring

/-!
# What a registry reports

A registry says which ids are new, which are gone and which are declared in another way.  If no two
declarations have the same id it says exactly that (`sync_eq_fresh`).  If two of them have one id
and differ, the registry reports the id each time it reads them, although nothing has changed
(`sync_again`).
-/

namespace LiveForm.Registry

open OutputNode (ofSpec)

variable {r : Registry} {m n : OutputNode} {id : String} {specs done : List OutputSpec}
  {spec : OutputSpec} {s : Sync}

/-! ## One declaration -/

/-- An id that is unknown is new, once; one that is known has changed if the node of the id is
declared in another way. -/
theorem Sync.diff_add (s : Sync) (spec : OutputSpec) : (s.add spec).diff =
    match s.old.find? (·.id == variableName spec.id) with
    | none => { s.diff with
        added := if s.diff.added.contains (variableName spec.id) then s.diff.added
          else s.diff.added ++ [variableName spec.id] }
    | some n => { s.diff with
        changed := if (n.redeclare spec).2 then s.diff.changed ++ [variableName spec.id]
          else s.diff.changed } := by
  unfold Sync.add
  dsimp only
  generalize hs : (if s.new.any (·.id == variableName spec.id) then
    { s with notices := s.notices ++ [.idClash (variableName spec.id) spec.id] } else s) = t
  have ht : t.old = s.old ∧ t.diff = s.diff := by
    rw [← hs]
    split
    · exact ⟨rfl, rfl⟩
    · exact ⟨rfl, rfl⟩
  rw [← ht.1, ← ht.2]
  cases t.old.find? (·.id == variableName spec.id) with
  | none => rfl
  | some n => rfl

theorem Sync.diff_of_unknown (h : s.old.find? (·.id == variableName spec.id) = none) :
    (s.add spec).diff.changed = s.diff.changed ∧
      (s.add spec).diff.added = if s.diff.added.contains (variableName spec.id) then s.diff.added
        else s.diff.added ++ [variableName spec.id] := by
  rw [diff_add, h]
  exact ⟨rfl, rfl⟩

theorem Sync.diff_of_known (h : s.old.find? (·.id == variableName spec.id) = some n) :
    (s.add spec).diff = { s.diff with
      changed := s.diff.changed ++
        if n.SameDeclaration (ofSpec spec) then [] else [variableName spec.id] } := by
  have hid : n.id = variableName spec.id := by simpa using List.find?_some h
  have hnew := OutputNode.redeclare_snd_iff hid
  rw [diff_add, h]
  by_cases hsame : n.SameDeclaration (ofSpec spec)
  · simp [hnew, hsame]
  · simp [hnew, hsame]

/-- A node that is declared as before stays where it is. -/
theorem Sync.find?_old_of_same (h : s.old.find? (·.id == variableName spec.id) = some n)
    (hsame : n.SameDeclaration (ofSpec spec)) (id : String) :
    (s.add spec).old.find? (·.id == id) = s.old.find? (·.id == id) := by
  rcases s.add_cases spec with ⟨hfind, -, -⟩ | ⟨m, hfind, hold, -⟩
  · rw [hfind] at h
    cases h
  · obtain rfl := Option.some_inj.mp (hfind.symm.trans h)
    have hid : m.id = variableName spec.id := by simpa using List.find?_some hfind
    rw [hold, OutputNode.redeclare_eq_self hsame]
    by_cases heq : id = m.id
    · rw [heq, find?_put_self, hid, hfind]
    · exact find?_put_of_ne heq

/-! ## All declarations -/

/-- Nothing is reported as changed just if all nodes that there were are declared as before. -/
theorem changed_eq_nil_iff : (r.sync specs).2.1.changed = [] ↔
    ∀ spec ∈ specs, ∀ n, r.find? (variableName spec.id) = some n →
      n.SameDeclaration (ofSpec spec) := by
  suffices hall : ∀ (specs : List OutputSpec) (s : Sync),
      (specs.foldl Sync.add s).diff.changed = [] ↔ s.diff.changed = [] ∧
        ∀ spec ∈ specs, ∀ n, s.old.find? (·.id == variableName spec.id) = some n →
          n.SameDeclaration (ofSpec spec) from
    (hall specs { old := r.nodes, nextSerial := r.nextSerial }).trans (and_iff_right rfl)
  intro specs
  induction specs with
  | nil => exact fun s => (and_iff_left (List.forall_mem_nil _)).symm
  | cons spec specs ih =>
    intro s
    rw [List.foldl_cons, ih, List.forall_mem_cons]
    cases hfind : s.old.find? (·.id == variableName spec.id) with
    | none =>
      have hold : (s.add spec).old = s.old := by
        rcases s.add_cases spec with ⟨-, hold, -⟩ | ⟨n, hn, -⟩
        · exact hold
        · exact absurd (hfind.symm.trans hn) (Option.some_ne_none n).symm
      rw [hold, (Sync.diff_of_unknown hfind).1]
      simp
    | some n =>
      rw [Sync.diff_of_known hfind]
      by_cases hsame : n.SameDeclaration (ofSpec spec)
      · simp only [Sync.find?_old_of_same hfind hsame]
        simp [hsame]
      · simp [hsame]

/-- Where all ids are known, none is new. -/
theorem added_eq_nil (h : ∀ spec ∈ specs, variableName spec.id ∈ r.ids) :
    (r.sync specs).2.1.added = [] := by
  suffices hall : ∀ (specs done : List OutputSpec) (s : Sync), s.Recalling r done →
      (∀ spec ∈ specs, variableName spec.id ∈ r.ids) →
      (specs.foldl Sync.add s).diff.added = s.diff.added from
    hall specs [] { old := r.nodes, nextSerial := r.nextSerial } (.start r) h
  intro specs
  induction specs with
  | nil => exact fun _ _ _ _ => rfl
  | cons spec specs ih =>
    intro done s hs h
    obtain ⟨hspec, hspecs⟩ := List.forall_mem_cons.mp h
    have hknown : s.old.find? (·.id == variableName spec.id) ≠ none := fun hnone =>
      find?_eq_none.mp (hs.find?_eq_none_iff.mp hnone) hspec
    obtain ⟨n, hn⟩ := Option.ne_none_iff_exists'.mp hknown
    rw [List.foldl_cons, ih (done ++ [spec]) _ (hs.add spec) hspecs, Sync.diff_add, hn]

theorem removed_sync (r : Registry) (specs : List OutputSpec) :
    (r.sync specs).2.1.removed =
      r.ids.filter (· ∉ specs.map fun spec => variableName spec.id) := by
  refine List.filter_congr fun id _ => Bool.eq_iff_iff.mpr ?_
  rw [decide_eq_true_iff, ← mem_ids_sync (r := r)]
  simp [ids, sync]

/-! ## Reading the same again -/

/-- Declarations with one id declare the same. -/
def Agreeing (specs : List OutputSpec) : Prop :=
  ∀ spec ∈ specs, ∀ spec' ∈ specs, variableName spec.id = variableName spec'.id →
    (ofSpec spec).SameDeclaration (ofSpec spec')

/-- When the same declarations are read again, nodes remember what they did. -/
theorem sameMemory_sync_again (r : Registry) (specs : List OutputSpec) :
    ∀ n ∈ ((r.sync specs).1.sync specs).1.nodes, ∀ m ∈ (r.sync specs).1.nodes, n.id = m.id →
      n.SameMemory m := by
  intro n hn m hm hid
  have hrecalls := recalls_of_mem (nodup_ids_sync r specs) hm hn hid
  by_cases hall : ∀ spec ∈ specs, variableName spec.id = m.id → m.SameComputation (ofSpec spec)
  · exact (hrecalls.kept hall).1
  · -- Declarations with this id differ, so that the first reading has already made it forget.
    push Not at hall
    exact (hrecalls.lost hall).sameMemory (blank_of_other hm hall)

/-- The nodes are declared as all declarations say just if those with one id agree. -/
theorem agreeing_iff : Agreeing specs ↔ ∀ spec ∈ specs, ∀ n,
    (r.sync specs).1.find? (variableName spec.id) = some n → n.SameDeclaration (ofSpec spec) := by
  constructor
  · intro hagree spec hspec n hfind
    obtain ⟨hn, hid⟩ := mem_of_find? hfind
    obtain ⟨spec', hspec', hid', hdeclared⟩ := (declaredLast_sync r specs n hn).exists_mem
    exact hdeclared.trans (hagree spec' hspec' spec hspec (hid'.trans hid))
  · intro hall spec hspec spec' hspec' heq
    have hids : variableName spec.id ∈ (r.sync specs).1.ids :=
      mem_ids_sync.mpr (List.mem_map.mpr ⟨spec, hspec, rfl⟩)
    obtain ⟨n, hn⟩ := Option.isSome_iff_exists.mp (contains_iff.mpr hids)
    exact (hall spec hspec n hn).symm.trans (hall spec' hspec' n (heq ▸ hn))

/-- When the same declarations are read again all nodes stay as they are and none is new or gone,
but some are reported as changed unless declarations with one id agree. -/
theorem sync_again (r : Registry) (specs : List OutputSpec) :
    List.Forall₂ (fun n m => n.SameDeclaration m ∧ n.SameMemory m)
      ((r.sync specs).1.sync specs).1.nodes (r.sync specs).1.nodes ∧
    ((r.sync specs).1.sync specs).2.1.added = [] ∧
    ((r.sync specs).1.sync specs).2.1.removed = [] ∧
    (((r.sync specs).1.sync specs).2.1 = {} ↔ Agreeing specs) := by
  have hadded : ((r.sync specs).1.sync specs).2.1.added = [] := added_eq_nil fun spec hspec =>
    mem_ids_sync.mpr (List.mem_map.mpr ⟨spec, hspec, rfl⟩)
  have hremoved : ((r.sync specs).1.sync specs).2.1.removed = [] := by
    rw [removed_sync, List.filter_eq_nil_iff]
    intro id hid
    simpa using mem_ids_sync.mp hid
  refine ⟨?_, hadded, hremoved, ?_⟩
  · obtain ⟨hlength, hdeclared⟩ := List.forall₂_iff_zip.mp (declared_sync (r.sync specs).1 r specs)
    refine List.forall₂_iff_zip.mpr ⟨hlength, fun {n m} hzip => ⟨hdeclared hzip, ?_⟩⟩
    obtain ⟨hn, hm⟩ := List.of_mem_zip hzip
    exact sameMemory_sync_again r specs n hn m hm (hdeclared hzip).id_eq
  · rw [agreeing_iff (r := r), ← changed_eq_nil_iff]
    generalize ((r.sync specs).1.sync specs).2.1 = diff at hadded hremoved
    obtain ⟨added, removed, changed⟩ := diff
    obtain rfl : added = [] := hadded
    obtain rfl : removed = [] := hremoved
    exact ⟨congrArg RegistryDiff.changed, congrArg (RegistryDiff.mk [] [])⟩

/-- Two fields whose names come to the same variable. -/
def crossed : List OutputSpec :=
  [{ id := "order-total", expression := "1" }, { id := "order_total", expression := "2" }]

/-- They are reported as changed whenever they are read again. -/
theorem changed_sync_again : ((({} : Registry).sync crossed).1.sync crossed).2.1 =
    { changed := ["order_total", "order_total"] } := by
  decide +kernel

/-! ## Declarations with distinct ids -/

/-- There is a node with the id of the declaration that was declared in another way. -/
def Redeclares (r : Registry) (spec : OutputSpec) : Prop :=
  ∃ n ∈ r.nodes, n.id = variableName spec.id ∧ ¬ n.SameDeclaration (ofSpec spec)

instance : Decidable (r.Redeclares spec) :=
  inferInstanceAs (Decidable (∃ n ∈ r.nodes, _ ∧ _))

theorem redeclares_iff (h : r.ids.Nodup) : r.Redeclares spec ↔
    ∃ n, r.find? (variableName spec.id) = some n ∧ ¬ n.SameDeclaration (ofSpec spec) := by
  constructor
  · rintro ⟨n, hn, hid, hother⟩
    exact ⟨n, hid ▸ find?_of_mem h hn, hother⟩
  · rintro ⟨n, hfind, hother⟩
    exact ⟨n, (mem_of_find? hfind).1, (mem_of_find? hfind).2, hother⟩

/-- What is reported: the ids of declarations that are new, those that are gone, and those of nodes
that are declared in another way. -/
structure Reports (r : Registry) (specs : List OutputSpec) (diff : RegistryDiff) : Prop where
  added : diff.added = (specs.map fun spec => variableName spec.id).filter (· ∉ r.ids)
  removed : diff.removed = r.ids.filter (· ∉ specs.map fun spec => variableName spec.id)
  changed : diff.changed = (specs.filter (r.Redeclares ·)).map fun spec => variableName spec.id

/-- What a registry reports that has read some of the declarations, whose ids are distinct. -/
structure Sync.Reporting (r : Registry) (done : List OutputSpec) (s : Sync) : Prop
    extends s.Reading r done where
  added : s.diff.added = (done.map fun spec => variableName spec.id).filter (· ∉ r.ids)
  changed : s.diff.changed = (done.filter (r.Redeclares ·)).map fun spec => variableName spec.id

theorem Sync.Reporting.add (h : s.Reporting r done) (hr : r.ids.Nodup)
    (hspec : ∀ spec' ∈ done, variableName spec'.id ≠ variableName spec.id) :
    (s.add spec).Reporting r (done ++ [spec]) := by
  have hreading := h.toReading.add hspec
  have hredeclares : r.Redeclares spec ↔ _ := redeclares_iff hr
  have hadded := h.added
  have hchanged := h.changed
  have hfind := h.old _ hspec
  cases hold : r.find? (variableName spec.id) with
  | none =>
    have hunknown := find?_eq_none.mp hold
    obtain ⟨hsame, hnew⟩ := Sync.diff_of_unknown (hfind.trans hold)
    have hfirst : variableName spec.id ∉ s.diff.added := by
      rw [hadded, List.mem_filter, List.mem_map]
      rintro ⟨⟨spec', hspec', heq⟩, -⟩
      exact hspec spec' hspec' heq
    refine ⟨hreading, ?_, ?_⟩
    · rw [hnew, if_neg (by simpa using hfirst), hadded]
      simp [hunknown]
    · rw [hsame, hchanged]
      simp [hredeclares, hold]
  | some n =>
    have hknown : variableName spec.id ∈ r.ids := mem_ids_of_find? hold
    have hdiff := Sync.diff_of_known (hfind.trans hold)
    refine ⟨hreading, ?_, ?_⟩
    · rw [hdiff, hadded]
      simp [hknown]
    · rw [hdiff, hchanged]
      by_cases hsame : n.SameDeclaration (ofSpec spec)
      · simp [hredeclares, hold, hsame]
      · simp [hredeclares, hold, hsame]

theorem reports_sync (hr : r.ids.Nodup) (hd : (specs.map fun spec => variableName spec.id).Nodup) :
    r.Reports specs (r.sync specs).2.1 := by
  suffices hall : ∀ (specs done : List OutputSpec) (s : Sync),
      ((done ++ specs).map fun spec => variableName spec.id).Nodup → s.Reporting r done →
      (specs.foldl Sync.add s).Reporting r (done ++ specs) by
    have h := hall specs [] { old := r.nodes, nextSerial := r.nextSerial } hd
      ⟨⟨List.forall_mem_nil _, List.forall_mem_nil _, fun _ _ => rfl⟩, rfl, rfl⟩
    exact ⟨h.added, removed_sync r specs, h.changed⟩
  intro specs
  induction specs with
  | nil =>
    intro done s _ h
    rwa [List.append_nil]
  | cons spec specs ih =>
    intro done s hd h
    rw [List.append_cons] at hd ⊢
    refine ih (done ++ [spec]) (s.add spec) hd (h.add hr fun spec' hspec' => ?_)
    rw [List.append_assoc, List.singleton_append, List.map_append, List.map_cons] at hd
    exact (List.nodup_append.mp hd).2.2 _ (List.mem_map_of_mem hspec') _ List.mem_cons_self

/-! ## Registries in use -/

/-- A registry that has read declarations any number of times; what its nodes remember changes in
between. -/
inductive Reached : Registry → Prop where
  | empty : Reached {}
  | sync {r : Registry} (h : Reached r) (specs : List OutputSpec) : Reached (r.sync specs).1
  | remember {r : Registry} (h : Reached r) (id : String) {f : OutputNode → OutputNode}
    (declared : ∀ n, (f n).SameDeclaration n) : Reached (r.modify id f)

theorem Reached.nodup (h : Reached r) : r.ids.Nodup := by
  induction h with
  | empty => exact List.nodup_nil
  | sync h specs ih => exact nodup_ids_sync _ specs
  | remember h id declared ih =>
    rw [ids_modify fun n => (declared n).id_eq]
    exact ih

/-- Where no two declarations have one id, it is the one declaration that counts. -/
theorem remembers_sync (hr : r.ids.Nodup) (hd : (specs.map fun spec => variableName spec.id).Nodup)
    (hm : m ∈ r.nodes) (hn : n ∈ (r.sync specs).1.nodes) (hid : n.id = m.id) :
    (m.SameComputation n → n.SameMemory m) ∧ (¬ m.SameComputation n → n.Blank) := by
  obtain ⟨spec, hspec, hspecid, hdeclared⟩ := (declaredLast_sync r specs n hn).exists_mem
  have hrecalls := recalls_of_mem hr hm hn hid
  constructor
  · intro hsame
    refine (hrecalls.kept fun spec' hspec' hid' => ?_).1
    obtain rfl := List.inj_on_of_nodup_map hd hspec' hspec (hid'.trans (hspecid.trans hid).symm)
    exact hsame.trans hdeclared.toSameComputation
  · intro hother
    refine hrecalls.lost ⟨spec, hspec, hspecid.trans hid, fun hsame => hother ?_⟩
    exact hsame.trans hdeclared.toSameComputation.symm

/-- Whatever a registry was before, its nodes are declared as those of an empty one that reads the
same declarations, each by the last one with its id.  If no two declarations have one id, it reports
the ids that are new, that are gone and that are declared in another way, and a node keeps what it
remembers if it is computed as before, and else remembers nothing. -/
theorem sync_eq_fresh (h : Reached r) (specs : List OutputSpec) :
    List.Forall₂ OutputNode.SameDeclaration (r.sync specs).1.nodes
      (({} : Registry).sync specs).1.nodes ∧
    (∀ n ∈ (r.sync specs).1.nodes, DeclaredLast specs n) ∧
    ((specs.map fun spec => variableName spec.id).Nodup → r.Reports specs (r.sync specs).2.1 ∧
      ∀ m ∈ r.nodes, ∀ n ∈ (r.sync specs).1.nodes, n.id = m.id →
        (m.SameComputation n → n.SameMemory m) ∧ (¬ m.SameComputation n → n.Blank)) :=
  ⟨declared_sync r {} specs, declaredLast_sync r specs, fun hd =>
    ⟨reports_sync h.nodup hd, fun _ hm _ hn => remembers_sync h.nodup hd hm hn⟩⟩

/-- The outputs of a form. -/
def outputs : List OutputSpec :=
  [{ id := "a", expression := "x + y" }, { id := "b", expression := "x" },
    { id := "d", expression := "x" }]

/-- A node that was evaluated and written. -/
def shown (n : OutputNode) : OutputNode := { n with lastWritten := some "3", evaluated := true }

/-- The outputs of the form when two of them have been computed. -/
def computed : Registry := ((({} : Registry).sync outputs).1.modify "a" shown).modify "b" shown

/-- One output is new, one is gone, one gets a format, and one gets another expression. -/
def redeclared : List OutputSpec :=
  [{ id := "b", expression := "x * 2" }, { id := "c", expression := "y" },
    { id := "a", expression := "x + y", format := some "currency" }]

theorem sync_eq_fresh_redeclared : computed.Reached ∧
    computed.Reports redeclared { added := ["c"], removed := ["d"], changed := ["b", "a"] } ∧
    ∃ m ∈ computed.nodes, ∃ n ∈ (computed.sync redeclared).1.nodes,
      m.lastWritten = some "3" ∧ n.format = some "currency" ∧ n.SameMemory m := by
  have hshown : ∀ n, (shown n).SameDeclaration n := fun n =>
    ⟨⟨rfl, fun _ => .rfl⟩, rfl, rfl, rfl, rfl, rfl, rfl, rfl⟩
  have hreached : computed.Reached :=
    ((Reached.empty.sync outputs).remember "a" hshown).remember "b" hshown
  have hdiff : (computed.sync redeclared).2.1 =
      { added := ["c"], removed := ["d"], changed := ["b", "a"] } := by decide +kernel
  have hnodes : ∃ m ∈ computed.nodes, ∃ n ∈ (computed.sync redeclared).1.nodes, n.id = m.id ∧
      m.SameComputation n ∧ m.lastWritten = some "3" ∧ n.format = some "currency" := by
    decide +kernel
  obtain ⟨-, -, hdistinct⟩ := sync_eq_fresh hreached redeclared
  obtain ⟨hreports, hremembers⟩ := hdistinct (by decide +kernel)
  obtain ⟨m, hm, n, hn, hid, hsame, hwritten, hformat⟩ := hnodes
  exact ⟨hreached, hdiff ▸ hreports, m, hm, n, hn, hwritten, hformat,
    (hremembers m hm n hn hid).1 hsame⟩

end LiveForm.Registry
