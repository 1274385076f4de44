import LiveForm.Proofs.Engine.Coherent

/-!
# Forms that can be read

To read a form is to bind its fields to their variables and to read the subscripts in their names.
A form whose fields have distinct variables can be read just if none of the subscripts has too many
digits.  Where one has, the nodes are let go of and the bindings made, and then the reading breaks
off.
-/

namespace LiveForm.Engine

open Text (maxDigits)

variable {settings : Settings} {mode : YieldMode} {e : Engine} {name : String}

/-! ## Binding names -/

/-- Every variable that is bound stays bound when names are bound, and those of the names are. -/
theorem any_bindNames (names : List String) (v : String) :
    (bindNames names).any (·.1 == v) = names.any (variableName · == v) := by
  suffices h : ∀ (names : List String) (vs : List (String × String)),
      (names.foldl (fun vs name =>
        let v := variableName name
        if vs.any (·.1 == v) then vs.map fun p => if p.1 == v then (v, name) else p
        else vs ++ [(v, name)]) vs).any (·.1 == v) =
      (vs.any (·.1 == v) || names.any (variableName · == v)) from h names []
  intro names
  induction names with
  | nil => exact fun vs => (Bool.or_false _).symm
  | cons name names ih =>
    intro vs
    rw [List.foldl_cons, ih, List.any_cons, ← Bool.or_assoc]
    congr 1
    dsimp only
    split
    · next hbound =>
      -- The variable is bound to another field, and the others stay as they are
      have hkeys : (vs.map fun p => if p.1 == variableName name then (variableName name, name)
          else p).any (·.1 == v) = vs.any (·.1 == v) := by
        rw [List.any_map]
        refine congrArg vs.any (funext fun p => ?_)
        rw [Function.comp_apply]
        split
        · next hp => rw [beq_iff_eq.mp hp]
        · rfl
      rw [hkeys]
      by_cases hv : variableName name = v
      · rw [← hv, hbound, Bool.true_or]
      · rw [beq_eq_false_iff_ne.mpr hv, Bool.or_false]
    · rw [List.any_append, List.any_cons, List.any_nil, Bool.or_false]

theorem any_bindNodes {vs : List (String × String)} {v : String} (h : vs.any (·.1 == v) = true)
    (nodes : List OutputNode) : (bindNodes vs nodes).any (·.1 == v) = true := by
  induction nodes generalizing vs with
  | nil => exact h
  | cons n nodes ih =>
    refine ih ?_
    dsimp only
    split
    · exact h
    · rw [List.any_append, h, Bool.true_or]

/-- Where no two names have one variable each variable stands for its name. -/
theorem bindNames_eq {names : List String} (h : (names.map variableName).Nodup) :
    bindNames names = names.map fun name => (variableName name, name) := by
  suffices hall : ∀ todo done : List String, ((done ++ todo).map variableName).Nodup →
      todo.foldl (fun vs name =>
        let v := variableName name
        if vs.any (·.1 == v) then vs.map fun p => if p.1 == v then (v, name) else p
        else vs ++ [(v, name)]) (done.map fun name => (variableName name, name)) =
      (done ++ todo).map fun name => (variableName name, name) from hall names [] h
  intro todo
  induction todo with
  | nil =>
    intro done _
    rw [List.append_nil]
    rfl
  | cons name todo ih =>
    intro done h
    have hnew : ¬ (done.map fun name => (variableName name, name)).any
        (·.1 == variableName name) = true := by
      intro hany
      obtain ⟨p, hp, hv⟩ := List.any_eq_true.mp hany
      obtain ⟨other, hother, rfl⟩ := List.mem_map.mp hp
      rw [List.map_append, List.map_cons] at h
      exact (List.nodup_append.mp h).2.2 _ (List.mem_map_of_mem hother) _ List.mem_cons_self
        (beq_iff_eq.mp hv)
    rw [List.foldl_cons]
    dsimp only
    rw [if_neg hnew]
    have hnext := ih (done ++ [name]) (by rwa [List.append_assoc, List.singleton_append])
    rwa [List.map_append, List.append_assoc] at hnext

/-- Nodes whose variables are bound are not bound again. -/
theorem bindNodes_eq {vs : List (String × String)} {nodes : List OutputNode}
    (h : ∀ n ∈ nodes, vs.any (·.1 == n.id) = true) : bindNodes vs nodes = vs := by
  induction nodes with
  | nil => rfl
  | cons n nodes ih =>
    show bindNodes (if vs.any (·.1 == n.id) then vs else vs ++ [(n.id, n.field)]) nodes = vs
    rw [if_pos (h n List.mem_cons_self)]
    exact ih fun m hm => h m (List.mem_cons_of_mem _ hm)

/-! ## Reading the names -/

/-- When the form was read all its fields are known. -/
theorem bound_rescan (e : Engine) : ∀ name ∈ e.rescan.1.tree.fields.map (·.1),
    e.rescan.1.bindings.any (·.1 == variableName name) = true := by
  intro name hname
  rw [tree_rescan] at hname
  rw [bindings_rescan_eq]
  refine any_bindNodes ?_ _
  rw [any_bindNames, FormTree.inputNames_none]
  exact List.any_eq_true.mpr ⟨name, hname, beq_self_eq_true _⟩

/-- The variables of the declared outputs are distinct where those of all fields are. -/
theorem distinct_of_names {t : FormTree} (hp : t.Proper)
    (hnames : ((t.fields.map (·.1)).map variableName).Nodup) : t.Distinct := by
  have hmem : ∀ spec ∈ t.outputSpecs none, spec.id ∈ t.fields.map (·.1) := by
    intro spec hspec
    obtain ⟨f, hf, -⟩ := (FormTree.mem_outputSpecs hp).mp hspec
    exact List.mem_map_of_mem (mem_of_lookup hf)
  exact fun spec hspec other hother hid =>
    List.inj_on_of_nodup_map hnames (hmem spec hspec) (hmem other hother) hid

theorem bindings_rescan (hp : e.tree.Proper)
    (hnames : ((e.tree.fields.map (·.1)).map variableName).Nodup) :
    e.rescan.1.bindings = (e.tree.fields.map (·.1)).map fun name => (variableName name, name) := by
  have hd := distinct_of_names hp hnames
  have hbound : ∀ n ∈ (e.registry.sync (e.tree.outputSpecs none)).1.nodes,
      (bindNames (e.tree.inputNames none)).any (·.1 == n.id) = true := by
    intro n hn
    obtain ⟨spec, hspec, hderives⟩ := (Registry.derives_sync (hd.nodup hp)).1 n hn
    obtain ⟨f, hf, -⟩ := (FormTree.mem_outputSpecs hp).mp hspec
    rw [any_bindNames, FormTree.inputNames_none, hderives.id_eq]
    exact List.any_eq_true.mpr ⟨spec.id, List.mem_map_of_mem (mem_of_lookup hf),
      beq_self_eq_true _⟩
  rw [bindings_rescan_eq]
  refine (bindNodes_eq hbound).trans ?_
  rw [FormTree.inputNames_none, bindNames_eq hnames]

/-- A form whose fields have distinct variables can be read just if no subscript in their names has
too many digits. -/
theorem readable_iff (hp : e.tree.Proper)
    (hnames : ((e.tree.fields.map (·.1)).map variableName).Nodup) :
    e.Readable ↔ ∀ name ∈ e.tree.fields.map (·.1), ∀ digits,
      Name.HasSubscript name.toList digits → digits.length ≤ maxDigits := by
  have hfields : e.reread.bindings.map Prod.snd = e.tree.fields.map (·.1) := by
    rw [← bindings_rescan_eq, bindings_rescan hp hnames, List.map_map]
    exact List.map_id _
  rw [Readable, hfields, exists_rowIndices]

theorem perform_rescan_of_not_readable (hn : ¬ e.Readable) :
    e.perform .rescan = .fail e.rescan.1 .tooManyDigits := by
  unfold perform
  rw [rescan_of_not_readable hn]

/-! ## A name that cannot be read -/

/-- A name with a subscript of one digit too many. -/
def overlong : String := .ofList ('r' :: '[' :: (List.replicate (maxDigits + 1) '1' ++ [']']))

theorem hasSubscript_overlong :
    Name.HasSubscript overlong.toList (List.replicate (maxDigits + 1) '1') := by
  refine ⟨List.cons_ne_nil _ _, fun c hc => ?_, ['r'], [], ?_⟩
  · rw [List.eq_of_mem_replicate hc]
    rfl
  · rw [overlong, String.toList_ofList, List.append_nil]
    rfl

theorem variableName_overlong : (variableName overlong).toList.head? = some 'r' := by
  rw [variableName, String.toList_ofList, overlong, String.toList_ofList, Name.flattenChars,
    Name.openSubscripts]
  rfl

/-- The engine when a field with this name was added to its form, of which it was not told. -/
def spoilt (e : Engine) : Engine := { e with tree := e.tree.withField overlong "" "" }

/-- The engine when the reading of its form broke off at that field; the others are bound so. -/
def halfRead (e : Engine) (bindings : List (String × String)) : Engine :=
  ({ e.reread with
    tree := { e.tree with fields := e.tree.fields ++ [(overlong, ⟨"", "", none⟩)] }
    bindings := bindings ++ [(variableName overlong, overlong)] } : Engine).withRegistry e.synced

theorem perform_addField_overlong (e : Engine) :
    e.perform (.addField overlong (.text "") "" false) = e.spoilt.finish := rfl

section

variable (hplain : ∀ name ∈ e.tree.fields.map (·.1), (variableName name).toList.head? ≠ some 'r')

include hplain

theorem fields_spoilt : e.spoilt.tree.fields = e.tree.fields ++ [(overlong, ⟨"", "", none⟩)] := by
  have hnew : ¬ e.tree.fields.any (·.1 == overlong) = true := by
    intro hany
    obtain ⟨p, hp, hname⟩ := List.any_eq_true.mp hany
    refine hplain p.1 (List.mem_map_of_mem hp) ?_
    rw [beq_iff_eq.mp hname]
    exact variableName_overlong
  exact if_neg hnew

theorem names_spoilt : e.spoilt.tree.fields.map (·.1) = e.tree.fields.map (·.1) ++ [overlong] := by
  rw [fields_spoilt hplain, List.map_append]
  rfl

/-- The field is no output, so that the nodes are the same. -/
theorem sync_spoilt : e.spoilt.registry.sync (e.spoilt.tree.outputSpecs none) =
    e.registry.sync (e.tree.outputSpecs none) := by
  have hspecs : e.spoilt.tree.outputSpecs none = e.tree.outputSpecs none := by
    rw [FormTree.outputSpecs, fields_spoilt hplain, List.filterMap_append]
    exact List.append_nil _
  rw [hspecs]
  rfl

theorem nodup_spoilt (hnames : ((e.tree.fields.map (·.1)).map variableName).Nodup) :
    ((e.spoilt.tree.fields.map (·.1)).map variableName).Nodup := by
  rw [names_spoilt hplain, List.map_append]
  refine List.nodup_append.mpr ⟨hnames, List.nodup_singleton _, ?_⟩
  intro v hv w hw heq
  obtain ⟨name, hname, rfl⟩ := List.mem_map.mp hv
  refine hplain name hname ?_
  rw [heq, List.mem_singleton.mp hw]
  exact variableName_overlong

/-- The form cannot be read any more. -/
theorem not_readable_spoilt (hp : e.tree.Proper)
    (hnames : ((e.tree.fields.map (·.1)).map variableName).Nodup) : ¬ e.spoilt.Readable := by
  have hproper : e.spoilt.tree.Proper := hp.withField overlong "" ""
  rw [readable_iff hproper (nodup_spoilt hplain hnames), names_spoilt hplain]
  intro hall
  have hle := hall overlong (List.mem_append_right _ List.mem_cons_self) _ hasSubscript_overlong
  rw [List.length_replicate] at hle
  omega

theorem rescan_spoilt (hp : e.tree.Proper)
    (hnames : ((e.tree.fields.map (·.1)).map variableName).Nodup) :
    e.spoilt.rescan.1 =
      e.halfRead ((e.tree.fields.map (·.1)).map fun name => (variableName name, name)) := by
  have htree : e.spoilt.tree =
      { e.tree with fields := e.tree.fields ++ [(overlong, ⟨"", "", none⟩)] } := by
    rw [← fields_spoilt hplain]
    rfl
  have hbindings : e.spoilt.reread.bindings = (e.tree.fields.map (·.1)).map
      (fun name => (variableName name, name)) ++ [(variableName overlong, overlong)] := by
    rw [← bindings_rescan_eq, bindings_rescan (hp.withField overlong "" "")
      (nodup_spoilt hplain hnames), names_spoilt hplain, List.map_append]
    rfl
  have hreread : e.spoilt.reread =
      { e.reread with tree := e.spoilt.tree, bindings := e.spoilt.reread.bindings } := by
    unfold reread
    rw [sync_spoilt hplain]
    rfl
  rcases rescan_cases e.spoilt with ⟨hr, -⟩ | ⟨-, heq⟩
  · exact absurd hr (not_readable_spoilt hplain hp hnames)
  · rw [heq, hreread, hbindings, htree, synced, sync_spoilt hplain]
    rfl

end

end LiveForm.Engine
