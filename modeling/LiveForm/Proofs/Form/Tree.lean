import LiveForm.Form.Tree
import LiveForm.Name
import LiveForm.Proofs.Lookup
import Mathlib.Data.List.Nodup
import Mathlib.Tactic.Common

/-!
# What a form keeps

The names of the fields are distinct, and an output is declared under the name of its field.
Changing a text changes what is read from that field only.
-/

namespace LiveForm.FormTree

variable {t t' : FormTree} {name text : String}

/-- A form as it is built by its operations. -/
structure Proper (t : FormTree) : Prop where
  names : (t.fields.map (·.1)).Nodup
  specs : ∀ p ∈ t.fields, ∀ spec, p.2.output = some spec → spec.id = p.1

theorem proper_empty (echoes : Bool) : Proper { echoes } :=
  ⟨List.nodup_nil, fun _ h => absurd h List.not_mem_nil⟩

/-! ## Putting fields -/

theorem mem_put {fields : List (String × Field)} {f : Field} {p : String × Field}
    (h : p ∈ put fields name f) : p = (name, f) ∨ p ∈ fields := by
  rw [put] at h
  split at h
  · obtain ⟨q, hq, hp⟩ := List.mem_map.mp h
    split at hp
    · exact Or.inl hp.symm
    · exact Or.inr (hp ▸ hq)
  · rcases List.mem_append.mp h with h | h
    · exact Or.inr h
    · exact Or.inl (List.mem_singleton.mp h)

theorem nodup_names_put {fields : List (String × Field)} (h : (fields.map (·.1)).Nodup)
    (name : String) (f : Field) : ((put fields name f).map (·.1)).Nodup := by
  rw [put]
  split
  · have hmap : (fields.map fun p => if p.1 == name then (name, f) else p).map (·.1) =
        fields.map (·.1) := by
      rw [List.map_map]
      refine List.map_congr_left fun p _ => ?_
      rw [Function.comp_apply]
      split
      · next hp => exact (beq_iff_eq.mp hp).symm
      · rfl
    rw [hmap]
    exact h
  · next hn =>
    rw [List.map_append]
    refine List.nodup_append.mpr ⟨h, List.nodup_singleton _, ?_⟩
    rintro a ha b hb rfl
    obtain ⟨p, hp, rfl⟩ := List.mem_map.mp ha
    have hb := List.mem_singleton.mp hb
    exact hn (List.any_eq_true.mpr ⟨p, hp, beq_iff_eq.mpr hb⟩)

/-- What is found is the field that was put there, or the one that is there. -/
theorem lookup_put (fields : List (String × Field)) (name field : String) (f : Field) :
    (put fields name f).lookup field = if field = name then some f else fields.lookup field := by
  rw [put]
  split
  · next hany =>
    have hmap : (fields.map fun p => if p.1 == name then (name, f) else p) =
        fields.map fun p => if p.1 == name then (p.1, f) else p := by
      refine List.map_congr_left fun p _ => ?_
      by_cases hp : p.1 = name
      · rw [hp]
      · rw [if_neg (by simpa using hp), if_neg (by simpa using hp)]
    rw [hmap, lookup_map_at fields name field fun _ => f]
    by_cases hf : field = name
    · subst hf
      obtain ⟨p, hp, hname⟩ := List.any_eq_true.mp hany
      have hsome : fields.lookup field ≠ none := fun hnone => by
        have hne := List.lookup_eq_none_iff.mp hnone p hp
        rw [beq_iff_eq.mp hname] at hne
        simp at hne
      obtain ⟨g, hg⟩ := Option.ne_none_iff_exists'.mp hsome
      simp [hg]
    · simp [hf]
  · next hany =>
    rw [List.lookup_append, List.lookup_cons, List.lookup_nil]
    by_cases hf : field = name
    · subst hf
      have hnone : fields.lookup field = none := List.lookup_eq_none_iff.mpr fun p hp => by
        refine bne_iff_ne.mpr fun he => hany (List.any_eq_true.mpr ⟨p, hp, ?_⟩)
        exact beq_iff_eq.mpr he.symm
      simp [hnone]
    · rw [if_neg hf, beq_false_of_ne hf]
      exact Option.or_none

theorem Proper.put (h : t.Proper) {f : Field} (hf : ∀ spec, f.output = some spec → spec.id = name) :
    Proper { t with fields := put t.fields name f } := by
  refine ⟨nodup_names_put h.names name f, fun p hp spec hspec => ?_⟩
  rcases mem_put hp with rfl | hp
  · exact hf spec hspec
  · exact h.specs p hp spec hspec

theorem Proper.withField (h : t.Proper) (name text scope : String) :
    (t.withField name text scope).Proper :=
  h.put nofun

theorem Proper.withOutput (h : t.Proper) (spec : OutputSpec) (text : String) :
    (t.withOutput spec text).Proper := by
  refine h.put fun spec' hs => ?_
  cases hs
  rfl

/-- A field that was added shows the text of its value. -/
theorem addField_eq_ok {value : Value} {scope : String} :
    t.addField name value scope = .ok t' ↔
      ∃ text, value.plainText = .ok text ∧ t' = t.withField name text scope := by
  unfold addField shown
  cases value.plainText with
  | error e => exact ⟨nofun, nofun⟩
  | ok text =>
    refine ⟨fun h => ⟨text, rfl, (Except.ok.inj h).symm⟩, ?_⟩
    rintro ⟨_, ⟨⟩, rfl⟩
    rfl

theorem addOutput_eq_ok {spec : OutputSpec} {value : Value} :
    t.addOutput spec value = .ok t' ↔
      ∃ text, value.plainText = .ok text ∧ t' = t.withOutput spec text := by
  unfold addOutput shown
  cases value.plainText with
  | error e => exact ⟨nofun, nofun⟩
  | ok text =>
    refine ⟨fun h => ⟨text, rfl, (Except.ok.inj h).symm⟩, ?_⟩
    rintro ⟨_, ⟨⟩, rfl⟩
    rfl

theorem setValue_eq_ok {value : Value} :
    t.setValue name value = .ok t' ↔ (t.find? name).isNone = false ∧
      ∃ text, value.plainText = .ok text ∧
        t' = { t with fields := setText t.fields name text } := by
  unfold setValue shown
  cases (t.find? name).isNone with
  | true => exact ⟨nofun, nofun⟩
  | false =>
    rw [if_neg Bool.false_ne_true]
    cases value.plainText with
    | error e => exact ⟨nofun, nofun⟩
    | ok text =>
      refine ⟨fun h => ⟨rfl, text, rfl, (Except.ok.inj h).symm⟩, ?_⟩
      rintro ⟨-, _, ⟨⟩, rfl⟩
      rfl

theorem Proper.addField (h : t.Proper) {value : Value} {scope : String}
    (ha : t.addField name value scope = .ok t') : t'.Proper := by
  obtain ⟨text, -, rfl⟩ := addField_eq_ok.mp ha
  exact h.withField name text scope

theorem Proper.addOutput (h : t.Proper) {spec : OutputSpec} {value : Value}
    (ha : t.addOutput spec value = .ok t') : t'.Proper := by
  obtain ⟨text, -, rfl⟩ := addOutput_eq_ok.mp ha
  exact h.withOutput spec text

theorem Proper.remove (h : t.Proper) (hr : t.remove name = .ok t') : t'.Proper := by
  unfold FormTree.remove at hr
  split at hr
  · cases hr
  · cases hr
    refine ⟨(List.filter_sublist.map _).nodup h.names, fun p hp => ?_⟩
    exact h.specs p (List.mem_filter.mp hp).1

/-! ## Changing texts -/

/-- The names, the scopes and the declarations of the fields. -/
def shape (t : FormTree) : List (String × String × Option OutputSpec) :=
  t.fields.map fun p => (p.1, p.2.scope, p.2.output)

theorem names_of_shape (h : t'.shape = t.shape) : t'.fields.map (·.1) = t.fields.map (·.1) := by
  have hnames := congrArg (List.map (·.1)) h
  rwa [shape, shape, List.map_map, List.map_map] at hnames

theorem outputSpecs_of_shape (h : t'.shape = t.shape) (scope : Option String) :
    t'.outputSpecs scope = t.outputSpecs scope := by
  have hspecs : ∀ t : FormTree, t.outputSpecs scope =
      t.shape.filterMap fun p => if inScope p.2.1 scope then p.2.2 else none := by
    intro t
    rw [shape, List.filterMap_map]
    rfl
  rw [hspecs, hspecs, h]

theorem inputNames_of_shape (h : t'.shape = t.shape) (scope : Option String) :
    t'.inputNames scope = t.inputNames scope := by
  have hnames : ∀ t : FormTree, t.inputNames scope =
      (t.shape.filter fun p => inScope p.2.1 scope).map (·.1) := by
    intro t
    rw [shape, List.filter_map, List.map_map]
    rfl
  rw [hnames, hnames, h]

theorem Proper.of_shape (hp : t.Proper) (h : t'.shape = t.shape) : t'.Proper := by
  refine ⟨names_of_shape h ▸ hp.names, fun p hmem spec hspec => ?_⟩
  have hshape : (p.1, p.2.scope, p.2.output) ∈ t.shape := h ▸ List.mem_map.mpr ⟨p, hmem, rfl⟩
  obtain ⟨q, hq, heq⟩ := List.mem_map.mp hshape
  simp only [Prod.mk.injEq] at heq
  rw [← heq.1]
  exact hp.specs q hq spec (heq.2.2.trans hspec)

theorem shape_setText (t : FormTree) (name text : String) (writes : List (String × String)) :
    shape { t with fields := setText t.fields name text, writes } = t.shape := by
  rw [shape, setText, List.map_map]
  refine List.map_congr_left fun p _ => ?_
  rw [Function.comp_apply]
  split
  · rfl
  · rfl

theorem shape_write (t : FormTree) (name text : String) : (t.write name text).shape = t.shape := by
  rw [write]
  split
  · rfl
  · exact shape_setText t name text _

theorem shape_setValue {value : Value} (hs : t.setValue name value = .ok t') :
    t'.shape = t.shape := by
  obtain ⟨-, text, -, rfl⟩ := setValue_eq_ok.mp hs
  exact shape_setText t name text t.writes

/-- What is found is the field with the text that was put there. -/
theorem find?_setText (t : FormTree) (name text field : String) (writes : List (String × String)) :
    find? { t with fields := setText t.fields name text, writes } field =
      (t.find? field).map fun f => if field = name then { f with text } else f :=
  lookup_map_at t.fields name field fun f => { f with text }

theorem find?_setText_of_ne {field : String} (h : field ≠ name) (writes : List (String × String)) :
    find? { t with fields := setText t.fields name text, writes } field = t.find? field := by
  rw [find?_setText]
  simp only [if_neg h, Option.map_id']

theorem Proper.setValue (h : t.Proper) {value : Value} (hs : t.setValue name value = .ok t') :
    t'.Proper :=
  h.of_shape (shape_setValue hs)

theorem Proper.write (h : t.Proper) (name text : String) : (t.write name text).Proper :=
  h.of_shape (shape_write t name text)

/-- Writing to a field changes no other one. -/
theorem find?_write_of_ne {field : String} (h : field ≠ name) :
    (t.write name text).find? field = t.find? field := by
  rw [write]
  split
  · rfl
  · exact find?_setText_of_ne h _

theorem read_write_of_ne {field : String} (h : field ≠ name) :
    (t.write name text).read field = t.read field := by
  rw [read, read, find?_write_of_ne h]

/-- What is written to a field is read from it. -/
theorem read_write_self (h : (t.find? name).isSome = true) :
    (t.write name text).read name = some text := by
  obtain ⟨f, hf⟩ := Option.isSome_iff_exists.mp h
  rw [write, if_neg (by rw [hf]; exact Bool.false_ne_true), read, find?_setText, hf]
  simp

theorem find?_setValue_of_ne {value : Value} (hs : t.setValue name value = .ok t') {field : String}
    (h : field ≠ name) : t'.find? field = t.find? field := by
  obtain ⟨-, text, -, rfl⟩ := setValue_eq_ok.mp hs
  exact find?_setText_of_ne h t.writes

theorem read_setValue_of_ne {value : Value} (hs : t.setValue name value = .ok t') {field : String}
    (h : field ≠ name) : t'.read field = t.read field := by
  rw [read, read, find?_setValue_of_ne hs h]

theorem read_setValue_self {value : Value} (hs : t.setValue name value = .ok t') :
    ∃ text, value.plainText = .ok text ∧ t'.read name = some text := by
  obtain ⟨hn, text, htext, rfl⟩ := setValue_eq_ok.mp hs
  obtain ⟨f, hf⟩ := Option.isSome_iff_exists.mp (Option.isNone_eq_false_iff.mp hn)
  refine ⟨text, htext, ?_⟩
  rw [read, find?_setText _ _ _ _ t.writes, hf]
  simp

theorem mem_of_setValue {value : Value} (hs : t.setValue name value = .ok t') :
    name ∈ t.fields.map (·.1) := by
  obtain ⟨hn, -, -, -⟩ := setValue_eq_ok.mp hs
  obtain ⟨f, hf⟩ := Option.isSome_iff_exists.mp (Option.isNone_eq_false_iff.mp hn)
  exact List.mem_map_of_mem (mem_of_lookup hf)

/-- Forms with the same names show the same if every field does. -/
theorem values_congr (hp' : t'.Proper) (hp : t.Proper)
    (hnames : t'.fields.map (·.1) = t.fields.map (·.1))
    (hread : ∀ name ∈ t.fields.map (·.1), t'.read name = t.read name) : t'.values = t.values := by
  have hvalues : ∀ {t : FormTree}, t.Proper →
      t.values = (t.fields.map (·.1)).map fun name => (name, (t.read name).getD "") := by
    intro t hp
    rw [values, List.map_map]
    refine List.map_congr_left fun p hmem => ?_
    rw [Function.comp_apply, read, find?, lookup_of_mem hp.names hmem]
    rfl
  rw [hvalues hp', hvalues hp, hnames]
  exact List.map_congr_left fun name hname => by rw [hread name hname]

/-! ## Declared outputs -/

/-- An output is declared by the field of its name. -/
theorem mem_outputSpecs (h : t.Proper) {spec : OutputSpec} :
    spec ∈ t.outputSpecs none ↔ ∃ f, t.find? spec.id = some f ∧ f.output = some spec := by
  rw [outputSpecs, List.mem_filterMap]
  constructor
  · rintro ⟨p, hp, hspec⟩
    have hid : spec.id = p.1 := h.specs p hp spec hspec
    refine ⟨p.2, ?_, hspec⟩
    rw [hid]
    exact lookup_of_mem h.names hp
  · rintro ⟨f, hf, hspec⟩
    exact ⟨(spec.id, f), mem_of_lookup hf, hspec⟩

theorem nodup_ids_outputSpecs (h : t.Proper) : ((t.outputSpecs none).map (·.id)).Nodup := by
  have hsub : ∀ fields : List (String × Field),
      (∀ p ∈ fields, ∀ spec, p.2.output = some spec → spec.id = p.1) →
      ((fields.filterMap (·.2.output)).map (·.id)).Sublist (fields.map (·.1)) := by
    intro fields
    induction fields with
    | nil => exact fun _ => .slnil
    | cons p fields ih =>
      intro hall
      have hrest := ih fun q hq => hall q (List.mem_cons_of_mem _ hq)
      rw [List.filterMap_cons]
      cases hp : p.2.output with
      | none => exact hrest.cons _
      | some spec =>
        rw [List.map_cons, List.map_cons, hall p List.mem_cons_self spec hp]
        exact hrest.cons_cons _
  exact (hsub t.fields h.specs).nodup h.names

/-- What is declared when a field was put there is declared by it, or was declared before and shows
the same text. -/
theorem declared_put (hp : t.Proper) {f : Field}
    (hf : ∀ spec, f.output = some spec → spec.id = name) {spec : OutputSpec} (hspec : spec ∈ outputSpecs { t with fields := put t.fields name f } none) :
    f.output = some spec ∨ spec ∈ t.outputSpecs none ∧
      read { t with fields := put t.fields name f } spec.id = t.read spec.id := by
  have hfind : ∀ field, find? { t with fields := put t.fields name f } field =
      if field = name then some f else t.find? field :=
    fun field => lookup_put t.fields name field f
  obtain ⟨g, hg, hout⟩ := (mem_outputSpecs (hp.put hf)).mp hspec
  rw [read, read, hfind]
  rw [hfind] at hg
  by_cases hid : spec.id = name
  · rw [if_pos hid] at hg
    cases hg
    exact Or.inl hout
  · rw [if_neg hid] at hg ⊢
    exact Or.inr ⟨(mem_outputSpecs hp).mpr ⟨g, hg, hout⟩, rfl⟩

/-- What is declared when a field was removed was declared before and shows the same text. -/
theorem declared_remove (hp : t.Proper) (hr : t.remove name = .ok t') {spec : OutputSpec}
    (hspec : spec ∈ t'.outputSpecs none) :
    spec ∈ t.outputSpecs none ∧ t'.read spec.id = t.read spec.id := by
  unfold remove at hr
  split at hr
  · cases hr
  · cases hr
    obtain ⟨p, hmem, hout⟩ := List.mem_filterMap.mp hspec
    obtain ⟨hmem, hne⟩ := List.mem_filter.mp hmem
    have hid : spec.id = p.1 := hp.specs p hmem spec hout
    refine ⟨List.mem_filterMap.mpr ⟨p, hmem, hout⟩, ?_⟩
    exact congrArg (Option.map (·.text)) (lookup_filter_ne t.fields (hid ▸ bne_iff_ne.mp hne))

/-- No two declared outputs have the same variable. -/
def Distinct (t : FormTree) : Prop :=
  ∀ spec ∈ t.outputSpecs none, ∀ other ∈ t.outputSpecs none,
    variableName spec.id = variableName other.id → spec.id = other.id

instance (t : FormTree) : Decidable t.Distinct :=
  inferInstanceAs (Decidable (∀ spec ∈ t.outputSpecs none, ∀ other ∈ t.outputSpecs none,
    variableName spec.id = variableName other.id → spec.id = other.id))

theorem Distinct.nodup (h : t.Distinct) (hp : t.Proper) :
    ((t.outputSpecs none).map fun spec => variableName spec.id).Nodup := by
  have hnodup := nodup_ids_outputSpecs hp
  have hmap : (t.outputSpecs none).map (fun spec => variableName spec.id) =
      ((t.outputSpecs none).map (·.id)).map variableName := by
    rw [List.map_map]
    rfl
  rw [hmap]
  refine hnodup.map_on fun a ha b hb hab => ?_
  obtain ⟨spec, hspec, rfl⟩ := List.mem_map.mp ha
  obtain ⟨other, hother, rfl⟩ := List.mem_map.mp hb
  exact h spec hspec other hother hab

/-- A declared output is the only one with its variable. -/
theorem Distinct.eq (h : t.Distinct) (hp : t.Proper) {spec other : OutputSpec}
    (hspec : spec ∈ t.outputSpecs none) (hother : other ∈ t.outputSpecs none)
    (hid : variableName spec.id = variableName other.id) : spec = other :=
  List.inj_on_of_nodup_map (h.nodup hp) hspec hother hid

/-! ## The fields in another order -/

theorem inputNames_none (t : FormTree) : t.inputNames none = t.fields.map (·.1) := by
  have hall : t.fields.filter (fun p => inScope p.2.scope none) = t.fields :=
    List.filter_eq_self.mpr fun _ _ => rfl
  exact congrArg (List.map Prod.fst) hall

theorem Proper.perm (h : t.Proper) (hp : t'.fields.Perm t.fields) : t'.Proper :=
  ⟨(hp.map (·.1)).nodup_iff.mpr h.names, fun p hmem => h.specs p (hp.mem_iff.mp hmem)⟩

theorem read_of_perm (h : t.Proper) (hp : t'.fields.Perm t.fields) : t'.read = t.read := by
  funext name
  rw [read, read, find?, find?, lookup_of_perm h.names hp]

theorem mem_outputSpecs_of_perm (hp : t'.fields.Perm t.fields) (scope : Option String)
    {spec : OutputSpec} : spec ∈ t'.outputSpecs scope ↔ spec ∈ t.outputSpecs scope :=
  (hp.filterMap _).mem_iff

end LiveForm.FormTree
