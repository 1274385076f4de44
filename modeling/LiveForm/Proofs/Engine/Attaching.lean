import LiveForm.Proofs.Engine.Filling

/-!
# What a fresh engine computes

An engine that is attached for the first time computes each output once.  A text that an output
shows already is not written, and is then taken for a text of the user by whoever reads it.  Where
no output that is read shows its text at first, the values do not depend on what the outputs showed.
-/

namespace LiveForm

/-- Two forms that differ in what their outputs show, if at all. -/
structure FormTree.SameInputs (t t' : FormTree) : Prop where
  declared : t'.fields.map (fun p => (p.1, p.2.scope, p.2.output)) =
    t.fields.map fun p => (p.1, p.2.scope, p.2.output)
  texts : ∀ field, (∀ spec ∈ t.outputSpecs none, spec.id ≠ field) → t'.read field = t.read field
  focused : t'.focused = t.focused

namespace FormTree.SameInputs

variable {t t' : FormTree}

theorem shape (h : t.SameInputs t') : t'.shape = t.shape :=
  h.declared

end FormTree.SameInputs

namespace Engine

open Machine (after Runs)

variable {settings : Settings} {e e₀ e' : Engine} {done : List String} {id : String}
  {entry : QueueEntry} {n : OutputNode}

/-! ## Nodes that had their first turn -/

/-- The nodes of an engine that has computed nothing; their fields are there, and their values are
to be written. -/
def Blank (e : Engine) : Prop :=
  ∀ n ∈ e.registry.nodes, n.evaluated = false ∧ n.lastWritten = none ∧ n.autoApply = true ∧
    (e.tree.find? n.field).isSome = true

/-- A node that was computed once.  It shows its value; the text counts as written if the field
showed another one before. -/
def Primed (e₀ e : Engine) (id : String) : Prop :=
  ∃ n text, e.registry.find? id = some n ∧ e.computed n = .ok n.lastValue ∧
    (n.lastValue.display e.locale n.format).1 = .ok text ∧ e.tree.read n.field = some text ∧
    n.lastWritten = if e₀.tree.read n.field = some text then none else some text

/-- Where nothing was written before, a value is written unless the field shows it already. -/
theorem toWrite_of_blank (hwritten : n.lastWritten = none) (happly : n.autoApply = true) {v : Value}
    {text : String} (htext : (v.display e.locale n.format).1 = .ok text) :
    e.toWrite n v = if e.tree.read n.field = some text then none else some text := by
  unfold toWrite
  rw [htext, hwritten, happly]
  simp

/-- So the field shows it when the node was computed. -/
theorem Filled.primed (h : Filled e₀ e id) (hb : Blank e₀) (hlocale : e.locale = e₀.locale) :
    Primed e₀ e id := by
  obtain ⟨n, v, hn, hstored, hcomputed, hread⟩ := h
  obtain ⟨-, hwritten, happly, -⟩ := hb n (Registry.mem_of_find? hn).1
  obtain ⟨text, htext⟩ := (displayable_of_computed hcomputed).display e₀.locale n.format
  have hwrite := toWrite_of_blank hwritten happly htext
  refine ⟨_, text, hstored, hcomputed, ?_, ?_, ?_⟩
  · rw [hlocale]
    exact htext
  · rw [hwrite] at hread
    refine hread.trans ?_
    split
    · assumption
    · rfl
  · show (e₀.toWrite n v).or n.lastWritten = _
    rw [hwritten, Option.or_none, hwrite]
    rfl

/-! ## Two forms with the same inputs -/

/-- The fields of a form have distinct variables; the nodes and bindings are about its fields. -/
structure Layout.Spread (l : Layout) : Prop where
  distinct : (l.names.map variableName).Nodup
  nodes : ∀ n ∈ l.nodes, n.field ∈ l.names
  bindings : ∀ p ∈ l.bindings, p.2 ∈ l.names

/-- The same fields, nodes and bindings. -/
structure Layout.Alike (l l' : Layout) : Prop where
  names : l'.names = l.names
  nodes : l'.nodes = l.nodes
  bindings : l'.bindings = l.bindings
  rows : l'.rows = l.rows

/-- An engine that has computed each of its nodes once. -/
structure Begun (settings : Settings) (e₀ e : Engine) : Prop where
  coherent : Coherent settings .immediate e
  layout : e.layout = e₀.layout
  primed : ∀ id ∈ e.registry.ids, Primed e₀ e id
  others : ∀ field, variableName field ∉ e.registry.ids →
    e.tree.read field = e₀.tree.read field

variable {e₀' : Engine}

/-- A field with the variable of a node is the field of the node. -/
theorem Layout.Spread.field_eq (h : e.layout.Spread) (hc : Coherent settings .immediate e)
    (hn : n ∈ e.registry.nodes) {field : String} (hfield : field ∈ e.layout.names)
    (hid : variableName field = n.id) : n.field = field := by
  have hnode : n.declared ∈ e.layout.nodes := List.mem_map_of_mem hn
  refine List.inj_on_of_nodup_map h.distinct (h.nodes _ hnode) hfield ?_
  exact (hc.nodes n hn).id_eq.symm.trans hid.symm

/-- The nodes of an id have the same value and show the same. -/
def Matches (e e' : Engine) (id : String) : Prop :=
  ∃ n n', e.registry.find? id = some n ∧ e'.registry.find? id = some n' ∧
    n'.field = n.field ∧ n'.lastValue = n.lastValue ∧ e'.tree.read n.field = e.tree.read n.field

/-- On whether an output shows its text at first two forms agree. -/
def Agree (e₀ e₀' e : Engine) (n : OutputNode) : Prop :=
  e₀.tree.read n.field = e.tree.read n.field ↔ e₀'.tree.read n.field = e.tree.read n.field

section

variable (h : Begun settings e₀ e) (h' : Begun settings e₀' e')
  (halike : e.layout.Alike e'.layout) (hspread : e.layout.Spread)
  (hinputs : ∀ field, variableName field ∉ e.registry.ids →
    e₀'.tree.read field = e₀.tree.read field)

include h h' halike hspread hinputs

/-- A variable holds the same in the two engines, if what is behind it matches. -/
theorem resolve_of_matches {name : String}
    (hm : name ∈ e.registry.ids → Matches e e' name ∧
      ∀ n, e.registry.find? name = some n → Agree e₀ e₀' e n) :
    e'.resolve name = e.resolve name := by
  have hids : e'.registry.ids = e.registry.ids := ids_of_declared halike.nodes
  unfold resolve
  rw [show e'.bindings = e.bindings from halike.bindings]
  cases hb : e.bindings.lookup name with
  | none => rfl
  | some field =>
    have hbound := mem_of_lookup hb
    have hvariable : variableName field = name := h.coherent.bindings (name, field) hbound
    dsimp only
    by_cases hid : name ∈ e.registry.ids
    · obtain ⟨⟨n, n', hn, hn', hfield, hvalue, hread⟩, hagree⟩ := hm hid
      obtain ⟨m, text, hm, -, htext, hshown, hwritten⟩ := h.primed name hid
      obtain ⟨m', text', hm', -, -, hshown', hwritten'⟩ := h'.primed name (hids ▸ hid)
      rw [hn] at hm
      cases hm
      rw [hn'] at hm'
      cases hm'
      obtain ⟨hmem, hnid⟩ := Registry.mem_of_find? hn
      obtain rfl : n.field = field :=
        hspread.field_eq h.coherent hmem (hspread.bindings _ hbound) (hvariable.trans hnid.symm)
      have hsame : n'.lastWritten = n.lastWritten := by
        have hagree := hagree n hn
        rw [hfield, hread, hshown] at hshown'
        cases hshown'
        rw [Agree, hshown] at hagree
        rw [hwritten, hwritten', hfield]
        simp only [hagree]
      rw [hn, hn', hread, hshown]
      dsimp only
      rw [hsame, hvalue]
    · have hid' : name ∉ e'.registry.ids := hids ▸ hid
      rw [Registry.find?_eq_none.mpr hid, Registry.find?_eq_none.mpr hid',
        h.others field (hvariable ▸ hid), h'.others field (hvariable ▸ hid'),
        hinputs field (hvariable ▸ hid)]

/-- Where the forms agree on which outputs that are read show their texts at first, the values and
the texts of all nodes match. -/
theorem matches_of_agree (ho : Orderly settings e₀) (hcandid : e₀.registry.Candid)
    (hagree : ∀ n ∈ e.registry.nodes, ∀ id, e.registry.dependencies.Reads id n.id →
      Agree e₀ e₀' e n) : ∀ id ∈ e.registry.ids, Matches e e' id := by
  have hc := h.coherent
  have hc' := h'.coherent
  have hids : e'.registry.ids = e.registry.ids := ids_of_declared halike.nodes
  have hcandid := candid_of_layout h.layout hcandid
  refine hc.induction_reads (ho.congr h.layout).acyclic fun id hid ih => ?_
  obtain ⟨n, text, hn, hcomputed, htext, hshown, -⟩ := h.primed id hid
  obtain ⟨m, text', hm, hcomputed', htext', hshown', -⟩ := h'.primed id (hids ▸ hid)
  obtain ⟨hmem, rfl⟩ := Registry.mem_of_find? hn
  obtain ⟨n', hn', hd⟩ := exists_of_declared halike.nodes hn
  rw [hm] at hn'
  cases hn'
  have hexpression : m.expression = n.expression := (congrArg OutputNode.expression hd :)
  have hfield : m.field = n.field := (congrArg OutputNode.field hd :)
  have hformat : m.format = n.format := (congrArg OutputNode.format hd :)
  have hlocale : e'.locale = e.locale := by
    rw [locale, hc'.ofSettings, locale, hc.ofSettings]
  -- What the node reads matches, so that the same is computed for it
  have hresolve : ∀ name, n.Uses name → e'.resolve name = e.resolve name := fun name hname =>
    resolve_of_matches h h' halike hspread hinputs fun hid =>
      have hreads := hcandid.reads hmem hid hname
      ⟨ih name hreads, fun k hk => by
        obtain ⟨hkmem, rfl⟩ := Registry.mem_of_find? hk
        exact hagree k hkmem n.id hreads⟩
  have hsame : e'.computed m = e.computed n := by
    rw [← computed_congr hc.toSound hc'.toSound (hc.nodes n hmem) halike.rows hresolve]
    unfold computed
    rw [hexpression]
  have hvalue : m.lastValue = n.lastValue := by
    rw [hsame, hcomputed] at hcomputed'
    exact (Except.ok.inj hcomputed').symm
  refine ⟨n, m, hn, hm, hfield, hvalue, ?_⟩
  rw [hvalue, hformat, hlocale, htext] at htext'
  cases htext'
  rw [hshown, ← hfield]
  exact hshown'

end

/-! ## An engine that is new -/

theorem blank_rescan (hnone : e.registry.nodes = []) (hp : e.tree.Proper) (hd : e.tree.Distinct)
    (happly : ∀ spec ∈ e.tree.outputSpecs none, spec.autoApply = true) : Blank e.rescan.1 := by
  intro n hn
  obtain ⟨spec, hspec, serial, linked, rfl⟩ := fresh_of_rescan hnone hp hd hn
  obtain ⟨f, hf, -⟩ := (FormTree.mem_outputSpecs hp).mp hspec
  refine ⟨rfl, rfl, happly spec hspec, ?_⟩
  rw [tree_rescan]
  show (e.tree.find? spec.id).isSome = true
  rw [hf]
  rfl

theorem spread_rescan (hnone : e.registry.nodes = []) (hp : e.tree.Proper) (hd : e.tree.Distinct)
    (hnames : ((e.tree.fields.map (·.1)).map variableName).Nodup) : e.rescan.1.layout.Spread := by
  have hnodes : ∀ n ∈ e.rescan.1.registry.nodes, n.field ∈ e.tree.fields.map (·.1) := by
    intro n hn
    obtain ⟨spec, hspec, serial, linked, rfl⟩ := fresh_of_rescan hnone hp hd hn
    obtain ⟨f, hf, -⟩ := (FormTree.mem_outputSpecs hp).mp hspec
    exact List.mem_map_of_mem (mem_of_lookup hf)
  have hall : e.rescan.1.layout.names = e.tree.fields.map (·.1) :=
    congrArg (·.fields.map (·.1)) (tree_rescan e)
  refine ⟨hall ▸ hnames, fun n hn => ?_, ?_⟩
  · obtain ⟨m, hm, rfl⟩ := List.mem_map.mp hn
    exact hall ▸ hnodes m hm
  · show ∀ p ∈ e.rescan.1.bindings, _
    rw [bindings_rescan_eq, hall]
    refine forall_bindNodes (forall_bindNames fun name hname => ?_) fun n hn => ?_
    · exact (List.filter_sublist.map _).subset hname
    · obtain ⟨linked, hmem⟩ := exists_of_mem_synced hn
      exact hnodes { n with linked } hmem

/-- Forms with the same inputs are read alike. -/
theorem reread_alike (e e' : Engine) (hregistry : e'.registry = e.registry)
    (h : e.tree.SameInputs e'.tree) :
    e'.synced = e.synced ∧ e'.reread.bindings = e.reread.bindings := by
  unfold synced reread
  rw [FormTree.outputSpecs_of_shape h.shape, FormTree.inputNames_of_shape h.shape, hregistry]
  exact ⟨rfl, rfl⟩

theorem registry_rescan (e e' : Engine) (hregistry : e'.registry = e.registry)
    (h : e.tree.SameInputs e'.tree) : e'.rescan.1.registry = e.rescan.1.registry := by
  obtain ⟨hsynced, hbindings⟩ := reread_alike e e' hregistry h
  rw [rescan_eq, rescan_eq, hsynced, hbindings]
  cases rowIndices (e.reread.bindings.map Prod.snd) with
  | error err => rfl
  | ok rows => rfl

theorem alike_rescan (e e' : Engine) (hregistry : e'.registry = e.registry)
    (hrows : e'.rows = e.rows) (h : e.tree.SameInputs e'.tree) :
    e.rescan.1.layout.Alike e'.rescan.1.layout := by
  obtain ⟨hsynced, hbindings⟩ := reread_alike e e' hregistry h
  refine ⟨?_, ?_, ?_, ?_⟩
  · show e'.rescan.1.tree.fields.map _ = e.rescan.1.tree.fields.map _
    rw [tree_rescan, tree_rescan]
    exact FormTree.names_of_shape h.shape
  · exact congrArg (·.nodes.map OutputNode.declared) (registry_rescan e e' hregistry h)
  · show e'.rescan.1.bindings = e.rescan.1.bindings
    rw [bindings_rescan_eq, bindings_rescan_eq, hbindings]
  · show e'.rescan.1.rows = e.rescan.1.rows
    rw [rescan_eq, rescan_eq, hsynced, hbindings]
    cases rowIndices (e.reread.bindings.map Prod.snd) with
    | error err => exact hrows
    | ok rows => rfl

theorem Readable.alike {e e' : Engine} (h : e.Readable) (hregistry : e'.registry = e.registry)
    (hsame : e.tree.SameInputs e'.tree) : e'.Readable := by
  obtain ⟨-, hbindings⟩ := reread_alike e e' hregistry hsame
  unfold Readable
  rw [hbindings]
  exact h

/-- A form that can be computed in one sweep: its outputs can be computed one after another, are all
written and none of them is left alone, and no two fields have one variable. -/
structure Plain (settings : Settings) (e : Engine) : Prop where
  names : ((e.tree.fields.map (·.1)).map variableName).Nodup
  applied : ∀ spec ∈ e.tree.outputSpecs none, spec.autoApply = true
  free : ∀ spec ∈ e.tree.outputSpecs none, spec.skipWhileEditing = true →
    e.tree.focused ≠ some spec.id
  orderly : Orderly settings e.rescan.1
  candid : e.rescan.1.registry.Candid

theorem Plain.congr {e e' : Engine} (h : Plain settings e) (hregistry : e'.registry = e.registry)
    (hsame : e.tree.SameInputs e'.tree) : Plain settings e' := by
  have hrescan := registry_rescan e e' hregistry hsame
  refine ⟨?_, ?_, ?_, ⟨?_, ?_⟩, ?_⟩
  · rw [FormTree.names_of_shape hsame.shape]
    exact h.names
  · rw [FormTree.outputSpecs_of_shape hsame.shape]
    exact h.applied
  · rw [FormTree.outputSpecs_of_shape hsame.shape, hsame.focused]
    exact h.free
  · rw [hrescan]
    exact h.orderly.acyclic
  · rw [hrescan]
    exact h.orderly.room
  · rw [hrescan]
    exact h.candid

/-- A new engine that listens to a form. -/
def listening (t : FormTree) (settings : Settings) (debounces : Bool) : Engine :=
  { Engine.create t settings .immediate debounces with attached := true }

theorem Plain.sweepable (h : Plain settings e) : Sweepable settings e :=
  ⟨h.names, h.free, h.orderly, h.candid⟩

/-- An engine that is attached to such a form computes each of its nodes once. -/
theorem runs_attach (hs : settings.InRange)
    (hmost : settings.historySize ≤ ConvergenceDetector.maxHistory)
    {answer : Engine → Ask → Reply Response EngineError} {t : FormTree} (ht : t.Proper)
    (debounces : Bool) (hplain : Plain settings (.create t settings .immediate debounces))
    (hr : (Engine.create t settings .immediate debounces).Readable)
    (calm : Calm answer
      (after [] ((Engine.create t settings .immediate debounces).perform (.attach true)))) :
    ∃ us e' ns, Runs (among answer) updates
        (after [] ((Engine.create t settings .immediate debounces).perform (.attach true))) us
        ⟨e'.finished ns, [], .returned default⟩ ∧
      Begun settings (listening t settings debounces).rescan.1 e' := by
  have hunread : Unread settings .immediate (.create t settings .immediate debounces) :=
    unread_heard ht settings .immediate debounces []
  obtain ⟨us, e', ns, hruns, hfull⟩ := hunread.runs_attach hs hmost hplain.sweepable hr calm
  have hblank : Blank (listening t settings debounces).rescan.1 :=
    blank_rescan rfl ht (distinct_of_names ht hplain.names) hplain.applied
  have hc := (hunread.opened hr).1
  have hids : ∀ id, id ∈ e'.registry.ids ↔
      id ∈ (listening t settings debounces).rescan.1.links.order := by
    intro id
    rw [ids_of_layout hfull.layout]
    exact hc.order_perm.mem_iff.symm
  have hscope : (listening t settings debounces).rescan.1.scope = none := scope_rescan _
  have hlayout : e'.layout = (listening t settings debounces).rescan.1.layout := by
    refine hfull.layout.trans ?_
    show { (listening t settings debounces).rescan.1.layout with scope := none } = _
    rw [← hscope]
    rfl
  refine ⟨us, e', ns, hruns, hfull.coherent, hlayout, fun id hid => ?_, fun field hfield => ?_⟩
  · exact (hfull.filling.filled id ((hids id).mp hid)).primed hblank
      (congrArg (·.settings.locale) hfull.layout)
  · refine hfull.filling.others field fun id hid n hn hsame => hfield ?_
    obtain ⟨hmem, hnid⟩ := Registry.mem_of_find? hn
    rw [← hsame, ← (hc.nodes n hmem).id_eq, hnid]
    exact (hids id).mpr hid

/-- Where the values and the texts of the nodes match, the forms show the same. -/
theorem values_of_matches (h : Begun settings e₀ e) (h' : Begun settings e₀' e')
    (halike : e.layout.Alike e'.layout) (hspread : e.layout.Spread)
    (hinputs : ∀ field, variableName field ∉ e.registry.ids →
      e₀'.tree.read field = e₀.tree.read field)
    (hmatches : ∀ id ∈ e.registry.ids, Matches e e' id) : e'.tree.values = e.tree.values := by
  refine FormTree.values_congr h'.coherent.tree h.coherent.tree halike.names fun field hfield => ?_
  by_cases hid : variableName field ∈ e.registry.ids
  · obtain ⟨n, n', hn, -, -, -, hread⟩ := hmatches _ hid
    obtain ⟨hmem, hnid⟩ := Registry.mem_of_find? hn
    rwa [hspread.field_eq h.coherent hmem hfield hnid.symm] at hread
  · have hid' : variableName field ∉ e'.registry.ids := ids_of_declared halike.nodes ▸ hid
    rw [h.others field hid, h'.others field hid', hinputs field hid]

/-- New engines on forms with the same inputs that can be read compute the same values and end with
the same texts, if at first the forms agree on which of the outputs that are read by others show
already the text that they will have in the end. -/
theorem attach_agrees {place : String} {entries : List (String × Data)}
    (hsettings : Settings.ofEntries place entries = .ok settings)
    (hmost : settings.historySize ≤ ConvergenceDetector.maxHistory)
    {answer answer' : Engine → Ask → Reply Response EngineError} {t t' : FormTree}
    (proper : t.Proper) (same : t.SameInputs t') (debounces debounces' : Bool)
    (plain : Plain settings (.create t settings .immediate debounces))
    (readable : (Engine.create t settings .immediate debounces).Readable)
    (calm : Calm answer
      (after [] ((Engine.create t settings .immediate debounces).perform (.attach true))))
    (calm' : Calm answer'
      (after [] ((Engine.create t' settings .immediate debounces').perform (.attach true)))) :
    ∃ us e us' e',
      Runs (among answer) updates
        (after [] ((Engine.create t settings .immediate debounces).perform (.attach true))) us
        ⟨e, [], .returned default⟩ ∧
      Runs (among answer') updates
        (after [] ((Engine.create t' settings .immediate debounces').perform (.attach true))) us'
        ⟨e', [], .returned default⟩ ∧
      ((∀ n ∈ e.registry.nodes, ∀ id, e.registry.dependencies.Reads id n.id →
          (t.read n.field = e.tree.read n.field ↔ t'.read n.field = e.tree.read n.field)) →
        (∀ id, e'.value id = e.value id) ∧ e'.tree.values = e.tree.values) := by
  have hs := Settings.inRange_of_ofEntries hsettings
  obtain ⟨us, e, ns, hruns, hbegun⟩ := runs_attach hs hmost proper debounces plain readable calm
  have plain' : Plain settings (.create t' settings .immediate debounces') := plain.congr rfl same
  have readable' : (Engine.create t' settings .immediate debounces').Readable :=
    readable.alike rfl same
  obtain ⟨us', e', ns', hruns', hbegun'⟩ :=
    runs_attach hs hmost (proper.of_shape same.shape) debounces' plain' readable' calm'
  refine ⟨us, e.finished ns, us', e'.finished ns', hruns, hruns', fun hagree => ?_⟩
  have hd : t.Distinct := distinct_of_names proper plain.names
  have hspread : e.layout.Spread := by
    rw [hbegun.layout]
    exact spread_rescan (e := listening t settings debounces) rfl proper hd plain.names
  have halike : e.layout.Alike e'.layout := by
    rw [hbegun.layout, hbegun'.layout]
    exact alike_rescan (listening t settings debounces) (listening t' settings debounces') rfl rfl
      same
  have ht := tree_rescan (listening t settings debounces)
  have ht' := tree_rescan (listening t' settings debounces')
  have hinputs : ∀ field, variableName field ∉ e.registry.ids →
      (listening t' settings debounces').rescan.1.tree.read field =
        (listening t settings debounces).rescan.1.tree.read field := by
    intro field hfield
    rw [ht, ht']
    refine same.texts field fun spec hspec hid => hfield ?_
    rw [ids_of_layout hbegun.layout, ← hid]
    exact mem_ids_rescan (e := listening t settings debounces) proper hd hspec
  obtain ⟨ho, hcandid, -⟩ :=
    (unread_heard proper settings .immediate debounces []).orderly plain.sweepable
  have hmatches : ∀ id ∈ e.registry.ids, Matches e e' id := by
    refine matches_of_agree hbegun hbegun' halike hspread hinputs ho hcandid fun n hn id hr => ?_
    rw [Agree, ht, ht']
    exact hagree n hn id hr
  have hvalues : e'.tree.values = e.tree.values :=
    values_of_matches hbegun hbegun' halike hspread hinputs hmatches
  refine ⟨fun id => ?_, hvalues⟩
  show e'.value id = e.value id
  unfold value node
  by_cases hid : id ∈ e.registry.ids
  · obtain ⟨n, n', hn, hn', -, hvalue, -⟩ := hmatches id hid
    rw [hn, hn']
    exact congrArg Except.ok hvalue
  · have hid' : id ∉ e'.registry.ids := ids_of_declared halike.nodes ▸ hid
    rw [Registry.find?_eq_none.mpr hid, Registry.find?_eq_none.mpr hid']

/-- An output that shows a rounded percentage, this text at first, and one that reads it. -/
def percentTree (text : String) : FormTree :=
  ((({} : FormTree).withField "x" "0,123456" "").withOutput
    { id := "a", expression := "x", format := some "percent" } text).withOutput
    { id := "b", expression := "a" } ""

theorem proper_percentTree (text : String) : (percentTree text).Proper :=
  (((FormTree.proper_empty false).withField _ _ _).withOutput _ _).withOutput _ _

theorem sameInputs_percentTree (text text' : String) :
    (percentTree text).SameInputs (percentTree text') := by
  refine ⟨rfl, fun field hfield => ?_, rfl⟩
  have ha : field ≠ "a" := Ne.symm (hfield _ List.mem_cons_self)
  unfold percentTree FormTree.withOutput FormTree.read FormTree.find?
  simp only [FormTree.lookup_put, if_neg ha]

theorem plain_percentTree : Plain {} (.create (percentTree "") {} .immediate false) where
  names := by decide +kernel
  applied := by decide +kernel
  free := by decide +kernel
  orderly := by
    refine ⟨Dependencies.acyclic_of_rank (fun id => if id = "a" then 0 else 1) ?_, ?_⟩
    · decide +kernel
    · decide +kernel
  candid := by
    unfold Registry.Candid
    decide +kernel

/-- The configuration when an engine was attached to the form. -/
def attachedPercent (text : String) : Running :=
  (among fun _ _ => .returned default).run 100
    (after [] ((Engine.create (percentTree text) {} .immediate false).perform (.attach true)))

theorem attachedPercent_ends : ∀ text ∈ ["", "old", "12.35%"],
    (attachedPercent text).stack.isEmpty = true ∧
      (attachedPercent text).reply = .returned default ∧
      endsSmoothly (fun _ _ => .returned default) 100 (after [] ((Engine.create (percentTree text)
        {} .immediate false).perform (.attach true))) = true := by
  decide +kernel

/-- With other texts at first than that of the value the values are the same. -/
theorem attach_agrees_percent :
    ∃ us e us' e',
      Runs (among fun _ _ => .returned default) updates (after []
        ((Engine.create (percentTree "") {} .immediate false).perform (.attach true))) us
        ⟨e, [], .returned default⟩ ∧
      Runs (among fun _ _ => .returned default) updates (after []
        ((Engine.create (percentTree "old") {} .immediate false).perform (.attach true))) us'
        ⟨e', [], .returned default⟩ ∧
      (∀ id, e'.value id = e.value id) ∧ e'.tree.values = e.tree.values := by
  have hsettings : Settings.ofEntries "" [] = .ok {} := rfl
  obtain ⟨hstack, hreply, hcalm⟩ := attachedPercent_ends "" (by decide)
  obtain ⟨-, -, hcalm'⟩ := attachedPercent_ends "old" (by decide)
  obtain ⟨us, e, us', e', hruns, hruns', hagree⟩ := attach_agrees hsettings (by decide)
    (proper_percentTree "") (sameInputs_percentTree "" "old") false false plain_percentTree
    (by decide +kernel) (calm_of_endsSmoothly hcalm) (calm_of_endsSmoothly hcalm')
  obtain ⟨-, heq⟩ := hruns.unique (.ended (n := 100) hstack hreply) rfl rfl
  obtain rfl : e = (attachedPercent "").state := congrArg Config.state heq
  refine ⟨us, _, us', e', hruns, hruns', hagree fun n hn id _ => ?_⟩
  have hother : ∀ n ∈ (attachedPercent "").state.registry.nodes,
      (percentTree "").read n.field ≠ (attachedPercent "").state.tree.read n.field ∧
      (percentTree "old").read n.field ≠ (attachedPercent "").state.tree.read n.field := by
    decide +kernel
  exact iff_of_false (hother n hn).1 (hother n hn).2

/-- An output that shows its text already is not written, so that its reader takes the rounded text
for the value. -/
theorem attach_disagrees :
    ∃ entries settings t t', Settings.ofEntries "" entries = .ok settings ∧
      settings.historySize ≤ ConvergenceDetector.maxHistory ∧ t.Proper ∧ t.SameInputs t' ∧
      Plain settings (.create t settings .immediate false) ∧
      (Engine.create t settings .immediate false).Readable ∧
      Calm (fun _ _ => .returned default)
        (after [] ((Engine.create t settings .immediate false).perform (.attach true))) ∧
      Calm (fun _ _ => .returned default)
        (after [] ((Engine.create t' settings .immediate false).perform (.attach true))) ∧
      ∃ us e us' e',
        Runs (among fun _ _ => .returned default) updates
          (after [] ((Engine.create t settings .immediate false).perform (.attach true))) us
          ⟨e, [], .returned default⟩ ∧
        Runs (among fun _ _ => .returned default) updates
          (after [] ((Engine.create t' settings .immediate false).perform (.attach true))) us'
          ⟨e', [], .returned default⟩ ∧
        e'.value "b" ≠ e.value "b" ∧ e'.tree.values ≠ e.tree.values := by
  obtain ⟨hstack, hreply, hcalm⟩ := attachedPercent_ends "" (by decide)
  obtain ⟨hstack', hreply', hcalm'⟩ := attachedPercent_ends "12.35%" (by decide)
  refine ⟨[], {}, percentTree "", percentTree "12.35%", rfl, by decide, proper_percentTree "",
    sameInputs_percentTree _ _, plain_percentTree, by decide +kernel, calm_of_endsSmoothly hcalm,
    calm_of_endsSmoothly hcalm', _, _, _, _, .ended (n := 100) hstack hreply,
    .ended (n := 100) hstack' hreply', ?_⟩
  show (attachedPercent "12.35%").state.value "b" ≠ (attachedPercent "").state.value "b" ∧
    (attachedPercent "12.35%").state.tree.values ≠ (attachedPercent "").state.tree.values
  decide +kernel

end Engine

end LiveForm
