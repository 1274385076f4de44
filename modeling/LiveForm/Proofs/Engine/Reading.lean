import LiveForm.Proofs.Engine.Draining

/-!
# What the value of a node depends on

A value is computed from what the expression reads: the fields of its variables, and the values of
other nodes behind them.  An update changes one node, so that it changes the values of those nodes
only that read it.
-/

namespace LiveForm

/-- What is declared of a node, without what was computed for it. -/
def OutputNode.declared (n : OutputNode) : OutputNode :=
  { n with lastValue := .absent, lastWritten := none, evaluated := false }

/-- The value of a node is computed from this variable, among others: it is one of the dependencies,
or a reserved word that the text uses as a variable. -/
def OutputNode.Uses (n : OutputNode) (name : String) : Prop :=
  reads n.dependencies name = true ∨ name ∈ Expr.wordsRead n.expression

/-- No node goes by a reserved word that a text uses as a variable. -/
def Registry.Candid (r : Registry) : Prop :=
  ∀ n ∈ r.nodes, ∀ id ∈ r.ids, id ∉ Expr.wordsRead n.expression

/-- So the nodes that a value is computed from are those that its node reads. -/
theorem Registry.Candid.reads {r : Registry} (h : r.Candid) {n : OutputNode} (hn : n ∈ r.nodes)
    {id : String} (hid : id ∈ r.ids) (hu : n.Uses id) : r.dependencies.Reads n.id id :=
  Engine.reads_of_mem hn hid (hu.resolve_right (h n hn id hid))

namespace Engine

variable {settings : Settings} {mode : YieldMode} {e e' : Engine} {n m : OutputNode}

/-! ## What updates keep -/

/-- What no update changes. -/
structure Layout where
  settings : Settings
  debounces : Bool
  attached : Bool
  links : LinkGraph
  bindings : List (String × String)
  rows : List Int
  scope : Option String
  lastEdit : List (String × Binary64)
  debouncer : Debouncer Trigger Trigger
  focused : Option String
  /-- The names of the fields. -/
  names : List String
  /-- The declared nodes. -/
  nodes : List OutputNode

def layout (e : Engine) : Layout where
  settings := e.settings
  debounces := e.debounces
  attached := e.attached
  links := e.links
  bindings := e.bindings
  rows := e.rows
  scope := e.scope
  lastEdit := e.lastEdit
  debouncer := e.debouncer
  focused := e.tree.focused
  names := e.tree.fields.map (·.1)
  nodes := e.registry.nodes.map OutputNode.declared

theorem layout_counted (e : Engine) (n : OutputNode) : (e.counted n).layout = e.layout := rfl

theorem layout_judged (h : e.Judged n e') : e'.layout = e.layout :=
  h.unseen layout fun _ _ _ => rfl

theorem declared_modify_store (r : Registry) (id : String) (v : Value) (written : Option String) :
    (r.modify id (·.store v written)).nodes.map OutputNode.declared =
      r.nodes.map OutputNode.declared := by
  rw [Registry.modify, List.map_map]
  refine List.map_congr_left fun n _ => ?_
  rw [Function.comp_apply]
  split
  · rfl
  · rfl

theorem focused_write (t : FormTree) (name text : String) :
    (t.write name text).focused = t.focused := by
  unfold FormTree.write
  split
  · rfl
  · rfl

theorem layout_stored {v : Value} (h : e.Stored n v e') : e'.layout = e.layout := by
  obtain ⟨written, ns, rfl, -⟩ := h
  simp only [layout, declared_modify_store, Layout.mk.injEq, and_true, true_and]
  cases written with
  | none => exact ⟨rfl, rfl⟩
  | some text => exact ⟨focused_write _ _ _, FormTree.names_of_shape (FormTree.shape_write _ _ _)⟩

theorem layout_queued (h : Queued e e') : e'.layout = e.layout := by
  obtain ⟨⟨queue, ns, rfl⟩, -, -⟩ := h
  rfl

theorem Updated.layout {entry : QueueEntry} (hu : Updated e entry e') : e'.layout = e.layout := by
  cases hu with
  | passedOver fate => rfl
  | brokenOff n fate => rfl
  | keptOut n v _ fate value out judged => exact (layout_judged judged).trans (layout_counted e n)
  | accepted n v e₁ e₂ ns fate value new judged stored =>
    have hqueued := layout_queued (queued_passed
      { e₂ with notices := ns, announcing := e.announcing }
      { n with lastValue := v, evaluated := true } entry.source)
    have hjudged := (layout_judged judged).trans (layout_counted e n)
    exact hqueued.trans ((layout_stored stored).trans hjudged)

/-! ## What a layout determines -/

theorem find?_declared (r : Registry) (id : String) :
    (r.find? id).map OutputNode.declared =
      (r.nodes.map OutputNode.declared).find? (·.id == id) := by
  rw [List.find?_map]
  rfl

theorem find?_of_declared (h : e'.layout.nodes = e.layout.nodes) (id : String) :
    (e'.registry.find? id).map OutputNode.declared =
      (e.registry.find? id).map OutputNode.declared := by
  rw [find?_declared, find?_declared]
  exact congrArg (List.find? _) h

/-- A node is still registered under its id, as it was declared. -/
theorem exists_of_declared (h : e'.layout.nodes = e.layout.nodes) {id : String}
    (hn : e.registry.find? id = some n) :
    ∃ m, e'.registry.find? id = some m ∧ m.declared = n.declared := by
  have hd := find?_of_declared h id
  rw [hn, Option.map_some] at hd
  exact Option.map_eq_some_iff.mp hd

theorem ids_of_declared (h : e'.layout.nodes = e.layout.nodes) :
    e'.registry.ids = e.registry.ids := by
  have hids : ∀ e : Engine, e.registry.ids = e.layout.nodes.map (·.id) := by
    intro e
    show e.registry.nodes.map _ = (e.registry.nodes.map OutputNode.declared).map _
    rw [List.map_map]
    rfl
  rw [hids, h, ← hids]

/-- Each node was declared like this before. -/
theorem mem_of_declared (h : e'.layout.nodes = e.layout.nodes) (hn : n ∈ e'.registry.nodes) :
    ∃ m ∈ e.registry.nodes, m.declared = n.declared := by
  have hmem : n.declared ∈ e'.layout.nodes := List.mem_map_of_mem hn
  rw [h] at hmem
  exact List.mem_map.mp hmem

theorem declared_of_layout (h : e'.layout = e.layout) (id : String) :
    (e'.registry.find? id).map OutputNode.declared =
      (e.registry.find? id).map OutputNode.declared :=
  find?_of_declared (congrArg Layout.nodes h) id

theorem ids_of_layout (h : e'.layout = e.layout) : e'.registry.ids = e.registry.ids :=
  ids_of_declared (congrArg Layout.nodes h)

theorem exists_of_layout (h : e'.layout = e.layout) {id : String}
    (hn : e.registry.find? id = some n) :
    ∃ m, e'.registry.find? id = some m ∧ m.declared = n.declared :=
  exists_of_declared (congrArg Layout.nodes h) hn

theorem dependencies_of_layout (h : e'.layout = e.layout) :
    e'.registry.dependencies = e.registry.dependencies := by
  have hdependencies : ∀ e : Engine, e.registry.dependencies =
      e.layout.nodes.map fun n => (n.id, n.dependencies) := by
    intro e
    show _ = (e.registry.nodes.map OutputNode.declared).map _
    rw [List.map_map]
    rfl
  rw [hdependencies, h, ← hdependencies]

theorem mem_of_layout (h : e'.layout = e.layout) (hn : n ∈ e'.registry.nodes) :
    ∃ m ∈ e.registry.nodes, m.declared = n.declared :=
  mem_of_declared (congrArg Layout.nodes h) hn

/-- What no update changes includes the links. -/
theorem linked_of_layout (h : e'.layout = e.layout) (hl : e.Linked) : e'.Linked := by
  have hlinks : e'.links = e.links := congrArg Layout.links h
  constructor
  · rw [hlinks, dependencies_of_layout h, hl.links]
  · intro n hn
    obtain ⟨m, hm, hd⟩ := mem_of_layout h hn
    have hid : m.id = n.id := (congrArg OutputNode.id hd :)
    have hlinked : m.linked = n.linked := (congrArg OutputNode.linked hd :)
    rw [hlinks, ← hid, ← hlinked, hl.linked m hm]

theorem candid_of_layout (h : e'.layout = e.layout) (hn : e.registry.Candid) :
    e'.registry.Candid := by
  intro n' hn' id hid
  obtain ⟨m, hm, hd⟩ := mem_of_layout h hn'
  rw [ids_of_layout h] at hid
  have hwords : id ∉ Expr.wordsRead m.declared.expression := hn m hm id hid
  rw [hd] at hwords
  exact hwords

theorem shouldSkip_congr (h : e'.layout = e.layout) (hd : m.declared = n.declared) :
    e'.shouldSkip m = e.shouldSkip n := by
  have hskip : ∀ (e : Engine) (n : OutputNode), e.shouldSkip n =
      (n.declared.skipWhileEditing && (e.layout.focused == some n.declared.field ||
        (e.layout.lastEdit.lookup n.declared.id).any fun t =>
          e.layout.debouncer.timers.now - t < e.layout.settings.editCooldown)) := fun _ _ => rfl
  rw [hskip, hskip, h, hd]

/-! ## What is computed for a node -/

/-- What values are computed from, where they are kept, and along what changes are passed on. -/
def holdings (e : Engine) := (e.settings, e.tree.fields, e.registry, e.bindings, e.rows, e.links)

theorem resolve_of_holdings (h : e'.holdings = e.holdings) : e'.resolve = e.resolve := by
  simp only [holdings, Prod.mk.injEq] at h
  obtain ⟨-, hfields, hregistry, hbindings, -⟩ := h
  funext name
  unfold resolve FormTree.read FormTree.find?
  rw [hfields, hregistry, hbindings]

/-- The same, and all that the form remembers. -/
def belongings (e : Engine) := (e.settings, e.tree, e.registry, e.bindings, e.rows, e.links)

theorem holdings_of_belongings (h : e'.belongings = e.belongings) : e'.holdings = e.holdings := by
  simp only [belongings, Prod.mk.injEq] at h
  obtain ⟨hsettings, htree, hregistry, hbindings, hrows, hlinks⟩ := h
  simp only [holdings, hsettings, htree, hregistry, hbindings, hrows, hlinks]

theorem belongings_judged (h : e.Judged n e') : e'.belongings = e.belongings :=
  h.unseen belongings fun _ _ _ => rfl

theorem belongings_queued (h : Queued e e') : e'.belongings = e.belongings := by
  obtain ⟨⟨queue, ns, rfl⟩, -, -⟩ := h
  rfl

theorem belongings_schedule (e : Engine) (ids : List String) (priority : Priority)
    (source scope : Option String) :
    (e.schedule ids priority source scope).belongings = e.belongings := by
  obtain ⟨scope', passes, hq⟩ := queued_schedule e ids priority source scope
  exact (belongings_queued hq).trans rfl

theorem holdings_judged (h : e.Judged n e') : e'.holdings = e.holdings :=
  holdings_of_belongings (belongings_judged h)

theorem holdings_queued (h : Queued e e') : e'.holdings = e.holdings :=
  holdings_of_belongings (belongings_queued h)

theorem holdings_schedule (e : Engine) (ids : List String) (priority : Priority)
    (source scope : Option String) :
    (e.schedule ids priority source scope).holdings = e.holdings :=
  holdings_of_belongings (belongings_schedule e ids priority source scope)

/-- The engine with a value stored for a node, and written unless that is not called for. -/
def withValue (e : Engine) (n : OutputNode) (v : Value) : Engine :=
  { e with
    registry := e.registry.modify n.id (·.store v (e.toWrite n v))
    tree := (e.toWrite n v).elim e.tree (e.tree.write n.field) }

theorem belongings_stored {v : Value} (h : e.Stored n v e') :
    e'.belongings = (e.withValue n v).belongings := by
  obtain ⟨written, ns, rfl, rfl⟩ := h
  rfl

theorem holdings_stored {v : Value} (h : e.Stored n v e') :
    e'.holdings = (e.withValue n v).holdings :=
  holdings_of_belongings (belongings_stored h)

theorem read_of_holdings (h : e'.holdings = e.holdings) : e'.tree.read = e.tree.read := by
  simp only [holdings, Prod.mk.injEq] at h
  funext field
  rw [FormTree.read, FormTree.read, FormTree.find?, FormTree.find?, h.2.1]

theorem find?_of_holdings (h : e'.holdings = e.holdings) (id : String) :
    e'.registry.find? id = e.registry.find? id := by
  simp only [holdings, Prod.mk.injEq] at h
  rw [h.2.2.1]

theorem linked_of_holdings (h : e'.holdings = e.holdings) (hl : e.Linked) : e'.Linked := by
  simp only [holdings, Prod.mk.injEq] at h
  exact hl.congr h.2.2.1 h.2.2.2.2.2

/-- What is found under the id of a node whose value was stored. -/
theorem find?_withValue_self (h : e.registry.find? n.id = some n) (v : Value) :
    (e.withValue n v).registry.find? n.id = some (n.store v (e.toWrite n v)) :=
  Registry.find?_modify_self (f := (·.store v (e.toWrite n v))) (fun _ => rfl) h

theorem read_withValue_of_ne {field : String} (h : field ≠ n.field) (v : Value) :
    (e.withValue n v).tree.read field = e.tree.read field := by
  unfold withValue
  cases e.toWrite n v with
  | none => rfl
  | some text => exact FormTree.read_write_of_ne h

theorem belongings_withValue (h : e'.belongings = e.belongings) (v : Value) :
    (e'.withValue n v).belongings = (e.withValue n v).belongings := by
  simp only [belongings, Prod.mk.injEq] at h
  obtain ⟨hsettings, htree, hregistry, hbindings, hrows, hlinks⟩ := h
  have hwrite : e'.toWrite n v = e.toWrite n v := by
    unfold toWrite locale
    rw [hsettings, htree]
  unfold withValue belongings
  dsimp only
  rw [hwrite, hsettings, htree, hregistry, hbindings, hrows, hlinks]

/-- An evaluation stores the value that is computed, or keeps it out. -/
theorem Updated.belongings {entry : QueueEntry} (hu : Updated e entry e')
    (hf : e.fate entry = .evaluated n) :
    ∃ v, (e.counted n).computed n = .ok v ∧
      ((e.counted n).accepts n v entry = false ∧ e'.belongings = e.belongings ∨
        (e.counted n).accepts n v entry = true ∧
          e'.belongings = (e.withValue n v).belongings) := by
  cases hu with
  | passedOver fate | brokenOff m fate => rw [hf] at fate; cases fate
  | keptOut m v _ fate value out judged =>
    rw [hf] at fate
    cases fate
    exact ⟨v, value, Or.inl ⟨out, (belongings_judged judged).trans rfl⟩⟩
  | accepted m v e₁ e₂ ns fate value new judged stored =>
    rw [hf] at fate
    cases fate
    refine ⟨v, value, Or.inr ⟨new, ?_⟩⟩
    have hjudged : e₁.belongings = e.belongings := (belongings_judged judged).trans rfl
    have hqueued := belongings_queued (queued_passed
      { e₂ with notices := ns, announcing := e.announcing }
      { n with lastValue := v, evaluated := true } entry.source)
    exact hqueued.trans ((belongings_stored stored).trans (belongings_withValue hjudged v))

/-- The same for what values are computed from. -/
theorem Updated.holdings {entry : QueueEntry} (hu : Updated e entry e')
    (hf : e.fate entry = .evaluated n) :
    ∃ v, (e.counted n).computed n = .ok v ∧
      ((e.counted n).accepts n v entry = false ∧ e'.holdings = e.holdings ∨
        (e.counted n).accepts n v entry = true ∧ e'.holdings = (e.withValue n v).holdings) := by
  obtain ⟨v, hv, h⟩ := hu.belongings hf
  exact ⟨v, hv, h.imp (And.imp_right holdings_of_belongings) (And.imp_right holdings_of_belongings)⟩

/-- What is computed depends on the expression, the settings, the rows and the variables. -/
theorem computed_eq (hc : Sound settings mode e) (n : OutputNode) :
    e.computed n =
      (Expr.outcome settings.locale settings.precision n.expression e.resolve e.rows).1 := by
  obtain ⟨h, -⟩ := hc.evaluator.evaluate n.expression e.resolve e.rows
  rw [computed, h, hc.locale, hc.precision]

/-- What an expression comes to depends on the variables that its node is computed from. -/
theorem outcome_congr_of_uses (hn : n.Proper) {resolve resolve' : String → Value} {rows : List Int}
    (hrows : ∀ i ∈ rows, 0 ≤ i) (h : ∀ name, n.Uses name → resolve' name = resolve name)
    (locale : NumberLocale) (precision : Int) :
    Expr.outcome locale precision n.expression resolve' rows =
      Expr.outcome locale precision n.expression resolve rows := by
  have hagree : Expr.AgreeOn n.expression resolve' resolve := by
    refine ⟨fun v hv => ?_, fun w hw => h w (Or.inr hw)⟩
    obtain ⟨k, hk, hmatches⟩ := hv
    exact h v (Or.inl (List.any_eq_true.mpr ⟨k, hn.reads k hk, hmatches⟩))
  exact Expr.outcome_congr hagree hrows locale precision

/-- The same is computed for a node where the variables that it is computed from are the same. -/
theorem computed_congr (hc : Sound settings mode e) (hc' : Sound settings mode e')
    (hn : n.Proper) (hrows : e'.rows = e.rows)
    (h : ∀ name, n.Uses name → e'.resolve name = e.resolve name) :
    e'.computed n = e.computed n := by
  rw [computed_eq hc, computed_eq hc', hrows, outcome_congr_of_uses hn hc.rows h]

/-! ## What an update changes -/

/-- Storing a value of a node changes no variable but that of the node. -/
theorem resolve_stored (hc : Sound settings mode e) (hn : n.Proper) {v : Value}
    (hs : e.Stored n v e') {name : String} (hne : name ≠ n.id) :
    e'.resolve name = e.resolve name := by
  obtain ⟨written, ns, rfl, -⟩ := hs
  have hfind : (e.registry.modify n.id (·.store v written)).find? name = e.registry.find? name :=
    Registry.find?_modify_of_ne (f := (·.store v written)) (fun _ => rfl) hne
  unfold resolve
  dsimp only
  rw [hfind]
  cases hb : e.bindings.lookup name with
  | none => rfl
  | some field =>
    have hread : (written.elim e.tree (e.tree.write n.field)).read field = e.tree.read field := by
      cases written with
      | none => rfl
      | some text =>
        refine FormTree.read_write_of_ne fun hfield => hne ?_
        have hvariable : variableName field = name := hc.bindings (name, field) (mem_of_lookup hb)
        rw [hn.id_eq, ← hfield, hvariable]
    dsimp only
    rw [hread]

/-- An update changes no variable but that of its node. -/
theorem Updated.resolve (hc : Coherent settings mode e) {entry : QueueEntry}
    (hu : Updated e entry e') {name : String} (hne : name ≠ entry.node) :
    e'.resolve name = e.resolve name := by
  cases hu with
  | passedOver fate => rfl
  | brokenOff n fate => rfl
  | keptOut n v _ fate value out judged =>
    exact judged.unseen (fun e => e.resolve name) fun _ _ _ => rfl
  | accepted n v e₁ e₂ ns fate value new judged stored =>
    obtain ⟨hmem, hid⟩ := Registry.mem_of_find? (evaluates_of_fate fate).found
    have hc₁ := (hc.counted n).judged judged
    have hstored := resolve_stored hc₁.toSound (hc.nodes n hmem) stored (hid ▸ hne)
    obtain ⟨⟨queue, ns₁, heq⟩, -, -⟩ := queued_passed
      { e₂ with notices := ns, announcing := e.announcing }
      { n with lastValue := v, evaluated := true } entry.source
    rw [heq]
    exact hstored.trans (judged.unseen (fun e => e.resolve name) fun _ _ _ => rfl)

/-- A value that is kept out changes no variable. -/
theorem Updated.resolve_of_out {entry : QueueEntry} (hu : Updated e entry e')
    (hf : e.fate entry = .evaluated n) {v : Value} (hv : (e.counted n).computed n = .ok v)
    (hout : (e.counted n).accepts n v entry = false) : e'.resolve = e.resolve := by
  cases hu with
  | passedOver fate => rfl
  | brokenOff m fate => rfl
  | keptOut m w _ fate value out judged => exact judged.unseen Engine.resolve fun _ _ _ => rfl
  | accepted m w e₁ e₂ ns fate value new judged stored =>
    rw [hf] at fate
    cases fate
    rw [hv] at value
    cases value
    rw [hout] at new
    cases new

/-- An update changes no node but its own. -/
theorem Updated.find? {entry : QueueEntry} (hu : Updated e entry e') {id : String}
    (hne : id ≠ entry.node) : e'.registry.find? id = e.registry.find? id := by
  cases hu with
  | passedOver fate => rfl
  | brokenOff n fate => rfl
  | keptOut n v _ fate value out judged =>
    exact judged.unseen (fun e => e.registry.find? id) fun _ _ _ => rfl
  | accepted n v e₁ e₂ ns fate value new judged stored =>
    obtain ⟨-, hid⟩ := Registry.mem_of_find? (evaluates_of_fate fate).found
    obtain ⟨⟨queue, ns₁, heq⟩, -, -⟩ := queued_passed
      { e₂ with notices := ns, announcing := e.announcing }
      { n with lastValue := v, evaluated := true } entry.source
    obtain ⟨written, ns₃, rfl, -⟩ := stored
    rw [heq]
    exact (Registry.find?_modify_of_ne (f := (·.store v written)) (fun _ => rfl)
      (hid ▸ hne)).trans (judged.unseen (fun e => e.registry.find? id) fun _ _ _ => rfl)

/-- When a node was evaluated that does not read itself, what is computed for it is what was
computed: that is its value now, or was kept out. -/
theorem Updated.recomputed (hc : Coherent settings mode e) {entry : QueueEntry}
    (hu : Updated e entry e') (hf : e.fate entry = .evaluated n) (hself : ¬ n.Uses n.id) :
    ∃ m v, e'.registry.find? n.id = some m ∧ e'.computed m = .ok v ∧ v.Displayable ∧
      (m.lastValue = v ∨
        m = n ∧ (e.counted n).computed n = .ok v ∧ (e.counted n).accepts n v entry = false) := by
  have hc' := hc.updated hu
  have hfound := (evaluates_of_fate hf).found
  obtain ⟨hmem, hid⟩ := Registry.mem_of_find? hfound
  have hproper := hc.nodes n hmem
  have hresolve : ∀ name, n.Uses name → e'.resolve name = e.resolve name := by
    refine fun name hname => hu.resolve hc fun he => hself ?_
    rw [hid, ← he]
    exact hname
  have hrows : e'.rows = e.rows := congrArg Layout.rows hu.layout
  have hcomputed : e'.computed n = (e.counted n).computed n :=
    computed_congr (hc.counted n).toSound hc'.toSound hproper hrows hresolve
  cases hu with
  | passedOver fate | brokenOff m fate => rw [hf] at fate; cases fate
  | keptOut m v _ fate value out judged =>
    rw [hf] at fate
    cases fate
    refine ⟨n, v, ?_, hcomputed.trans value, displayable_of_computed value,
      Or.inr ⟨rfl, value, out⟩⟩
    rw [judged.unseen registry fun _ _ _ => rfl, hid]
    exact hfound
  | accepted m v e₁ e₂ ns fate value new judged stored =>
    rw [hf] at fate
    cases fate
    obtain ⟨⟨queue, ns₁, heq⟩, -, -⟩ := queued_passed
      { e₂ with notices := ns, announcing := e.announcing }
      { n with lastValue := v, evaluated := true } entry.source
    obtain ⟨written, ns₃, rfl, -⟩ := stored
    refine ⟨n.store v written, v, ?_, hcomputed.trans value, displayable_of_computed value,
      Or.inl rfl⟩
    rw [heq]
    refine Registry.find?_modify_self (f := (·.store v written)) (fun _ => rfl) ?_
    rw [judged.unseen registry fun _ _ _ => rfl, hid]
    exact hfound

/-! ## Values that are up to date -/

/-- For the node of an id this value is computed now, and it is the same as the last one within the
tolerances. -/
def Confirms (e : Engine) (id : String) (n : OutputNode) (v : Value) : Prop :=
  e.registry.find? id = some n ∧ e.computed n = .ok v ∧
    e.detector.tolerances.converged v n.lastValue = true

/-- The value of a node is up to date. -/
def UpToDate (e : Engine) (id : String) : Prop := ∃ n v, e.Confirms id n v

/-- Whether the value of a node is up to date. -/
def isUpToDate (e : Engine) (id : String) : Bool :=
  (e.registry.find? id).any fun n =>
    match e.computed n with
    | .ok v => e.detector.tolerances.converged v n.lastValue
    | .error _ => false

theorem isUpToDate_iff {id : String} : e.isUpToDate id = true ↔ e.UpToDate id := by
  unfold isUpToDate
  rw [Option.any_eq_true]
  constructor
  · rintro ⟨n, hn, hv⟩
    split at hv
    · next v hcomputed => exact ⟨n, v, hn, hcomputed, hv⟩
    · cases hv
  · rintro ⟨n, v, hn, hcomputed, hv⟩
    refine ⟨n, hn, ?_⟩
    rw [hcomputed]
    exact hv

instance (id : String) : Decidable (e.UpToDate id) := decidable_of_iff _ isUpToDate_iff

/-- A value is confirmed as before where the node and the variables that it is computed from are the
same. -/
theorem Confirms.congr {id : String} {v : Value} (h : e.Confirms id n v)
    (hc : Sound settings mode e) (hc' : Sound settings mode e')
    (hfound : e'.registry.find? id = e.registry.find? id) (hrows : e'.rows = e.rows)
    (hresolve : ∀ name, n.Uses name → e'.resolve name = e.resolve name) :
    e'.Confirms id n v := by
  obtain ⟨hn, hv, hconverged⟩ := h
  obtain ⟨hmem, -⟩ := Registry.mem_of_find? hn
  refine ⟨hfound.trans hn, ?_, ?_⟩
  · rw [computed_congr hc hc' (hc.nodes n hmem) hrows hresolve]
    exact hv
  · rw [hc'.tolerances, ← hc.tolerances]
    exact hconverged

theorem UpToDate.congr {id : String} (h : e.UpToDate id) (hc : Sound settings mode e)
    (hc' : Sound settings mode e') (hfound : e'.registry.find? id = e.registry.find? id)
    (hrows : e'.rows = e.rows)
    (hresolve : ∀ n, e.registry.find? id = some n → ∀ name, n.Uses name →
      e'.resolve name = e.resolve name) : e'.UpToDate id := by
  obtain ⟨n, v, hconfirms⟩ := h
  exact ⟨n, v, hconfirms.congr hc hc' hfound hrows (hresolve n hconfirms.1)⟩

end Engine

end LiveForm
