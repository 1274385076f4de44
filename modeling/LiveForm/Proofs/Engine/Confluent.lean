import LiveForm.Proofs.Engine.Editing
import LiveForm.Proofs.Engine.Filling

/-!
# The first computation does not depend on the order

A form may hold its fields in another order, and the engine may take its updates in other batches or
leave them at another yield point.  Then the outputs are linked, ordered and computed in another
order; but each value is determined by the values that it is computed from, so that the outputs come
to have the same values and texts.
-/

namespace LiveForm

/-- The node by itself, without its links and its serial. -/
def OutputNode.alone (n : OutputNode) : OutputNode := { n with linked := [], serial := 0 }

namespace Engine

variable {settings settings' : Settings} {mode mode' : YieldMode} {e e' e₀ e₀' : Engine}
  {id : String} {n : OutputNode}

/-! ## Reading the fields in another order -/

/-- Two engines have read the same fields, perhaps in another order. -/
structure Reordered (e e' : Engine) : Prop where
  locale : e'.settings.locale = e.settings.locale
  precision : e'.settings.precision = e.settings.precision
  read : e'.tree.read = e.tree.read
  bindings : ∀ name, e'.bindings.lookup name = e.bindings.lookup name
  rows : e'.rows = e.rows
  nodes : ∀ id, (e'.registry.find? id).map OutputNode.alone =
    (e.registry.find? id).map OutputNode.alone

/-- What is declared in one form is declared in the other. -/
theorem exists_alone (h : Unread settings mode e) (h' : Unread settings' mode' e')
    (hp : e'.tree.fields.Perm e.tree.fields) (hd : e.tree.Distinct) (hd' : e'.tree.Distinct)
    (hn : e.opened.registry.find? id = some n) :
    ∃ n', e'.opened.registry.find? id = some n' ∧ n'.alone = n.alone := by
  obtain ⟨hmem, rfl⟩ := Registry.mem_of_find? hn
  obtain ⟨spec, hspec, serial, linked, rfl⟩ :=
    fresh_of_rescan (e := { e with attached := true }) h.nodes h.coherent.tree hd hmem
  have hspec' := (FormTree.mem_outputSpecs_of_perm hp none).mpr hspec
  have hid : variableName spec.id ∈ e'.opened.registry.ids :=
    mem_ids_rescan (e := { e' with attached := true }) h'.coherent.tree hd' hspec'
  obtain ⟨n', hn'⟩ := Option.isSome_iff_exists.mp (Registry.contains_iff.mpr hid)
  obtain ⟨hmem', hid'⟩ := Registry.mem_of_find? hn'
  obtain ⟨spec', hspec₂, serial', linked', rfl⟩ :=
    fresh_of_rescan (e := { e' with attached := true }) h'.nodes h'.coherent.tree hd' hmem'
  obtain rfl : spec' = spec := hd'.eq h'.coherent.tree hspec₂ hspec' hid'
  exact ⟨_, hn', rfl⟩

/-- Forms with the same fields can be read both or neither. -/
theorem readable_reordered (h : Unread settings mode e) (h' : Unread settings' mode' e')
    (hp : e'.tree.fields.Perm e.tree.fields)
    (hnames : ((e.tree.fields.map (·.1)).map variableName).Nodup) : e'.Readable ↔ e.Readable := by
  have hpnames := hp.map Prod.fst
  rw [readable_iff h.coherent.tree hnames, readable_iff h'.coherent.tree
    ((hpnames.map variableName).nodup_iff.mpr hnames)]
  simp only [hpnames.mem_iff]

theorem reordered_opened (h : Unread settings mode e) (h' : Unread settings' mode' e')
    (hlocale : settings'.locale = settings.locale)
    (hprecision : settings'.precision = settings.precision) (hrows : e'.rows = e.rows)
    (hp : e'.tree.fields.Perm e.tree.fields)
    (hnames : ((e.tree.fields.map (·.1)).map variableName).Nodup) :
    Reordered e.opened e'.opened := by
  have hproper := h.coherent.tree
  have hproper' := h'.coherent.tree
  have hpnames := hp.map Prod.fst
  have hnames' : ((e'.tree.fields.map (·.1)).map variableName).Nodup :=
    (hpnames.map variableName).nodup_iff.mpr hnames
  have hd := distinct_of_names hproper hnames
  have hd' := distinct_of_names hproper' hnames'
  have hbindings : e.opened.bindings = _ :=
    bindings_rescan (e := { e with attached := true }) hproper hnames
  have hbindings' : e'.opened.bindings = _ :=
    bindings_rescan (e := { e' with attached := true }) hproper' hnames'
  have hpbindings : e'.opened.bindings.Perm e.opened.bindings := by
    rw [hbindings, hbindings']
    exact hpnames.map _
  have hkeys : (e.opened.bindings.map (·.1)).Nodup := by
    rw [hbindings, List.map_map]
    exact hnames
  refine ⟨?_, ?_, ?_, lookup_of_perm hkeys hpbindings, ?_, fun id => ?_⟩
  · rw [h.sound_opened.ofSettings, h'.sound_opened.ofSettings]
    exact hlocale
  · rw [h.sound_opened.ofSettings, h'.sound_opened.ofSettings]
    exact hprecision
  · rw [Engine.opened, Engine.opened, tree_rescan, tree_rescan]
    exact FormTree.read_of_perm hproper hp
  · have hiff := readable_reordered h h' hp hnames
    by_cases hread : e.Readable
    · have hread' := Readable.rows_rescan (e := { e' with attached := true }) (hiff.mpr hread)
      have hsame := rowIndices_of_perm (hpbindings.map Prod.snd)
        (Readable.rows_rescan (e := { e with attached := true }) hread)
      exact Except.ok.inj (hread'.symm.trans hsame)
    · have hbefore := rows_rescan_of_not_readable (e := { e with attached := true }) hread
      have hbefore' :=
        rows_rescan_of_not_readable (e := { e' with attached := true }) (mt hiff.mp hread)
      exact hbefore'.trans (hrows.trans hbefore.symm)
  · cases hn : e.opened.registry.find? id with
    | some n =>
      obtain ⟨n', hn', halone⟩ := exists_alone h h' hp hd hd' hn
      rw [hn']
      exact congrArg some halone
    | none =>
      cases hn' : e'.opened.registry.find? id with
      | none => rfl
      | some n' =>
        obtain ⟨m, hm, -⟩ := exists_alone h' h hp.symm hd' hd hn'
        rw [hn] at hm
        cases hm

namespace Reordered

variable (h : Reordered e e')

include h

theorem exists_of_find? (hn : e.registry.find? id = some n) :
    ∃ n', e'.registry.find? id = some n' ∧ n'.alone = n.alone := by
  have hnodes := h.nodes id
  rw [hn] at hnodes
  exact Option.map_eq_some_iff.mp hnodes

theorem mem_ids : id ∈ e'.registry.ids ↔ id ∈ e.registry.ids := by
  have hnodes := congrArg Option.isSome (h.nodes id)
  rw [Option.isSome_map, Option.isSome_map] at hnodes
  rw [← Registry.contains_iff, ← Registry.contains_iff, Registry.contains, Registry.contains,
    hnodes]

theorem symm : Reordered e' e :=
  ⟨h.locale.symm, h.precision.symm, h.read.symm, fun name => (h.bindings name).symm, h.rows.symm,
    fun id => (h.nodes id).symm⟩

theorem mem_dependencies (hids : e.registry.ids.Nodup) (hids' : e'.registry.ids.Nodup)
    {d : String × List String} : d ∈ e'.registry.dependencies ↔ d ∈ e.registry.dependencies := by
  have hmem : ∀ {e e' : Engine}, Reordered e e' → e.registry.ids.Nodup →
      d ∈ e.registry.dependencies → d ∈ e'.registry.dependencies := by
    intro e e' h hids hd
    obtain ⟨n, hn, rfl⟩ := List.mem_map.mp hd
    obtain ⟨n', hn', halone⟩ := h.exists_of_find? (Registry.find?_of_mem hids hn)
    obtain ⟨hmem', -⟩ := Registry.mem_of_find? hn'
    refine List.mem_map.mpr ⟨n', hmem', ?_⟩
    have hid : n'.id = n.id := (congrArg OutputNode.id halone :)
    have hdependencies : n'.dependencies = n.dependencies :=
      (congrArg OutputNode.dependencies halone :)
    rw [hid, hdependencies]
  exact ⟨hmem h.symm hids', hmem h hids⟩

/-- Who reads whom does not depend on the order. -/
theorem reads_iff (hids : e.registry.ids.Nodup) (hids' : e'.registry.ids.Nodup) {u v : String} :
    e'.registry.dependencies.Reads v u ↔ e.registry.dependencies.Reads v u := by
  unfold Dependencies.Reads
  rw [Registry.ids_dependencies, Registry.ids_dependencies, h.mem_ids]
  simp only [h.mem_dependencies hids hids']

/-- The nodes have the same values. -/
theorem value (id : String) : e'.value id = e.value id := by
  unfold Engine.value node
  cases hn : e.registry.find? id with
  | some n =>
    obtain ⟨n', hn', halone⟩ := h.exists_of_find? hn
    rw [hn']
    exact congrArg (fun n => Except.ok n.lastValue) halone
  | none =>
    rw [Registry.find?_eq_none, ← h.mem_ids, ← Registry.find?_eq_none] at hn
    rw [hn]

/-- They are displayed in the same way. -/
theorem display (id : String) : e'.display id = e.display id := by
  unfold Engine.display node
  cases hn : e.registry.find? id with
  | some n =>
    obtain ⟨n', hn', halone⟩ := h.exists_of_find? hn
    have hsame : e'.displayNode n' = e'.displayNode n :=
      (congrArg e'.displayNode halone : e'.displayNode n'.alone = e'.displayNode n.alone)
    rw [hn']
    show e'.displayNode n' = e.displayNode n
    rw [hsame]
    unfold displayNode Engine.locale
    rw [h.locale]
  | none =>
    rw [Registry.find?_eq_none, ← h.mem_ids, ← Registry.find?_eq_none] at hn
    rw [hn]

/-- The same was written for the nodes. -/
theorem written : e'.written = e.written := by
  have hwritten : ∀ (e : Engine) (id : String), e.written id =
      ((e.registry.find? id).map OutputNode.alone).bind fun n =>
        n.lastWritten.map fun text => (n.field, text) := by
    intro e id
    rw [Engine.written, Option.bind_map]
    rfl
  funext id
  rw [hwritten, hwritten, h.nodes]

/-- It matters only what values are computed from and what the form remembers. -/
theorem congr {e₁ e₁' : Engine} (he : e₁.belongings = e.belongings)
    (he' : e₁'.belongings = e'.belongings) : Reordered e₁ e₁' := by
  simp only [belongings, Prod.mk.injEq] at he he'
  obtain ⟨hsettings, htree, hregistry, hbindings, hrows, -⟩ := he
  obtain ⟨hsettings', htree', hregistry', hbindings', hrows', -⟩ := he'
  constructor
  · rw [hsettings, hsettings', h.locale]
  · rw [hsettings, hsettings', h.precision]
  · rw [htree, htree', h.read]
  · rw [hbindings, hbindings']
    exact h.bindings
  · rw [hrows, hrows', h.rows]
  · rw [hregistry, hregistry']
    exact h.nodes

theorem perm_ids (hids : e.registry.ids.Nodup) (hids' : e'.registry.ids.Nodup) :
    e'.registry.ids.Perm e.registry.ids :=
  (List.perm_ext_iff_of_nodup hids' hids).mpr fun _ => h.mem_ids

end Reordered

/-- In another order the form can be computed in one sweep as well. -/
theorem Sweepable.reorder (h : Sweepable settings e) (hu : Unread settings mode e)
    (hu' : Unread settings' mode' e') (hr : Reordered e.opened e'.opened)
    (hp : e'.tree.fields.Perm e.tree.fields) (hroom : settings'.maxQueue = settings.maxQueue)
    (hfree : ∀ spec ∈ e'.tree.outputSpecs none, spec.skipWhileEditing = true →
      e'.tree.focused ≠ some spec.id) : Sweepable settings' e' := by
  obtain ⟨ho, hcandid, -⟩ := hu.orderly h
  have hids : e.opened.registry.ids.Nodup := hu.attached.rescan.ids
  have hids' : e'.opened.registry.ids.Nodup := hu'.attached.rescan.ids
  have hacyclic : e'.opened.registry.dependencies.Acyclic := fun v hv =>
    ho.acyclic v (Relation.TransGen.mono (fun _ _ => (hr.reads_iff hids hids').mp) v v hv)
  have hlength : e'.opened.registry.nodes.length = e.opened.registry.nodes.length := by
    have hlength := (hr.perm_ids hids hids').length_eq
    rwa [Registry.ids, Registry.ids, List.length_map, List.length_map] at hlength
  have hregistry := registry_opened e'
  refine ⟨?_, hfree, ⟨hregistry ▸ hacyclic, ?_⟩, hregistry ▸ fun n' hn' id hid => ?_⟩
  · exact ((hp.map Prod.fst).map variableName).nodup_iff.mpr h.names
  · rw [← hregistry, hlength, hroom]
    exact ho.room
  · obtain ⟨n, hn, halone⟩ := hr.symm.exists_of_find? (Registry.find?_of_mem hids' hn')
    have hexpression : n.expression = n'.expression := (congrArg OutputNode.expression halone :)
    rw [← hexpression]
    exact hcandid n (Registry.mem_of_find? hn).1 id (hr.mem_ids.mp hid)

/-! ## Computing the nodes in another order -/

/-- The field is that of the node of its variable. -/
def Shown (e : Engine) (field : String) : Prop :=
  ∃ n, e.registry.find? (variableName field) = some n ∧ n.field = field

theorem shown_of_layout (h : e'.layout = e.layout) {field : String} (hs : e.Shown field) :
    e'.Shown field := by
  obtain ⟨n, hn, hfield⟩ := hs
  obtain ⟨m, hm, hd⟩ := exists_of_layout h hn
  have hsame : m.field = n.field := (congrArg OutputNode.field hd :)
  exact ⟨m, hm, hsame.trans hfield⟩

theorem Reordered.shown (h : Reordered e e') {field : String} (hs : e.Shown field) :
    e'.Shown field := by
  obtain ⟨n, hn, hfield⟩ := hs
  obtain ⟨m, hm, halone⟩ := h.exists_of_find? hn
  have hsame : m.field = n.field := (congrArg OutputNode.field halone :)
  exact ⟨m, hm, hsame.trans hfield⟩

/-- The nodes of an id have computed and written the same, and show the same. -/
def Coincides (e e' : Engine) (id : String) : Prop :=
  (e'.registry.find? id).map OutputNode.alone = (e.registry.find? id).map OutputNode.alone ∧
    ∀ n, e.registry.find? id = some n → e'.tree.read n.field = e.tree.read n.field

namespace Full

/-- All nodes were computed. -/
theorem filled (h : Full settings e₀ e) (hid : id ∈ e.registry.ids) : Filled e₀ e id := by
  have horder : e.links.order = e₀.links.order := congrArg (·.links.order) h.layout
  refine h.filling.filled id ?_
  rw [← horder]
  exact h.coherent.order_perm.mem_iff.mpr hid

theorem evaluated (h : Full settings e₀ e) (hn : n ∈ e.registry.nodes) : n.evaluated = true := by
  obtain ⟨m, v, -, hstored, -⟩ := h.filled (List.mem_map_of_mem hn)
  rw [Registry.find?_of_mem h.coherent.ids hn] at hstored
  cases hstored
  rfl

/-- A field that is not that of a node shows what it showed at first. -/
theorem read_other (h : Full settings e₀ e) {field : String} (hfield : ¬ e.Shown field) :
    e.tree.read field = e₀.tree.read field := by
  refine h.filling.others field fun id _ m hm hsame => hfield ?_
  obtain ⟨n, hn, hd⟩ := exists_of_layout h.layout hm
  obtain ⟨hmem, hid⟩ := Registry.mem_of_find? hn
  have hnfield : n.field = m.field := (congrArg OutputNode.field hd :)
  refine ⟨n, ?_, hnfield.trans hsame⟩
  rw [← hsame, ← hnfield, ← (h.coherent.nodes n hmem).id_eq, hid]
  exact hn

end Full

section

variable (h : Full settings e₀ e) (h' : Full settings' e₀' e') (hr : Reordered e₀ e₀')

include h h' hr

theorem mem_ids_of_full : id ∈ e'.registry.ids ↔ id ∈ e.registry.ids := by
  rw [ids_of_layout h.layout, ids_of_layout h'.layout]
  exact hr.mem_ids

/-- What no computation changes is the same. -/
theorem frame_of_full : e'.settings.locale = e.settings.locale ∧
    e'.settings.precision = e.settings.precision ∧
    (∀ name, e'.bindings.lookup name = e.bindings.lookup name) ∧ e'.rows = e.rows := by
  have hsettings : e.settings = e₀.settings := congrArg Layout.settings h.layout
  have hsettings' : e'.settings = e₀'.settings := congrArg Layout.settings h'.layout
  have hbindings : e.bindings = e₀.bindings := congrArg Layout.bindings h.layout
  have hbindings' : e'.bindings = e₀'.bindings := congrArg Layout.bindings h'.layout
  have hrows : e.rows = e₀.rows := congrArg Layout.rows h.layout
  have hrows' : e'.rows = e₀'.rows := congrArg Layout.rows h'.layout
  rw [hsettings, hsettings', hbindings, hbindings', hrows, hrows']
  exact ⟨hr.locale, hr.precision, hr.bindings, hr.rows⟩

/-- A field shows the same in both forms if it is that of no node, or of one that coincides. -/
theorem read_of_coincides {field : String}
    (hc : variableName field ∈ e.registry.ids → Coincides e e' (variableName field)) :
    e'.tree.read field = e.tree.read field := by
  by_cases hshown : e.Shown field
  · obtain ⟨n, hn, hsame⟩ := hshown
    rw [← hsame]
    exact (hc (Registry.mem_ids_of_find? hn)).2 n hn
  · have hshown' : ¬ e'.Shown field := fun hs => by
      have hs₀' : e₀'.Shown field := shown_of_layout h'.layout.symm hs
      have hs₀ : e₀.Shown field := hr.symm.shown hs₀'
      exact hshown (shown_of_layout h.layout hs₀)
    rw [h.read_other hshown, h'.read_other hshown', hr.read]

/-- A variable holds the same in both if it is that of no node, or of one that coincides. -/
theorem resolve_of_coincides {name : String}
    (hc : name ∈ e.registry.ids → Coincides e e' name) : e'.resolve name = e.resolve name := by
  obtain ⟨-, -, hbindings, -⟩ := frame_of_full h h' hr
  unfold resolve
  rw [hbindings]
  cases hfield : e.bindings.lookup name with
  | none => rfl
  | some field =>
    obtain rfl : variableName field = name := h.coherent.bindings _ (mem_of_lookup hfield)
    dsimp only
    rw [read_of_coincides h h' hr hc]
    cases e.tree.read field with
    | none => rfl
    | some text =>
      dsimp only
      cases hn : e.registry.find? (variableName field) with
      | none =>
        have hnone : e'.registry.find? (variableName field) = none := by
          rw [Registry.find?_eq_none, mem_ids_of_full h h' hr, ← Registry.find?_eq_none]
          exact hn
        rw [hnone]
      | some n =>
        have halone := (hc (Registry.mem_ids_of_find? hn)).1
        rw [hn] at halone
        obtain ⟨n', hn', hsame⟩ := Option.map_eq_some_iff.mp halone
        have hwritten : n'.lastWritten = n.lastWritten := (congrArg OutputNode.lastWritten hsame :)
        have hvalue : n'.lastValue = n.lastValue := (congrArg OutputNode.lastValue hsame :)
        rw [hn']
        dsimp only
        rw [hwritten, hvalue]

/-- The nodes are computed from what they read, so that one after another they come to coincide. -/
theorem coincides_of_full (ho : Orderly settings e₀) (hcandid : e₀.registry.Candid) :
    ∀ id ∈ e.registry.ids, Coincides e e' id := by
  have hc := h.coherent
  have hc' := h'.coherent
  obtain ⟨hlocale, hprecision, -, hrows⟩ := frame_of_full h h' hr
  rw [hc.ofSettings, hc'.ofSettings] at hlocale hprecision
  have hcandid : e.registry.Candid := candid_of_layout h.layout hcandid
  have ho₀ : Orderly settings { e₀ with scope := none } := ⟨ho.acyclic, ho.room⟩
  have ho : Orderly settings e := ho₀.congr h.layout
  refine hc.induction_reads ho.acyclic fun id hid ih => ?_
  obtain ⟨n, v, hn, hstored, hcomputed, hread⟩ := h.filled hid
  obtain ⟨n', v', hn', hstored', hcomputed', hread'⟩ :=
    h'.filled ((mem_ids_of_full h h' hr).mpr hid)
  obtain ⟨m, hm, halone⟩ := hr.exists_of_find? hn
  rw [hn'] at hm
  cases hm
  obtain ⟨hmem, rfl⟩ := Registry.mem_of_find? hstored
  have hexpression : n'.expression = n.expression := (congrArg OutputNode.expression halone :)
  have hfield : n'.field = n.field := (congrArg OutputNode.field halone :)
  -- What the node reads coincides, so that the same is computed for it
  have hresolve : ∀ name, (n.store v (e₀.toWrite n v)).Uses name →
      e'.resolve name = e.resolve name := fun name hname =>
    resolve_of_coincides h h' hr fun hid => ih name (hcandid.reads hmem hid hname)
  have houtcome : Expr.outcome settings.locale settings.precision n.expression e'.resolve e.rows =
      Expr.outcome settings.locale settings.precision n.expression e.resolve e.rows :=
    outcome_congr_of_uses (hc.nodes _ hmem) hc.rows hresolve _ _
  have hvalue : v' = v := by
    rw [computed_eq hc'.toSound, hlocale, hprecision, hexpression, hrows, houtcome,
      ← computed_eq hc.toSound, hcomputed] at hcomputed'
    exact (Except.ok.inj hcomputed').symm
  have hwrite : e₀'.toWrite n' v' = e₀.toWrite n v := by
    rw [hvalue]
    have hsame : e₀'.toWrite n' v = e₀'.toWrite n v :=
      (congrArg (fun n => e₀'.toWrite n v) halone :)
    rw [hsame]
    exact toWrite_congr hr.locale (congrFun hr.read n.field) v
  refine ⟨?_, fun k hk => ?_⟩
  · rw [hstored, hstored', hwrite, hvalue]
    exact congrArg (fun k => some (k.store v (e₀.toWrite n v))) halone
  · rw [hstored] at hk
    cases hk
    show e'.tree.read n.field = e.tree.read n.field
    rw [hread, ← hfield, hread', hwrite, hr.read]

/-- Engines that have read the same fields and have computed each of their nodes have the same. -/
theorem reordered_of_full (ho : Orderly settings e₀) (hcandid : e₀.registry.Candid) :
    Reordered e e' := by
  have hcoincides := coincides_of_full h h' hr ho hcandid
  obtain ⟨hlocale, hprecision, hbindings, hrows⟩ := frame_of_full h h' hr
  refine ⟨hlocale, hprecision, ?_, hbindings, hrows, fun id => ?_⟩
  · funext field
    exact read_of_coincides h h' hr (hcoincides _)
  · by_cases hid : id ∈ e.registry.ids
    · exact (hcoincides id hid).1
    · have hid' : id ∉ e'.registry.ids := fun hid' => hid ((mem_ids_of_full h h' hr).mp hid')
      rw [Registry.find?_eq_none.mpr hid, Registry.find?_eq_none.mpr hid']

/-- The same was written, in another order. -/
theorem writes_of_full (ho : Orderly settings e₀) (hcandid : e₀.registry.Candid)
    (hc₀ : Coherent settings mode e₀) (hc₀' : Coherent settings' mode' e₀') :
    ∃ ws ws', e.tree.writes = e₀.tree.writes ++ ws ∧ e'.tree.writes = e₀'.tree.writes ++ ws' ∧
      ws'.Perm ws := by
  have horder : e₀'.links.order.Perm e₀.links.order :=
    (hc₀'.order_perm.trans (hr.perm_ids hc₀.ids hc₀'.ids)).trans hc₀.order_perm.symm
  refine ⟨_, _, h.filling.writes, h'.filling.writes, ?_⟩
  rw [(reordered_of_full h h' hr ho hcandid).written]
  exact horder.filterMap _

end

/-! ## New engines -/

/-- New engines that are attached to forms with the same fields, perhaps in another order, and with
settings that differ in the batch size only compute the same values and write the same texts,
whether their batches follow at once or are run by hand.  Where the forms cannot be read, or no
value can be remembered, they come to nothing alike. -/
theorem attach_confluent {place place' : String} {entries entries' : List (String × Data)}
    (hsettings : Settings.ofEntries place entries = .ok settings)
    (hsettings' : Settings.ofEntries place' entries' = .ok settings')
    (batches : settings' = { settings with batchSize := settings'.batchSize })
    {t t' : FormTree} (proper : t.Proper) (reordered : t'.fields.Perm t.fields)
    (debounces debounces' : Bool) (listeners listeners' : List Nat)
    (sweepable : Sweepable settings (heard t settings mode debounces listeners))
    (free : ∀ spec ∈ t'.outputSpecs none, spec.skipWhileEditing = true →
      t'.focused ≠ some spec.id)
    {answer answer' : Engine → Ask → Reply Response EngineError}
    (calm : (heard t settings mode debounces listeners).Readable →
      AttachesCalmly answer (heard t settings mode debounces listeners))
    (calm' : (heard t' settings' mode' debounces' listeners').Readable →
      AttachesCalmly answer' (heard t' settings' mode' debounces' listeners')) :
    ∃ e rs e' rs',
      Attaches answer (heard t settings mode debounces listeners) e rs ∧
      Attaches answer' (heard t' settings' mode' debounces' listeners') e' rs' ∧
      ((heard t settings mode debounces listeners).Readable →
        settings.historySize ≤ ConvergenceDetector.maxHistory →
        (∀ r ∈ rs ++ rs', ∃ a, r = .returned a) ∧ ∀ n ∈ e.registry.nodes, n.evaluated = true) ∧
      (∀ id, e'.value id = e.value id) ∧ (∀ id, e'.display id = e.display id) ∧
      e'.tree.read = e.tree.read ∧
      ∃ ws ws', e.tree.writes = t.writes ++ ws ∧ e'.tree.writes = t'.writes ++ ws' ∧
        ws'.Perm ws := by
  have hs := Settings.inRange_of_ofEntries hsettings
  have hs' := Settings.inRange_of_ofEntries hsettings'
  have hu : Unread settings mode (heard t settings mode debounces listeners) :=
    unread_heard proper settings mode debounces listeners
  have hu' : Unread settings' mode' (heard t' settings' mode' debounces' listeners') :=
    unread_heard (proper.perm reordered) settings' mode' debounces' listeners'
  have hr := reordered_opened hu hu' (by rw [batches]) (by rw [batches]) rfl reordered
    sweepable.names
  have hreadable := readable_reordered hu hu' reordered sweepable.names
  have hroom : settings'.maxQueue = settings.maxQueue := by rw [batches]
  have hhistory : settings'.historySize = settings.historySize := by rw [batches]
  have hopened : (heard t settings mode debounces listeners).opened.tree = t := tree_rescan _
  have hopened' : (heard t' settings' mode' debounces' listeners').opened.tree = t' :=
    tree_rescan _
  by_cases hfruitful : (heard t settings mode debounces listeners).Readable ∧
      settings.historySize ≤ ConvergenceDetector.maxHistory
  · obtain ⟨hread, hmost⟩ := hfruitful
    have hread' := hreadable.mpr hread
    obtain ⟨ho, hcandid, -⟩ := hu.orderly sweepable
    obtain ⟨e, rs, hattaches, hreplies, e₁, hfull, hbelongings⟩ :=
      hu.attaches hs hmost sweepable hread (calm hread)
    obtain ⟨e', rs', hattaches', hreplies', e₁', hfull', hbelongings'⟩ :=
      hu'.attaches hs' (hhistory ▸ hmost) (sweepable.reorder hu hu' hr reordered hroom free)
        hread' (calm' hread')
    have hsame : Reordered e e' := (reordered_of_full hfull hfull' hr ho hcandid).congr hbelongings
      hbelongings'
    refine ⟨e, rs, e', rs', hattaches, hattaches', fun _ _ => ⟨fun r hr => ?_, ?_⟩, hsame.value,
      hsame.display, hsame.read, ?_⟩
    · exact (List.mem_append.mp hr).elim (hreplies r) (hreplies' r)
    · have hregistry : e.registry = e₁.registry := congrArg (·.2.2.1) hbelongings
      rw [hregistry]
      intro n hn
      exact hfull.evaluated hn
    · have htree : e.tree = e₁.tree := congrArg (·.2.1) hbelongings
      have htree' : e'.tree = e₁'.tree := congrArg (·.2.1) hbelongings'
      have hwrites := writes_of_full hfull hfull' hr ho hcandid (hu.opened hread).1
        (hu'.opened hread').1
      rw [hopened, hopened'] at hwrites
      rw [htree, htree']
      exact hwrites
  · obtain ⟨e, rs, hattaches, hbelongings⟩ :=
      hu.attaches_in_vain hs fun hread hmost => hfruitful ⟨hread, hmost⟩
    obtain ⟨e', rs', hattaches', hbelongings'⟩ := hu'.attaches_in_vain hs' fun hread' hmost' =>
      hfruitful ⟨hreadable.mp hread', hhistory ▸ hmost'⟩
    have hsame : Reordered e e' := hr.congr hbelongings hbelongings'
    refine ⟨e, rs, e', rs', hattaches, hattaches',
      fun hread hmost => absurd ⟨hread, hmost⟩ hfruitful, hsame.value, hsame.display, hsame.read,
      [], [], ?_, ?_, .refl _⟩
    · have htree : e.tree = t := (congrArg (·.2.1) hbelongings).trans hopened
      rw [htree, List.append_nil]
    · have htree' : e'.tree = t' := (congrArg (·.2.1) hbelongings').trans hopened'
      rw [htree', List.append_nil]

/-- The same fields as those of the chain, from the last one to the first. -/
def reversedChain : FormTree :=
  ((({} : FormTree).withOutput { id := "a", expression := "x + 1" } "").withOutput
    { id := "b", expression := "a * 2" } "").withField "x" "1" ""

/-- In batches of one. -/
def oneByOne : Settings := Settings.setCount {} .batchSize 1

theorem sweepable_chainTree : Sweepable {} (heard chainTree {} .immediate false []) where
  names := by decide +kernel
  free := by decide +kernel
  orderly := ⟨eager_chainEngine.acyclic, eager_chainEngine.room⟩
  candid := by
    unfold Registry.Candid
    decide +kernel

/-- The other order, in batches of one that are run by hand. -/
theorem attach_confluent_reversed : ∃ e rs e' rs',
    Attaches (fun _ _ => .returned default) (heard chainTree {} .immediate false []) e rs ∧
    Attaches (fun _ _ => .returned default) (heard reversedChain oneByOne .manual true [0]) e' rs' ∧
    ((∀ r ∈ rs ++ rs', ∃ a, r = .returned a) ∧ ∀ n ∈ e.registry.nodes, n.evaluated = true) ∧
    (∀ id, e'.value id = e.value id) ∧ (∀ id, e'.display id = e.display id) ∧
    e'.tree.read = e.tree.read ∧
    ∃ ws ws', e.tree.writes = chainTree.writes ++ ws ∧
      e'.tree.writes = reversedChain.writes ++ ws' ∧ ws'.Perm ws := by
  have hsettings : Settings.ofEntries "" [] = .ok {} := rfl
  have hsettings' : Settings.ofEntries "" [("batch_size", .scalar (.integer 1))] = .ok oneByOne :=
    Settings.ofEntries_count (by decide +kernel) (by decide)
  have hreversed : reversedChain.fields.Perm chainTree.fields :=
    List.reverse_perm (l := chainTree.fields)
  have hcalm : AttachesCalmly (fun _ _ => .returned default)
      (heard chainTree {} .immediate false []) :=
    attachesCalmly_of_endsSmoothly 100 100 (by decide +kernel) (by decide +kernel)
  have hcalm' : AttachesCalmly (fun _ _ => .returned default)
      (heard reversedChain oneByOne .manual true [0]) :=
    attachesCalmly_of_endsSmoothly 100 100 (by decide +kernel) (by decide +kernel)
  obtain ⟨e, rs, e', rs', hattaches, hattaches', hends, hrest⟩ :=
    attach_confluent hsettings hsettings' rfl proper_chainTree hreversed false true [] [0]
      sweepable_chainTree (by decide +kernel) (fun _ => hcalm) (fun _ => hcalm')
  exact ⟨e, rs, e', rs', hattaches, hattaches',
    hends (by decide +kernel) (by decide), hrest⟩

end Engine

end LiveForm
