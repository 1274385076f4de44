import LiveForm.Engine.Operation
import LiveForm.Proofs.Engine.Update
import LiveForm.Proofs.Form.Tree
import LiveForm.Proofs.Graph.Link
import LiveForm.Proofs.Name
import LiveForm.Proofs.Schedule.Scheduler

/-!
# The data of the engine hang together

At any moment the parts of the engine have the parameters of its settings, and the form and the
registry are sound.  The links are those of the registered nodes unless the latest reading of the
form broke off: it lets go of nodes before it finds out that a subscript cannot be read, and the
links stay as they were.
-/

namespace LiveForm

/-- What each registered node depends on. -/
def Registry.dependencies (r : Registry) : Dependencies :=
  r.nodes.map fun n => (n.id, n.dependencies)

theorem Registry.ids_dependencies (r : Registry) : r.dependencies.map (·.1) = r.ids := by
  rw [Registry.dependencies, List.map_map]
  rfl

namespace Engine

/-- The part of the state that is bound together; what belongs to a running cycle is left out. -/
def core (e : Engine) :=
  (e.settings, (e.scheduler.yieldPoint.mode, e.scheduler.batchSize, e.scheduler.queue.maxQueue),
    (e.detector.tolerances, e.detector.historySize), e.evaluator, e.writing, e.tree,
    e.registry, e.links, e.bindings, e.rows)

/-- The parts of an engine with these settings and this kind of yield point are sound. -/
structure Sound (settings : Settings) (mode : YieldMode) (e : Engine) : Prop where
  ofSettings : e.settings = settings
  ofMode : e.scheduler.yieldPoint.mode = mode
  batchSize : e.scheduler.batchSize = settings.batchSize.toNat
  maxQueue : e.scheduler.queue.maxQueue = settings.maxQueue
  tolerances : e.detector.tolerances = ⟨settings.tolerance, settings.relativeTolerance⟩
  historySize : e.detector.historySize = settings.historySize.toNat
  evaluator : e.evaluator.Sound
  locale : e.evaluator.locale = settings.locale
  precision : e.evaluator.precision = settings.precision
  writing : e.writing = false
  tree : e.tree.Proper
  nodes : ∀ n ∈ e.registry.nodes, n.Proper
  ids : e.registry.ids.Nodup
  bindings : ∀ p ∈ e.bindings, variableName p.2 = p.1
  rows : ∀ i ∈ e.rows, 0 ≤ i

/-- The links are those of the registered nodes. -/
structure Linked (e : Engine) : Prop where
  links : e.links = LinkGraph.build e.registry.dependencies
  linked : ∀ n ∈ e.registry.nodes, n.linked = e.links.peers n.id

instance (e : Engine) : Decidable e.Linked :=
  decidable_of_iff (e.links = LinkGraph.build e.registry.dependencies ∧
      ∀ n ∈ e.registry.nodes, n.linked = e.links.peers n.id)
    ⟨fun h => ⟨h.1, h.2⟩, fun h => ⟨h.links, h.linked⟩⟩

/-- The data of an engine with these settings and this kind of yield point hang together. -/
structure Coherent (settings : Settings) (mode : YieldMode) (e : Engine) : Prop
    extends Sound settings mode e, Linked e

variable {settings : Settings} {mode : YieldMode} {e e' : Engine}

theorem Sound.congr (h : Sound settings mode e) (hc : e'.core = e.core) :
    Sound settings mode e' := by
  simp only [core, Prod.mk.injEq] at hc
  obtain ⟨h1, ⟨h2, h3, h4⟩, ⟨h5, h6⟩, h7, h8, h9, h10, -, h12, h13⟩ := hc
  constructor
  · rw [h1, h.ofSettings]
  · rw [h2, h.ofMode]
  · rw [h3, h.batchSize]
  · rw [h4, h.maxQueue]
  · rw [h5, h.tolerances]
  · rw [h6, h.historySize]
  · rw [h7]; exact h.evaluator
  · rw [h7, h.locale]
  · rw [h7, h.precision]
  · rw [h8, h.writing]
  · rw [h9]; exact h.tree
  · rw [h10]; exact h.nodes
  · rw [h10]; exact h.ids
  · rw [h12]; exact h.bindings
  · rw [h13]; exact h.rows

theorem Linked.congr (h : e.Linked) (hregistry : e'.registry = e.registry)
    (hlinks : e'.links = e.links) : e'.Linked := by
  constructor
  · rw [hlinks, hregistry, h.links]
  · rw [hlinks, hregistry]
    exact h.linked

theorem Coherent.congr (h : Coherent settings mode e) (hc : e'.core = e.core) :
    Coherent settings mode e' := by
  have hparts := hc
  simp only [core, Prod.mk.injEq] at hparts
  obtain ⟨-, -, -, -, -, -, hregistry, hlinks, -, -⟩ := hparts
  exact ⟨h.toSound.congr hc, h.toLinked.congr hregistry hlinks⟩

/-! ## Nodes and their order -/

theorem Coherent.ids_dependencies (h : Coherent settings mode e) :
    (e.registry.dependencies.map (·.1)).Nodup := by
  rw [Registry.ids_dependencies]
  exact h.ids

theorem Coherent.order_perm (h : Coherent settings mode e) :
    e.links.order.Perm e.registry.ids := by
  rw [h.links, ← Registry.ids_dependencies]
  exact LinkGraph.order_perm h.ids_dependencies

/-- The nodes in order are registered. -/
theorem Coherent.contains_of_mem_order (h : Coherent settings mode e) {id : String}
    (hid : id ∈ e.links.order) : e.registry.contains id = true :=
  Registry.contains_iff.mpr (h.order_perm.mem_iff.mp hid)

theorem Coherent.nodup_order (h : Coherent settings mode e) : e.links.order.Nodup :=
  h.order_perm.symm.nodup h.ids

/-- Where no node reads itself, what is read comes first. -/
theorem Coherent.order_ordered (h : Coherent settings mode e)
    (ha : e.registry.dependencies.Acyclic) :
    e.links.order.Pairwise fun a b => ¬ e.registry.dependencies.Reads a b := by
  rw [h.links]
  exact LinkGraph.order_ordered h.ids_dependencies ha

/-- What a node reads comes before it. -/
theorem Coherent.mem_before (h : Coherent settings mode e) (ha : e.registry.dependencies.Acyclic)
    {front back : List String} {u v : String} (ho : e.links.order = front ++ v :: back)
    (hr : e.registry.dependencies.Reads v u) : u ∈ front := by
  have hu := hr.1
  have hordered := h.order_ordered ha
  rw [Registry.ids_dependencies, ← h.order_perm.mem_iff, ho] at hu
  rw [ho] at hordered
  rcases List.mem_append.mp hu with hu | hu
  · exact hu
  · rcases List.mem_cons.mp hu with rfl | hu
    · exact absurd hr (ha.not_reads_self _)
    · have hbehind := (List.pairwise_append.mp hordered).2.1
      exact absurd hr ((List.pairwise_cons.mp hbehind).1 u hu)

/-- What holds of a node if it holds of those that it reads holds of every node, where none reads
itself. -/
theorem Coherent.induction_reads (h : Coherent settings mode e)
    (ha : e.registry.dependencies.Acyclic) {P : String → Prop}
    (hstep : ∀ v ∈ e.registry.ids, (∀ u, e.registry.dependencies.Reads v u → P u) → P v) :
    ∀ v ∈ e.registry.ids, P v := by
  suffices hall : ∀ back front, e.links.order = front ++ back → (∀ v ∈ front, P v) →
      ∀ v ∈ e.links.order, P v from fun v hv =>
    hall e.links.order [] rfl (fun _ hv => absurd hv List.not_mem_nil) v
      (h.order_perm.mem_iff.mpr hv)
  -- The nodes are gone through in order
  intro back
  induction back with
  | nil =>
    intro front ho hfront
    rw [List.append_nil] at ho
    rwa [ho]
  | cons v back ih =>
    intro front ho hfront
    have hv : v ∈ e.registry.ids := by
      rw [← h.order_perm.mem_iff, ho]
      exact List.mem_append_right _ List.mem_cons_self
    have hp : P v := hstep v hv fun u hu => hfront u (h.mem_before ha ho hu)
    refine ih (front ++ [v]) (by rw [ho, List.append_assoc]; rfl) fun w hw => ?_
    rcases List.mem_append.mp hw with hw | hw
    · exact hfront w hw
    · rw [List.mem_singleton.mp hw]
      exact hp

theorem Coherent.mem_successors (h : Coherent settings mode e) {u v : String} :
    v ∈ e.links.graph.successors u ↔ u ≠ v ∧ e.registry.dependencies.Reads v u := by
  rw [h.links]
  exact LinkGraph.mem_successors_iff h.ids_dependencies

theorem Coherent.id_not_mem_linked (h : Coherent settings mode e) {n : OutputNode}
    (hn : n ∈ e.registry.nodes) : n.id ∉ n.linked := by
  rw [h.linked n hn, h.links]
  refine LinkGraph.not_mem_peers_self h.ids_dependencies ?_
  rw [Registry.ids_dependencies]
  exact List.mem_map_of_mem hn

/-- A node reads another one if its dependencies cover it. -/
theorem reads_of_mem {r : Registry} {n : OutputNode} (hn : n ∈ r.nodes) {u : String}
    (hu : u ∈ r.ids) (hr : reads n.dependencies u = true) : r.dependencies.Reads n.id u := by
  refine ⟨?_, _, List.mem_map_of_mem hn, rfl, hr⟩
  rw [Registry.ids_dependencies]
  exact hu

/-! ## Reading the form -/

/-- Each binding comes from one of the names. -/
theorem forall_bindNames {Q : String × String → Prop} {names : List String}
    (h : ∀ name ∈ names, Q (variableName name, name)) : ∀ p ∈ bindNames names, Q p := by
  suffices hall : ∀ (names : List String) (vs : List (String × String)),
      (∀ name ∈ names, Q (variableName name, name)) → (∀ p ∈ vs, Q p) →
      ∀ p ∈ names.foldl (fun vs name =>
        let v := variableName name
        if vs.any (·.1 == v) then vs.map fun p => if p.1 == v then (v, name) else p
        else vs ++ [(v, name)]) vs, Q p from
    hall names [] h fun p hp => absurd hp List.not_mem_nil
  -- A name takes the place of an earlier one with the same variable
  intro names
  induction names with
  | nil => exact fun vs _ hvs => hvs
  | cons name names ih =>
    intro vs hnames hvs
    have hname := hnames name List.mem_cons_self
    refine ih _ (fun name' h' => hnames name' (List.mem_cons_of_mem _ h')) fun p hp => ?_
    dsimp only at hp
    split at hp
    · obtain ⟨q, hq, rfl⟩ := List.mem_map.mp hp
      split
      · exact hname
      · exact hvs q hq
    · rcases List.mem_append.mp hp with hp | hp
      · exact hvs p hp
      · rw [List.mem_singleton.mp hp]
        exact hname

theorem forall_bindNodes {Q : String × String → Prop} {vs : List (String × String)}
    {nodes : List OutputNode} (hvs : ∀ p ∈ vs, Q p) (hn : ∀ n ∈ nodes, Q (n.id, n.field)) :
    ∀ p ∈ bindNodes vs nodes, Q p := by
  induction nodes generalizing vs with
  | nil => exact hvs
  | cons n nodes ih =>
    refine ih (fun p hp => ?_) fun m hm => hn m (List.mem_cons_of_mem _ hm)
    dsimp only at hp
    split at hp
    · exact hvs p hp
    · rcases List.mem_append.mp hp with hp | hp
      · exact hvs p hp
      · rw [List.mem_singleton.mp hp]
        exact hn n List.mem_cons_self

theorem ids_linkNodes (links : LinkGraph) (r : Registry) : (linkNodes links r).ids = r.ids := by
  rw [Registry.ids, linkNodes, List.map_map]
  rfl

theorem dependencies_linkNodes (links : LinkGraph) (r : Registry) :
    (linkNodes links r).dependencies = r.dependencies := by
  rw [Registry.dependencies, linkNodes, List.map_map]
  rfl

theorem tolerances_foldl_forget (ids : List String) (d : ConvergenceDetector) :
    (ids.foldl ConvergenceDetector.forget d).tolerances = d.tolerances ∧
      (ids.foldl ConvergenceDetector.forget d).historySize = d.historySize := by
  induction ids generalizing d with
  | nil => exact ⟨rfl, rfl⟩
  | cons id ids ih => exact ih (d.forget id)

/-- The registry when the declarations of the form were read again. -/
def synced (e : Engine) : Registry := (e.registry.sync (e.tree.outputSpecs none)).1

/-- The engine when the form was read as far as the nodes and the bindings. -/
def reread (e : Engine) : Engine :=
  let (registry, diff, notices) := e.registry.sync (e.tree.outputSpecs none)
  let stays (id : String) : Bool := !diff.removed.contains id
  { e with
    bindings := bindNodes (bindNames (e.tree.inputNames none)) registry.nodes
    detector := diff.removed.foldl ConvergenceDetector.forget e.detector
    lastEdit := e.lastEdit.filter fun p => stays p.1
    passes := e.passes.filter fun p => stays p.1 }.report notices

theorem rescan_eq (e : Engine) :
    e.rescan =
      match rowIndices (e.reread.bindings.map Prod.snd) with
      | .error .tooMany => (e.reread.withRegistry e.synced, .error .tooManyDigits)
      | .ok rows =>
        let links := LinkGraph.build e.synced.dependencies
        ({ e.reread with rows, links }.withRegistry (linkNodes links e.synced),
          .ok (e.registry.sync (e.tree.outputSpecs none)).2.1) := rfl

/-- The subscripts in the names of the form can be read, so that reading the form does not break
off. -/
def Readable (e : Engine) : Prop := ∃ rows, rowIndices (e.reread.bindings.map Prod.snd) = .ok rows

instance (e : Engine) : Decidable e.Readable :=
  match h : rowIndices (e.reread.bindings.map Prod.snd) with
  | .ok rows => isTrue ⟨rows, h⟩
  | .error _ => isFalse fun hr => by
    obtain ⟨rows, hrows⟩ := hr
    rw [h] at hrows
    cases hrows

/-- Reading the form comes to its end, or it breaks off at a subscript. -/
theorem rescan_cases (e : Engine) :
    (e.Readable ∧ ∃ rows diff, rowIndices (e.reread.bindings.map Prod.snd) = .ok rows ∧
      e.rescan = ({ e.reread with
          rows, links := LinkGraph.build e.synced.dependencies }.withRegistry
        (linkNodes (LinkGraph.build e.synced.dependencies) e.synced), .ok diff)) ∨
    ¬ e.Readable ∧ e.rescan = (e.reread.withRegistry e.synced, .error .tooManyDigits) := by
  rw [rescan_eq, Readable]
  cases hrows : rowIndices (e.reread.bindings.map Prod.snd) with
  | error err => exact Or.inr ⟨nofun, rfl⟩
  | ok rows => exact Or.inl ⟨⟨rows, rfl⟩, rows, _, rfl, rfl⟩

theorem Readable.rescan_ok (h : e.Readable) : ∃ diff, e.rescan = (e.rescan.1, .ok diff) := by
  rcases rescan_cases e with ⟨-, rows, diff, -, heq⟩ | ⟨hn, -⟩
  · exact ⟨diff, by rw [heq]⟩
  · exact absurd h hn

theorem rescan_of_not_readable (h : ¬ e.Readable) :
    e.rescan = (e.rescan.1, .error .tooManyDigits) := by
  rcases rescan_cases e with ⟨hr, -⟩ | ⟨-, heq⟩
  · exact absurd hr h
  · rw [heq]

/-- Where reading the form breaks off, the rows stay those that were known. -/
theorem rows_rescan_of_not_readable (h : ¬ e.Readable) : e.rescan.1.rows = e.rows := by
  rcases rescan_cases e with ⟨hr, -⟩ | ⟨-, heq⟩
  · exact absurd hr h
  · rw [heq]
    rfl

/-- Whether or not it breaks off, reading the form changes nothing but this. -/
theorem rescan_unseen {α : Type} (e : Engine) (f : Engine → α)
    (hf : ∀ registry links detector bindings rows lastEdit passes announcing notices,
      f { e with
        registry, links, detector, bindings, rows, lastEdit, passes, announcing, notices } = f e) :
    f e.rescan.1 = f e := by
  rcases rescan_cases e with ⟨-, rows, diff, -, h⟩ | ⟨-, h⟩
  · rw [h]
    exact hf _ _ _ _ _ _ _ _ _
  · rw [h]
    exact hf _ _ _ _ _ _ _ _ _

theorem bindings_rescan_eq (e : Engine) : e.rescan.1.bindings = e.reread.bindings := by
  rcases rescan_cases e with ⟨-, rows, diff, -, h⟩ | ⟨-, h⟩
  · rw [h]
    rfl
  · rw [h]
    rfl

theorem passes_rescan (e : Engine) : e.rescan.1.passes = e.reread.passes := by
  rcases rescan_cases e with ⟨-, rows, diff, -, h⟩ | ⟨-, h⟩
  · rw [h]
    rfl
  · rw [h]
    rfl

theorem lastEdit_rescan (e : Engine) : e.rescan.1.lastEdit = e.reread.lastEdit := by
  rcases rescan_cases e with ⟨-, rows, diff, -, h⟩ | ⟨-, h⟩
  · rw [h]
    rfl
  · rw [h]
    rfl

theorem tree_rescan (e : Engine) : e.rescan.1.tree = e.tree :=
  rescan_unseen e tree fun _ _ _ _ _ _ _ _ _ => rfl

theorem locale_rescan (e : Engine) : e.rescan.1.locale = e.locale :=
  rescan_unseen e locale fun _ _ _ _ _ _ _ _ _ => rfl

theorem scope_rescan (e : Engine) : e.rescan.1.scope = e.scope :=
  rescan_unseen e scope fun _ _ _ _ _ _ _ _ _ => rfl

theorem changed_rescan (e : Engine) : e.rescan.1.changed = e.changed :=
  rescan_unseen e changed fun _ _ _ _ _ _ _ _ _ => rfl

theorem ids_rescan (e : Engine) : e.rescan.1.registry.ids = e.synced.ids := by
  rcases rescan_cases e with ⟨-, rows, diff, -, h⟩ | ⟨-, h⟩
  · rw [h]
    exact ids_linkNodes _ _
  · rw [h]
    rfl

/-- The nodes that were read are those of the declarations, linked anew or not. -/
theorem exists_of_mem_rescan {n : OutputNode} (hn : n ∈ e.rescan.1.registry.nodes) :
    ∃ m ∈ e.synced.nodes, ∃ linked, n = { m with linked } := by
  rcases rescan_cases e with ⟨-, rows, diff, -, h⟩ | ⟨-, h⟩
  · rw [h] at hn
    obtain ⟨m, hm, rfl⟩ := List.mem_map.mp hn
    exact ⟨m, hm, _, rfl⟩
  · rw [h] at hn
    exact ⟨n, hn, _, rfl⟩

theorem exists_of_mem_synced {n : OutputNode} (hn : n ∈ e.synced.nodes) :
    ∃ linked, { n with linked } ∈ e.rescan.1.registry.nodes := by
  rcases rescan_cases e with ⟨-, rows, diff, -, h⟩ | ⟨-, h⟩
  · rw [h]
    exact ⟨_, List.mem_map_of_mem hn⟩
  · rw [h]
    exact ⟨n.linked, hn⟩

/-- Reading the form again keeps the parts sound, whatever the nodes were. -/
theorem Sound.rescan (h : Sound settings mode e) : Sound settings mode e.rescan.1 := by
  have hnodes := Registry.proper_sync h.nodes (e.tree.outputSpecs none)
  have hids := Registry.nodup_ids_sync e.registry (e.tree.outputSpecs none)
  have hdetector :=
    tolerances_foldl_forget (e.registry.sync (e.tree.outputSpecs none)).2.1.removed e.detector
  have hreread : Sound settings mode (e.reread.withRegistry e.synced) := { h with
    tolerances := hdetector.1.trans h.tolerances
    historySize := hdetector.2.trans h.historySize
    nodes := hnodes
    ids := hids
    bindings := forall_bindNodes (forall_bindNames fun _ _ => rfl) fun n hn =>
      (hnodes n hn).id_eq.symm }
  rcases rescan_cases e with ⟨-, rows, diff, hrows, heq⟩ | ⟨-, heq⟩
  · rw [heq]
    refine { hreread with
      nodes := fun n hn => ?_
      ids := (ids_linkNodes _ _).symm ▸ hids
      rows := rowIndices_nonneg hrows }
    obtain ⟨m, hm, rfl⟩ := List.mem_map.mp hn
    exact ⟨(hnodes m hm).id_eq, (hnodes m hm).reads⟩
  · rw [heq]
    exact hreread

/-- A reading that comes to its end links the nodes, whatever they were. -/
theorem linked_rescan (hr : e.Readable) : e.rescan.1.Linked := by
  rcases rescan_cases e with ⟨-, rows, diff, -, h⟩ | ⟨hn, -⟩
  · rw [h]
    refine ⟨congrArg LinkGraph.build (dependencies_linkNodes _ _).symm, fun n hn => ?_⟩
    obtain ⟨m, hm, rfl⟩ := List.mem_map.mp hn
    rfl
  · exact absurd hr hn

/-- When the form was read to its end, the rows are those of the fields. -/
theorem Readable.rows_rescan (hr : e.Readable) :
    rowIndices (e.rescan.1.bindings.map Prod.snd) = .ok e.rescan.1.rows := by
  rcases rescan_cases e with ⟨-, rows, diff, hrows, heq⟩ | ⟨hn, -⟩
  · rw [heq]
    exact hrows
  · exact absurd hr hn

theorem Sound.coherent_rescan (h : Sound settings mode e) (hr : e.Readable) :
    Coherent settings mode e.rescan.1 := ⟨h.rescan, linked_rescan hr⟩

/-- Where the declared outputs have distinct variables, each node that was read is derived from its
declaration. -/
theorem derived_rescan (hp : e.tree.Proper) (hd : e.tree.Distinct) {n : OutputNode}
    (hn : n ∈ e.rescan.1.registry.nodes) :
    ∃ m, ∃ spec ∈ e.tree.outputSpecs none, e.registry.Derives spec m ∧ ∃ linked,
      n = { m with linked } := by
  obtain ⟨m, hm, linked, rfl⟩ := exists_of_mem_rescan hn
  obtain ⟨spec, hspec, hderives⟩ := (Registry.derives_sync (hd.nodup hp)).1 m hm
  exact ⟨m, spec, hspec, hderives, linked, rfl⟩

/-- Each declared output has a node. -/
theorem mem_ids_rescan (hp : e.tree.Proper) (hd : e.tree.Distinct) {spec : OutputSpec}
    (hspec : spec ∈ e.tree.outputSpecs none) :
    variableName spec.id ∈ e.rescan.1.registry.ids := by
  obtain ⟨n, hn, hderives⟩ := (Registry.derives_sync (r := e.registry) (hd.nodup hp)).2 spec hspec
  rw [← hderives.id_eq, ids_rescan]
  exact List.mem_map_of_mem hn

/-! ## Updates -/

theorem core_counted (e : Engine) (n : OutputNode) : (e.counted n).core = e.core := by
  unfold counted core
  dsimp only
  split
  · rfl
  · rfl

theorem Sound.counted (h : Sound settings mode e) (n : OutputNode) :
    Sound settings mode (e.counted n) := h.congr (core_counted e n)

theorem Coherent.counted (h : Coherent settings mode e) (n : OutputNode) :
    Coherent settings mode (e.counted n) := h.congr (core_counted e n)

theorem Coherent.brokenOff (h : Coherent settings mode e) (n : OutputNode) :
    Coherent settings mode (e.brokenOff n) := h.congr rfl

theorem Sound.judged (h : Sound settings mode e) {n : OutputNode} (hj : e.Judged n e') :
    Sound settings mode e' := by
  obtain ⟨-, hsound, hlocale, hprecision⟩ := h.evaluator.evaluate n.expression e.resolve e.rows
  obtain ⟨⟨ns, heq⟩, ht, hs⟩ := hj
  rw [heq]
  exact { h with
    tolerances := ht.trans h.tolerances
    historySize := hs.trans h.historySize
    evaluator := hsound
    locale := hlocale.trans h.locale
    precision := hprecision.trans h.precision }

theorem Coherent.judged (h : Coherent settings mode e) {n : OutputNode} (hj : e.Judged n e') :
    Coherent settings mode e' :=
  ⟨h.toSound.judged hj, h.toLinked.congr (hj.unseen registry fun _ _ _ => rfl)
    (hj.unseen links fun _ _ _ => rfl)⟩

theorem dependencies_modify_store (r : Registry) (id : String) (v : Value)
    (written : Option String) :
    (r.modify id (·.store v written)).dependencies = r.dependencies := by
  rw [Registry.dependencies, Registry.modify, List.map_map]
  refine List.map_congr_left fun n _ => ?_
  rw [Function.comp_apply]
  split
  · rfl
  · rfl

theorem Sound.stored (h : Sound settings mode e) {n : OutputNode} {v : Value}
    (hs : e.Stored n v e') : Sound settings mode e' := by
  obtain ⟨written, ns, rfl, -⟩ := hs
  refine { h with tree := ?_, nodes := fun m hm => ?_, ids := ?_ }
  · cases written with
    | none => exact h.tree
    | some text => exact h.tree.write n.field text
  · obtain ⟨k, hk, rfl⟩ := Registry.mem_modify.mp hm
    split
    · exact ⟨(h.nodes k hk).id_eq, (h.nodes k hk).reads⟩
    · exact h.nodes k hk
  · show (e.registry.modify n.id (·.store v written)).ids.Nodup
    rw [Registry.ids_modify (f := (·.store v written)) fun _ => rfl]
    exact h.ids

/-- A value that is stored changes no links. -/
theorem Linked.modify (h : e.Linked) {id : String} {v : Value} {written : Option String}
    (hregistry : e'.registry = e.registry.modify id (·.store v written))
    (hlinks : e'.links = e.links) : e'.Linked := by
  constructor
  · rw [hlinks, hregistry, dependencies_modify_store]
    exact h.links
  · intro m hm
    obtain ⟨k, hk, rfl⟩ := Registry.mem_modify.mp (hregistry ▸ hm)
    rw [hlinks]
    split
    · exact h.linked k hk
    · exact h.linked k hk

theorem Linked.stored (h : e.Linked) {n : OutputNode} {v : Value} (hs : e.Stored n v e') :
    e'.Linked := by
  obtain ⟨written, ns, rfl, -⟩ := hs
  exact h.modify rfl rfl

theorem Coherent.stored (h : Coherent settings mode e) {n : OutputNode} {v : Value}
    (hs : e.Stored n v e') : Coherent settings mode e' :=
  ⟨h.toSound.stored hs, h.toLinked.stored hs⟩

theorem core_queued (hq : Queued e e') : e'.core = e.core := by
  obtain ⟨⟨queue, ns, rfl⟩, hm, -⟩ := hq
  have hm' : queue.maxQueue = e.scheduler.queue.maxQueue := hm
  simp only [core, hm']

theorem Coherent.queued (h : Coherent settings mode e) (hq : Queued e e') :
    Coherent settings mode e' := h.congr (core_queued hq)

theorem Sound.evaluateNode (h : Sound settings mode e) (n : OutputNode)
    (entry : QueueEntry) : Sound settings mode (e.evaluateNode n entry).state := by
  have hm := e.evaluated_evaluateNode n entry
  generalize e.evaluateNode n entry = m at hm ⊢
  cases hm with
  | failed err e' value judged => exact h.judged judged
  | tooLong v e' value full judged => exact h.judged judged
  | keptOut v e' value room out judged => exact h.judged judged
  | accepted v e' value room new judged =>
    have h' := h.judged judged
    obtain ⟨e'', watchers, hs, heq⟩ := accept_eq entry (displayable_of_computed value) h'.writing
    rw [heq]
    exact h'.stored hs

theorem Sound.process (h : Sound settings mode e) (entry : QueueEntry) :
    Sound settings mode (e.process entry).state := by
  rw [process_eq]
  split
  · exact h
  · exact h.congr rfl
  · exact (h.counted _).evaluateNode _ entry

/-- Passing a change on leaves all of this as it is. -/
theorem core_propagate (e : Engine) (entry : QueueEntry) :
    (e.propagate entry).state.core = e.core := by
  obtain ⟨e', r, heq, hq⟩ := propagate_reply e entry
  rw [heq]
  exact core_queued (e := { e with announcing := e.announcing.tail }) hq

/-! ## Cycles -/

theorem queued_foldl_enqueue (ids : List String) (priority : Priority) (source : Option String)
    (e : Engine) :
    ∃ passes, Queued { e with passes } (ids.foldl
      (fun e id => { e with passes := e.passes.filter (·.1 != id) }.enqueue id priority source)
      e) := by
  induction ids generalizing e with
  | nil => exact ⟨e.passes, .refl e⟩
  | cons id ids ih =>
    rw [List.foldl_cons]
    obtain ⟨passes, hq⟩ := ih
      ({ e with passes := e.passes.filter (·.1 != id) }.enqueue id priority source)
    refine ⟨passes, .trans ?_ hq⟩
    exact ⟨⟨_, _, rfl⟩, UpdateQueue.enqueue_maxQueue, UpdateQueue.nodup_enqueue⟩

/-- Scheduling changes the scope, the passes and the queue. -/
theorem queued_schedule (e : Engine) (ids : List String) (priority : Priority)
    (source scope : Option String) :
    ∃ scope' passes, Queued { e with scope := scope', passes }
      (e.schedule ids priority source scope) := by
  unfold schedule
  obtain ⟨passes, hq⟩ := queued_foldl_enqueue ids priority source { e with
    scope := if e.phase = .evaluating then (if e.scope = scope then scope else none) else scope }
  exact ⟨_, passes, hq⟩

theorem core_schedule (e : Engine) (ids : List String) (priority : Priority)
    (source scope : Option String) : (e.schedule ids priority source scope).core = e.core := by
  obtain ⟨scope', passes, hq⟩ := queued_schedule e ids priority source scope
  exact core_queued (e := { e with scope := scope', passes }) hq

theorem Coherent.schedule (h : Coherent settings mode e) (ids : List String)
    (priority : Priority) (source scope : Option String) :
    Coherent settings mode (e.schedule ids priority source scope) :=
  h.congr (core_schedule e ids priority source scope)

/-! ## Moves -/

theorem core_ofScheduler {m : Scheduler.Move EngineError}
    (hm : m.state.parameters = e.scheduler.parameters) : (e.ofScheduler m).state.core = e.core := by
  rw [Engine.ofScheduler, Move.state_embed]
  simp only [Scheduler.parameters, Prod.mk.injEq] at hm
  simp only [core, hm]

theorem core_ofDebouncer (e : Engine) (m : Debouncer.Move Trigger Trigger EngineError) :
    (e.ofDebouncer m).state.core = e.core := by
  rw [Engine.ofDebouncer, Move.state_embed]
  rfl

theorem core_drain (e : Engine) : e.drain.state.core = e.core := by
  unfold Engine.drain
  dsimp only
  split
  · exact core_ofScheduler (e.scheduler.parameters_drain true)
  · exact core_ofScheduler (e := { e with phase := .evaluating })
      (e.scheduler.parameters_drain true)

theorem Sound.schedule_drain (h : Sound settings mode e) (ids : List String)
    (priority : Priority) (source scope : Option String) :
    Sound settings mode (e.schedule ids priority source scope).drain.state :=
  h.congr ((core_drain _).trans (core_schedule e ids priority source scope))

/-- When fields came or went, reading the form breaks off, or everything is scheduled. -/
theorem handleLayout_cases (e : Engine) :
    e.handleLayout = .fail e.rescan.1 .tooManyDigits ∨
      e.handleLayout = (e.rescan.1.schedule e.rescan.1.links.order .low none none).drain := by
  unfold handleLayout
  rcases rescan_cases e with ⟨-, rows, diff, -, h⟩ | ⟨-, h⟩
  · rw [h]
    exact Or.inr rfl
  · rw [h]
    exact Or.inl rfl

/-- A change is not handled because the form cannot be read, or some outputs are scheduled. -/
theorem handle_cases (e : Engine) (t : Trigger) :
    e.handle t = .fail e.rescan.1 .tooManyDigits ∨
      ∃ e₁ ids priority source, (e₁ = e ∨ e₁ = e.rescan.1) ∧
        e.handle t = (e₁.schedule ids priority source none).drain := by
  cases t with
  | input name => exact Or.inr ⟨e, _, _, _, Or.inl rfl, rfl⟩
  | layout => exact (handleLayout_cases e).imp id fun heq => ⟨_, _, _, _, Or.inr rfl, heq⟩

/-- In a recompute reading the form breaks off, or an id in order has no node, or some outputs are
scheduled. -/
theorem recompute_cases (e : Engine) (scope : Option String) :
    (∃ err, e.recompute scope = .fail e.rescan.1 err) ∨
      ∃ ids, e.recompute scope = (e.rescan.1.schedule ids .normal none scope).drain := by
  unfold Engine.recompute
  rcases rescan_cases e with ⟨-, rows, diff, -, h⟩ | ⟨-, h⟩
  · rw [h]
    dsimp only
    split
    · exact Or.inl ⟨_, rfl⟩
    · exact Or.inr ⟨_, rfl⟩
  · rw [h]
    exact Or.inl ⟨_, rfl⟩

theorem Sound.handle (h : Sound settings mode e) (t : Trigger) :
    Sound settings mode (e.handle t).state := by
  rcases handle_cases e t with heq | ⟨e₁, ids, priority, source, rfl | rfl, heq⟩
  · exact heq ▸ h.rescan
  · exact heq ▸ h.schedule_drain _ _ _ _
  · exact heq ▸ h.rescan.schedule_drain _ _ _ _

theorem Sound.recompute (h : Sound settings mode e) (scope : Option String) :
    Sound settings mode (e.recompute scope).state := by
  rcases recompute_cases e scope with ⟨err, heq⟩ | ⟨ids, heq⟩
  · exact heq ▸ h.rescan
  · exact heq ▸ h.rescan.schedule_drain _ _ _ _

theorem state_tellWatchers (e : Engine) (id : String) (old new : Value) (ws : List Nat) :
    (e.tellWatchers id old new ws).state = e := by
  cases ws <;> rfl

theorem state_tellListeners (e : Engine) (changed : List String) (ls : List Nat) :
    (e.tellListeners changed ls).state = e := by
  cases ls <;> rfl

theorem core_complete (e : Engine) : e.complete.state.core = e.core := by
  unfold Engine.complete
  dsimp only
  split
  · rfl
  · rw [state_tellListeners]
    rfl

/-- A frame that goes on keeps the parts sound. -/
theorem Sound.resume (h : Sound settings mode e) (f : Frame) :
    Sound settings mode (e.resume f).state := by
  cases f with
  | queue f => exact h.congr (core_ofScheduler (e.scheduler.parameters_resume f))
  | clock f => exact h.congr (core_ofDebouncer e _)
  | handle t => exact h.handle t
  | process entry => exact h.process entry
  | batchDone => exact h
  | watchers id old new rest => exact (state_tellWatchers e id old new rest).symm ▸ h
  | propagate entry => exact h.congr (core_propagate e entry)
  | complete => exact h.congr (core_complete e)
  | listeners changed rest => exact (state_tellListeners e changed rest).symm ▸ h

/-- A failure that passes through a frame leaves all of this as it is. -/
theorem core_recover (e : Engine) (f : Frame) (err : EngineError) :
    (e.recover f err).state.core = e.core := by
  cases f with
  | queue f =>
    have hm := e.scheduler.parameters_unwind f
    simp only [Scheduler.parameters, Prod.mk.injEq] at hm
    simp only [core, Engine.recover, Move.fail, Move.state, hm]
  | watchers id old new rest =>
    rw [Engine.recover, state_tellWatchers]
    rfl
  | listeners changed rest =>
    rw [Engine.recover, state_tellListeners]
    rfl
  | clock _ | handle _ | process _ | batchDone | propagate _ | complete => rfl

/-! ## Operations -/

theorem Sound.withTree (h : Sound settings mode e) {tree : FormTree} (ht : tree.Proper) :
    Sound settings mode { e with tree } :=
  { h with tree := ht }

theorem Coherent.withTree (h : Coherent settings mode e) {tree : FormTree} (ht : tree.Proper) :
    Coherent settings mode { e with tree } :=
  ⟨h.toSound.withTree ht, h.toLinked.congr rfl rfl⟩

theorem Sound.settle (h : Sound settings mode e) (t : Trigger) (delay : Binary64) :
    Sound settings mode (e.settle t delay).state := by
  unfold Engine.settle
  split
  · exact h.congr rfl
  · exact h.handle t

/-- The engine when a field is bound to its variable, unless one is already. -/
def bound (e : Engine) (name : String) : Engine := (e.bind name).1

/-- Binding a field touches the bindings and the rows only, and the rows are read again or stay. -/
theorem bound_cases (e : Engine) (name : String) :
    e.bound name = e ∨ (∃ rows,
      rowIndices ((e.bindings ++ [(variableName name, name)]).map Prod.snd) = .ok rows ∧
      e.bound name = { e with bindings := e.bindings ++ [(variableName name, name)], rows }) ∨
    e.bound name = { e with bindings := e.bindings ++ [(variableName name, name)] } := by
  unfold bound Engine.bind
  dsimp only
  split
  · exact Or.inl rfl
  · split
    · exact Or.inr (Or.inr rfl)
    · next rows hrows => exact Or.inr (Or.inl ⟨rows, hrows, rfl⟩)

/-- The engine when an output was edited by hand. -/
def edited (e : Engine) (name : String) (user : Bool) : Engine :=
  if user && e.registry.contains (variableName name) then
    { e with lastEdit := (variableName name, e.now) ::
        e.lastEdit.filter (·.1 != variableName name) }
  else e

/-- A changed field is bound and then handled, unless the rows cannot be read any more. -/
theorem notifyInput_eq (hw : e.writing = false) (name : String) (user : Bool) :
    e.notifyInput name user =
      match (e.bind name).2 with
      | .error err => .fail (e.bound name) err
      | .ok () => ((e.bound name).edited name user).settle (.input (variableName name))
        (if user then e.settings.immediateDelay else e.settings.settleDelay) := by
  have hsettings : (e.bound name).settings = e.settings := by
    rcases bound_cases e name with h | ⟨rows, -, h⟩ | h <;> rw [h]
  unfold notifyInput
  rw [if_neg (by simp [hw]), ← hsettings]
  unfold bound edited
  rcases e.bind name with ⟨e', err | _⟩
  · rfl
  · dsimp only
    split
    · rfl
    · rfl

theorem Sound.bound (h : Sound settings mode e) (name : String) :
    Sound settings mode (e.bound name) := by
  have hbindings : ∀ p ∈ e.bindings ++ [(variableName name, name)], variableName p.2 = p.1 := by
    intro p hp
    rcases List.mem_append.mp hp with hp | hp
    · exact h.bindings p hp
    · rw [List.mem_singleton.mp hp]
  rcases bound_cases e name with heq | ⟨rows, hrows, heq⟩ | heq
  · exact heq.symm ▸ h
  · rw [heq]
    exact { h with bindings := hbindings, rows := rowIndices_nonneg hrows }
  · rw [heq]
    exact { h with bindings := hbindings }

theorem core_edited (e : Engine) (name : String) (user : Bool) :
    (e.edited name user).core = e.core := by
  unfold Engine.edited
  split
  · rfl
  · rfl

theorem Linked.bound (h : e.Linked) (name : String) : (e.bound name).Linked := by
  rcases bound_cases e name with heq | ⟨rows, -, heq⟩ | heq <;>
    exact h.congr (by rw [heq]) (by rw [heq])

theorem Linked.edited (h : e.Linked) (name : String) (user : Bool) :
    (e.edited name user).Linked := by
  unfold Engine.edited
  split
  · exact h.congr rfl rfl
  · exact h

theorem Coherent.edited (h : Coherent settings mode e) (name : String) (user : Bool) :
    Coherent settings mode (e.edited name user) := h.congr (core_edited e name user)

theorem Sound.notifyInput (h : Sound settings mode e) (name : String) (user : Bool) :
    Sound settings mode (e.notifyInput name user).state := by
  rw [notifyInput_eq h.writing]
  split
  · exact h.bound name
  · exact ((h.bound name).congr (core_edited _ name user)).settle _ _

theorem Sound.changeTree (h : Sound settings mode e) {change : Except TreeError FormTree}
    (hc : ∀ tree, change = .ok tree → tree.Proper) (event : TreeEvent) (notify : Bool) :
    Sound settings mode (e.changeTree change event notify).state := by
  unfold Engine.changeTree
  split
  · exact h
  · next tree =>
    have h' := h.withTree (hc tree rfl)
    dsimp only
    split
    · unfold Engine.deliver
      split
      · split
        · exact h'.notifyInput _ _
        · exact h'.settle _ _
      · exact h'
    · exact h'

theorem core_pump {m : Scheduler.Move EngineError}
    (hm : m.state.parameters = e.scheduler.parameters) : (e.pump m).state.core = e.core := by
  unfold Engine.pump
  split
  · exact core_ofScheduler hm
  · rfl

/-- Reading the form is over at once. -/
theorem reply_rescan (e : Engine) : ∃ r, e.perform .rescan = .reply e.rescan.1 r := by
  unfold Engine.perform
  dsimp only
  split
  · next heq => exact ⟨_, congrArg (Move.fail · _) (congrArg Prod.fst heq).symm⟩
  · next heq => exact ⟨_, congrArg (Move.ret · _) (congrArg Prod.fst heq).symm⟩

theorem reply_attach (e : Engine) :
    ∃ r, e.perform (.attach false) = .reply ({ e with attached := true } : Engine).rescan.1 r := by
  unfold Engine.perform
  dsimp only
  rw [if_neg Bool.false_ne_true]
  split
  · next heq => exact ⟨_, congrArg (Move.fail · _) (congrArg Prod.fst heq).symm⟩
  · next heq => exact ⟨_, congrArg (Move.ret · _) (congrArg Prod.fst heq).symm⟩

/-- An operation that begins keeps the parts sound. -/
theorem Sound.perform (h : Sound settings mode e) (op : Operation) :
    Sound settings mode (e.perform op).state := by
  cases op with
  | attach compute =>
    have h' : Sound settings mode { e with attached := true } := h.congr rfl
    cases compute with
    | true => exact h'.recompute none
    | false =>
      obtain ⟨r, heq⟩ := reply_attach e
      exact heq ▸ h'.rescan
  | detach => exact h.congr rfl
  | recompute scope => exact h.recompute scope
  | rescan =>
    obtain ⟨r, heq⟩ := reply_rescan e
    exact heq ▸ h.rescan
  | notifyInput name user => exact h.notifyInput name user
  | notifyLayout => exact h.settle _ _
  | flush =>
    unfold Engine.perform
    dsimp only
    split
    · exact h.congr (core_ofDebouncer e _)
    · exact h
  | advance seconds => exact h.congr (core_ofDebouncer e _)
  | runTimers => exact h.congr (core_ofDebouncer e _)
  | runNext =>
    exact h.congr (core_pump
      (e.scheduler.parameters_ofYield (YieldPoint.mode_runNextThen _ _ rfl)))
  | runAll => exact h.congr (core_pump (e.scheduler.parameters_ofYield rfl))
  | addField name value scope notify => exact h.changeTree (fun _ ht => h.tree.addField ht) _ _
  | addOutput spec value notify => exact h.changeTree (fun _ ht => h.tree.addOutput ht) _ _
  | removeField name notify => exact h.changeTree (fun _ ht => h.tree.remove ht) _ _
  | setValue name value user => exact h.changeTree (fun _ ht => h.tree.setValue ht) _ _
  | focus name => exact h.withTree ⟨h.tree.names, h.tree.specs⟩
  | write name text =>
    exact h.changeTree (fun _ ht => Except.ok.inj ht ▸ h.tree.write name text) _ _

/-- A new engine on a form has its data together. -/
theorem coherent_create {tree : FormTree} (ht : tree.Proper) (settings : Settings)
    (mode : YieldMode) (debounces : Bool) :
    Coherent settings mode (.create tree settings mode debounces) where
  ofSettings := rfl
  ofMode := rfl
  batchSize := rfl
  maxQueue := rfl
  tolerances := rfl
  historySize := rfl
  evaluator := fun _ _ ht => absurd ht List.not_mem_nil
  locale := rfl
  precision := rfl
  writing := rfl
  tree := ht
  nodes := fun _ hn => absurd hn List.not_mem_nil
  ids := List.nodup_nil
  links := rfl
  linked := fun _ hn => absurd hn List.not_mem_nil
  bindings := fun _ hp => absurd hp List.not_mem_nil
  rows := fun _ hi => absurd hi List.not_mem_nil

end Engine

end LiveForm
