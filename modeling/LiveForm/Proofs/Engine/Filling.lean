import LiveForm.Proofs.Engine.Pumping
import LiveForm.Proofs.Engine.Sweep
import LiveForm.Proofs.Engine.Unmoved

/-!
# The first computation

An engine that is attached for the first time computes each output once, at once or batch by batch.
It stores the value, and writes its text unless the field shows it already; nothing else changes.
-/

namespace LiveForm.Engine

open Machine (after Runs Visits)

variable {settings : Settings} {mode : YieldMode} {e e₀ e' : Engine} {done : List String}
  {id : String} {entry : QueueEntry} {n : OutputNode}
  {answer : Engine → Ask → Reply Response EngineError}

/-! ## Nodes that are computed for the first time -/

/-- The nodes have computed nothing, and their fields are there. -/
def Unused (e : Engine) : Prop :=
  ∀ n ∈ e.registry.nodes, n.evaluated = false ∧ n.lastWritten = none ∧
    (e.tree.find? n.field).isSome = true

/-- What was written for the node of an id, and where. -/
def written (e : Engine) (id : String) : Option (String × String) :=
  (e.registry.find? id).bind fun n => n.lastWritten.map fun text => (n.field, text)

/-- The node of an id was computed: the value is stored, and its text is in the field. -/
def Filled (e₀ e : Engine) (id : String) : Prop :=
  ∃ n v, e₀.registry.find? id = some n ∧
    e.registry.find? id = some (n.store v (e₀.toWrite n v)) ∧ e.computed n = .ok v ∧
    e.tree.read n.field = (e₀.toWrite n v).or (e₀.tree.read n.field)

/-- The nodes that are done were computed, and nothing else has changed. -/
structure Filling (e₀ : Engine) (done : List String) (e : Engine) : Prop where
  filled : ∀ id ∈ done, Filled e₀ e id
  others : ∀ field, (∀ id ∈ done, ∀ n, e₀.registry.find? id = some n → n.field ≠ field) →
    e.tree.read field = e₀.tree.read field
  writes : e.tree.writes = e₀.tree.writes ++ done.filterMap e.written

/-- It matters only what the node is computed from and what its field shows. -/
theorem Filled.congr (h : Filled e₀ e id) (hc : Sound settings mode e)
    (hc' : Sound settings mode e') (hfound : e'.registry.find? id = e.registry.find? id)
    (hrows : e'.rows = e.rows)
    (h' : ∀ n, e.registry.find? id = some n → e'.tree.read n.field = e.tree.read n.field ∧
      ∀ name, n.Uses name → e'.resolve name = e.resolve name) : Filled e₀ e' id := by
  obtain ⟨n, v, hn, hstored, hcomputed, hread⟩ := h
  obtain ⟨hsame, hresolve⟩ := h' _ hstored
  have hproper := hc.nodes _ (Registry.mem_of_find? hstored).1
  refine ⟨n, v, hn, hfound.trans hstored, ?_, hsame.trans hread⟩
  show e'.computed (n.store v (e₀.toWrite n v)) = .ok v
  rw [computed_congr hc hc' hproper hrows hresolve]
  exact hcomputed

/-- What is written depends on the node and on what its field shows. -/
theorem toWrite_congr (hlocale : e'.locale = e.locale)
    (hread : e'.tree.read n.field = e.tree.read n.field) (v : Value) :
    e'.toWrite n v = e.toWrite n v := by
  unfold toWrite
  rw [hlocale, hread]

/-- The text of a field after a value was stored for its node. -/
theorem read_withValue (h : (e.tree.find? n.field).isSome = true) (v : Value) :
    (e.withValue n v).tree.read n.field = (e.toWrite n v).or (e.tree.read n.field) := by
  unfold withValue
  cases e.toWrite n v with
  | none => rfl
  | some text => exact FormTree.read_write_self h

/-- What was written when a value was stored. -/
theorem writes_withValue (h : (e.tree.find? n.field).isSome = true) (v : Value) :
    (e.withValue n v).tree.writes =
      e.tree.writes ++ ((e.toWrite n v).map fun text => (n.field, text)).toList := by
  unfold withValue
  cases e.toWrite n v with
  | none => exact (List.append_nil _).symm
  | some text =>
    show (e.tree.write n.field text).writes = _
    rw [FormTree.write, if_neg (by rw [← Option.not_isSome, h]; exact Bool.false_ne_true)]
    rfl

theorem written_congr (h : ∀ id ∈ done, e'.registry.find? id = e.registry.find? id) :
    done.filterMap e'.written = done.filterMap e.written :=
  List.filterMap_congr fun id hid => by rw [written, h id hid, written]

namespace Turn

/-- A node that has computed nothing takes its first value in its turn. -/
theorem stores (h : Turn settings e₀ done e entry n) (hu : Updated e entry e')
    (hfresh : n.evaluated = false) : ∃ v, e'.belongings = (e.withValue n v).belongings := by
  obtain ⟨v, -, ⟨hout, -⟩ | ⟨-, hbelongings⟩⟩ := hu.belongings h.fate
  · rw [accepts_of_first h.first, hfresh] at hout
    cases hout
  · exact ⟨v, hbelongings⟩

/-- No node that is done has the field of the node whose turn it is. -/
theorem field_ne (h : Turn settings e₀ done e entry n) (hid : id ∈ done) {m : OutputNode}
    (hm : e₀.registry.find? id = some m) : m.field ≠ n.field := by
  obtain ⟨m', hm', hd⟩ := exists_of_layout h.layout hm
  obtain ⟨hmem', hmid'⟩ := Registry.mem_of_find? hm'
  have hfield : m'.field = m.field := (congrArg OutputNode.field hd :)
  intro heq
  refine (h.unread id hid).1 ?_
  rw [← hmid', (h.coherent.nodes m' hmem').id_eq, hfield, heq, (h.coherent.nodes n h.mem.1).id_eq]

/-- What is computed for a node after its first turn is what was stored. -/
theorem computed_of_stored (h : Turn settings e₀ done e entry n)
    (ha : e.registry.dependencies.Acyclic) (hcandid : e.registry.Candid) (hu : Updated e entry e')
    (hfresh : n.evaluated = false) {v : Value} {text : Option String}
    (hstored : e'.registry.find? n.id = some (n.store v text)) : e'.computed n = .ok v := by
  obtain ⟨m, w, hm, hw, -, hvalue⟩ :=
    hu.recomputed h.coherent h.fate (not_uses_self ha hcandid h.mem.1)
  rw [hstored] at hm
  cases hm
  rcases hvalue with rfl | ⟨hsame, -⟩
  · exact hw
  · have hevaluated := congrArg OutputNode.evaluated hsame
    rw [hfresh] at hevaluated
    cases hevaluated

/-- The node is computed in its turn, and nothing else changes. -/
theorem filling (h : Turn settings e₀ done e entry n) (ha : e.registry.dependencies.Acyclic)
    (hcandid : e.registry.Candid) (hnew : Unused e₀) (hu : Updated e entry e')
    (hf : Filling e₀ done e) : Filling e₀ (done ++ [n.id]) e' := by
  have hmem := h.mem.1
  obtain ⟨hfresh, hunwritten, hfield⟩ := hnew n (Registry.mem_of_find? h.untouched).1
  obtain ⟨v, hbelongings⟩ := h.stores hu hfresh
  have htree : e'.tree = (e.withValue n v).tree := congrArg (·.2.1) hbelongings
  have hread : e.tree.read n.field = e₀.tree.read n.field :=
    hf.others n.field fun id hid m hm => h.field_ne hid hm
  have hwrite : e.toWrite n v = e₀.toWrite n v :=
    toWrite_congr (congrArg (·.settings.locale) h.layout) hread v
  have hthere : (e.tree.find? n.field).isSome = true := by
    rw [← Option.isSome_map (f := Field.text)]
    show (e.tree.read n.field).isSome = true
    rw [hread, FormTree.read, Option.isSome_map]
    exact hfield
  have hstored : e'.registry.find? n.id = some (n.store v (e₀.toWrite n v)) := by
    rw [find?_of_holdings (holdings_of_belongings hbelongings), ← hwrite]
    exact find?_withValue_self (Registry.find?_of_mem h.coherent.ids hmem) v
  have hother : ∀ field, field ≠ n.field → e'.tree.read field = e.tree.read field := by
    intro field hne
    rw [htree]
    exact read_withValue_of_ne hne v
  have hfind : ∀ id ∈ done, e'.registry.find? id = e.registry.find? id :=
    fun id hid => hu.find? (h.mem.2 ▸ (h.unread id hid).1)
  refine ⟨fun id hid => ?_, fun field hnone => ?_, ?_⟩
  · rcases List.mem_append.mp hid with hid | hid
    · refine (hf.filled id hid).congr h.coherent.toSound (h.coherent.updated hu).toSound
        (hfind id hid) (congrArg Layout.rows hu.layout) fun m hm => ⟨hother m.field ?_, ?_⟩
      · obtain ⟨m₀, hm₀, hd⟩ := exists_of_layout h.layout.symm hm
        have hsame : m₀.field = m.field := (congrArg OutputNode.field hd :)
        exact hsame ▸ h.field_ne hid hm₀
      · exact fun name hname => h.resolve hcandid hu hid hm hname
    · rw [List.mem_singleton.mp hid]
      refine ⟨n, v, h.untouched, hstored, h.computed_of_stored ha hcandid hu hfresh hstored, ?_⟩
      rw [htree, read_withValue hthere, hwrite, hread]
  · have hne : field ≠ n.field := fun he =>
      hnone n.id (List.mem_append_right _ List.mem_cons_self) n h.untouched he.symm
    rw [hother field hne]
    exact hf.others field fun id hid => hnone id (List.mem_append_left _ hid)
  · have hself : e'.written n.id = (e₀.toWrite n v).map fun text => (n.field, text) := by
      rw [written, hstored]
      show ((e₀.toWrite n v).or n.lastWritten).map _ = _
      rw [hunwritten, Option.or_none]
      rfl
    rw [htree, writes_withValue hthere, hwrite, hf.writes, List.append_assoc, List.filterMap_append,
      written_congr hfind, List.filterMap_cons, List.filterMap_nil, hself]
    cases e₀.toWrite n v <;> rfl

end Turn

/-- In a sweep over nodes that are computed for the first time just those that are done have values
and were written. -/
theorem carries_filling (ho : Orderly settings e₀) (hn : e₀.registry.Candid) (hnew : Unused e₀)
    (hskips : ∀ id, e₀.skips id = false) : Carries settings e₀ (Filling e₀) where
  congr {done e e'} hc hc' hbelongings h := by
    have hholdings := holdings_of_belongings hbelongings
    have hread := read_of_holdings hholdings
    have hfind := find?_of_holdings hholdings
    have hwritten : e'.written = e.written := by
      funext id
      rw [written, hfind, written]
    have hrows : e'.rows = e.rows := congrArg (·.2.2.2.2.1) hbelongings
    have htree : e'.tree = e.tree := congrArg (·.2.1) hbelongings
    refine ⟨fun id hid => ?_, ?_, ?_⟩
    · exact (h.filled id hid).congr hc.toSound hc'.toSound (hfind id) hrows fun n _ =>
        ⟨congrFun hread n.field, fun name _ => congrFun (resolve_of_holdings hholdings) name⟩
    · rw [htree]
      exact h.others
    · rw [htree, hwritten]
      exact h.writes
  skip hskip := by
    rw [hskips] at hskip
    cases hskip
  turn hturn hu h :=
    hturn.filling (ho.congr hturn.layout).acyclic (candid_of_layout hturn.layout hn) hnew hu h

/-! ## An engine that is new -/

/-- The nodes that are read first are as they are declared. -/
theorem fresh_of_rescan (hnone : e.registry.nodes = []) (hp : e.tree.Proper)
    (hd : e.tree.Distinct) (hn : n ∈ e.rescan.1.registry.nodes) :
    ∃ spec ∈ e.tree.outputSpecs none, ∃ serial linked,
      n = { OutputNode.ofSpec spec with serial, linked } := by
  obtain ⟨m, spec, hspec, hderives, linked, rfl⟩ := derived_rescan hp hd hn
  cases hderives with
  | fresh unknown serial => exact ⟨spec, hspec, serial, linked, rfl⟩
  | redeclared m known =>
    have hmem := (Registry.mem_of_find? known).1
    rw [hnone] at hmem
    cases hmem

/-- Nothing is left alone that is not focused. -/
theorem skips_rescan (hnone : e.registry.nodes = []) (hedit : e.lastEdit = []) (hp : e.tree.Proper)
    (hd : e.tree.Distinct)
    (hfree : ∀ spec ∈ e.tree.outputSpecs none, spec.skipWhileEditing = true →
      e.tree.focused ≠ some spec.id) (id : String) : e.rescan.1.skips id = false := by
  rw [← Bool.not_eq_true]
  intro hskips
  obtain ⟨n, hn, hskip⟩ := Option.any_eq_true _ _ |>.mp hskips
  obtain ⟨spec, hspec, serial, linked, rfl⟩ :=
    fresh_of_rescan hnone hp hd (Registry.mem_of_find? hn).1
  have hedits : e.rescan.1.lastEdit = [] := by
    rw [lastEdit_rescan]
    show e.lastEdit.filter _ = []
    rw [hedit]
    rfl
  unfold shouldSkip at hskip
  rw [hedits, tree_rescan, Bool.and_eq_true, List.lookup_nil, Option.any_none,
    Bool.or_false] at hskip
  exact hfree spec hspec hskip.1 (beq_iff_eq.mp hskip.2)

theorem unused_rescan (hnone : e.registry.nodes = []) (hp : e.tree.Proper) (hd : e.tree.Distinct) :
    Unused e.rescan.1 := by
  intro n hn
  obtain ⟨spec, hspec, serial, linked, rfl⟩ := fresh_of_rescan hnone hp hd hn
  obtain ⟨f, hf, -⟩ := (FormTree.mem_outputSpecs hp).mp hspec
  refine ⟨rfl, rfl, ?_⟩
  rw [tree_rescan]
  show (e.tree.find? spec.id).isSome = true
  rw [hf]
  rfl

/-- A form that can be computed in one sweep: its outputs can be computed one after another, none of
them is left alone, and no two fields have one variable. -/
structure Sweepable (settings : Settings) (e : Engine) : Prop where
  names : ((e.tree.fields.map (·.1)).map variableName).Nodup
  free : ∀ spec ∈ e.tree.outputSpecs none, spec.skipWhileEditing = true →
    e.tree.focused ≠ some spec.id
  orderly : Orderly settings e.rescan.1
  candid : e.rescan.1.registry.Candid

/-- An engine that has not read its form. -/
structure Unread (settings : Settings) (mode : YieldMode) (e : Engine) : Prop where
  coherent : Coherent settings mode e
  quiet : e.Quiet
  idle : e.phase ≠ .evaluating
  nodes : e.registry.nodes = []
  edits : e.lastEdit = []
  unchanged : e.changed = []

/-- A new engine with some listeners. -/
def heard (t : FormTree) (settings : Settings) (mode : YieldMode) (debounces : Bool)
    (listeners : List Nat) : Engine :=
  { Engine.create t settings mode debounces with listeners }

theorem unread_heard {t : FormTree} (ht : t.Proper) (settings : Settings) (mode : YieldMode)
    (debounces : Bool) (listeners : List Nat) :
    Unread settings mode (heard t settings mode debounces listeners) where
  coherent := (coherent_create ht settings mode debounces).congr rfl
  quiet := ⟨rfl, rfl, rfl, rfl, rfl, rfl⟩
  idle := show Phase.idle ≠ .evaluating by decide
  nodes := rfl
  edits := rfl
  unchanged := rfl

/-- The engine when it listens to its form and has read it. -/
def opened (e : Engine) : Engine := ({ e with attached := true } : Engine).rescan.1

theorem registry_opened (e : Engine) : e.opened.registry = e.rescan.1.registry := by
  rw [opened, rescan_attached]

/-- An engine that has computed each of its nodes once. -/
structure Full (settings : Settings) (e₀ e : Engine) : Prop where
  coherent : Coherent settings .immediate e
  layout : e.layout = { e₀ with scope := none }.layout
  filling : Filling e₀ e₀.links.order e

namespace Unread

theorem attached (h : Unread settings mode e) : Sound settings mode { e with attached := true } :=
  h.coherent.toSound.congr rfl

theorem sound_opened (h : Unread settings mode e) : Sound settings mode e.opened :=
  h.attached.rescan

theorem opened (h : Unread settings mode e) (hr : e.Readable) :
    Coherent settings mode e.opened ∧ e.opened.Quiet ∧ e.opened.phase ≠ .evaluating :=
  ⟨h.attached.coherent_rescan hr, h.quiet.congr (progress_rescan { e with attached := true }),
    phase_rescan { e with attached := true } ▸ h.idle⟩

/-- To attach the engine is to schedule all its nodes. -/
theorem perform_attach (h : Unread settings mode e) (hr : e.Readable) :
    e.perform (.attach true) =
      (e.opened.schedule e.opened.links.order .normal none none).drain := by
  rw [Engine.perform_attach, recompute_eq h.attached hr]
  exact congrArg (fun ids => (e.opened.schedule ids .normal none none).drain)
    (inOrder_none (h.opened hr).1)

/-- What the engine has read can be computed in one sweep. -/
theorem orderly (h : Unread settings mode e) (hf : Sweepable settings e) :
    Orderly settings e.opened ∧ e.opened.registry.Candid ∧ Unused e.opened ∧
      ∀ id, e.opened.skips id = false := by
  have hdistinct := distinct_of_names h.coherent.tree hf.names
  have hregistry := registry_opened e
  exact ⟨⟨hregistry ▸ hf.orderly.acyclic, hregistry ▸ hf.orderly.room⟩, hregistry ▸ hf.candid,
    unused_rescan (e := { e with attached := true }) h.nodes h.coherent.tree hdistinct,
    skips_rescan (e := { e with attached := true }) h.nodes h.edits h.coherent.tree hdistinct
      hf.free⟩

end Unread

/-- A sweep over nodes that have computed nothing computes each of them once. -/
theorem full_of_sweep {e₁ e₂ : Engine} {us : List Update} (hs : settings.InRange)
    (ho : Orderly settings e₀) (hn : e₀.registry.Candid) (hnew : Unused e₀)
    (hskips : ∀ id, e₀.skips id = false)
    (h : Sweeping settings { e₀ with scope := none } [] e₀.links.order e₁)
    (hbelongings : e₁.belongings = e₀.belongings) (hd : Drains e₁ us e₂) :
    Full settings e₀ e₂ := by
  have ho₀ : Orderly settings { e₀ with scope := none } := ⟨ho.acyclic, ho.room⟩
  have htree : e₁.tree = e₀.tree := congrArg (·.2.1) hbelongings
  have hstart : Filling { e₀ with scope := none } [] e₁ := by
    refine ⟨fun id hid => absurd hid List.not_mem_nil, fun _ _ => ?_, ?_⟩
    · rw [htree]
    · rw [htree]
      exact (List.append_nil _).symm
  obtain ⟨-, hswept, hfilling⟩ := hd.sweep ho₀ hs (carries_filling ho₀ hn hnew hskips) h hstart
  exact ⟨hswept.underway.coherent, hswept.layout, hfilling.filled, hfilling.others, hfilling.writes⟩

namespace Unread

/-- At an immediate yield point the engine computes each of its nodes once while it is attached. -/
theorem runs_attach (h : Unread settings .immediate e) (hs : settings.InRange)
    (hmost : settings.historySize ≤ ConvergenceDetector.maxHistory) (hf : Sweepable settings e)
    (hr : e.Readable) (calm : Calm answer (after [] (e.perform (.attach true)))) :
    ∃ us e' ns, Runs (among answer) updates (after [] (e.perform (.attach true))) us
        ⟨e'.finished ns, [], .returned default⟩ ∧ Full settings e.opened e' := by
  obtain ⟨hc, hq, hidle⟩ := h.opened hr
  obtain ⟨ho, hn, hnew, hskips⟩ := h.orderly hf
  rw [h.perform_attach hr] at calm ⊢
  generalize e.opened = e₀ at *
  obtain ⟨us, e', ns, hd, -, hruns⟩ := runs_cycle hs hmost hc hq calm
  exact ⟨us, e', ns, hruns, full_of_sweep hs ho hn hnew hskips (sweeping_schedule hc hq hidle ho)
    (belongings_schedule e₀ _ _ _ _) hd⟩

/-- At a manual one it does when the batches that wait are run by hand. -/
theorem runs_attach_by_hand (h : Unread settings .manual e) (hs : settings.InRange)
    (hmost : settings.historySize ≤ ConvergenceDetector.maxHistory) (hf : Sweepable settings e)
    (hr : e.Readable) (calm : Calm answer (after [] (e.perform (.attach true))))
    (calm' : ∀ e₁ r, Visits (among answer) (after [] (e.perform (.attach true))) ⟨e₁, [], r⟩ →
      Calm answer (after [] (e₁.perform .runAll))) :
    ∃ us vs e₁, ∃ e' : Engine, ∃ ns count,
      Runs (among answer) updates (after [] (e.perform (.attach true))) us
        ⟨e₁, [], .returned default⟩ ∧
      Runs (among answer) updates (after [] (e₁.perform .runAll)) vs
        ⟨e'.finished ns, [], .returned (.plain (.count count))⟩ ∧
      Full settings e.opened (e'.withYield spinning) := by
  obtain ⟨hc, hq, hidle⟩ := h.opened hr
  obtain ⟨ho, hn, hnew, hskips⟩ := h.orderly hf
  rw [h.perform_attach hr] at calm calm' ⊢
  generalize e.opened = e₀ at *
  obtain ⟨us, vs, ws, e₁, e', ns, count, hruns, hpump, hd⟩ := runs_by_hand hs hmost hc hq calm calm'
  have ho' : Orderly settings (e₀.withYield (resting .immediate)) := ⟨ho.acyclic, ho.room⟩
  have hsweeping := (sweeping_schedule (hc.withYield (resting .immediate))
    (hq.withYield .immediate) hidle ho').looped
  obtain ⟨hc', hlayout, hfilling⟩ := full_of_sweep hs ho' hn hnew hskips hsweeping
    (belongings_schedule (e₀.withYield (resting .immediate)) _ _ _ _) hd
  exact ⟨us, vs, e₁, e', ns, count, hruns, hpump, hc', hlayout, hfilling.filled, hfilling.others,
    hfilling.writes⟩

end Unread

/-! ## Whatever the yield point -/

/-- The engine is attached, and where batches wait then they are run by hand; this is how the
operations come back. -/
inductive Attaches (answer : Engine → Ask → Reply Response EngineError) (e : Engine) :
    Engine → List (Reply Response EngineError) → Prop where
  | atOnce {us : List Update} {e' : Engine} {r : Reply Response EngineError}
    (mode : e.scheduler.yieldPoint.mode = .immediate)
    (attach : Runs (among answer) updates (after [] (e.perform (.attach true))) us ⟨e', [], r⟩) :
    Attaches answer e e' [r]
  | byHand {us vs : List Update} {e₁ e' : Engine} {r r' : Reply Response EngineError}
    (mode : e.scheduler.yieldPoint.mode = .manual)
    (attach : Runs (among answer) updates (after [] (e.perform (.attach true))) us ⟨e₁, [], r⟩)
    (pump : Runs (among answer) updates (after [] (e₁.perform .runAll)) vs ⟨e', [], r'⟩) :
    Attaches answer e e' [r, r']

/-- No evaluation fails while the engine is attached, nor while batches are run by hand then. -/
structure AttachesCalmly (answer : Engine → Ask → Reply Response EngineError) (e : Engine) :
    Prop where
  attach : Calm answer (after [] (e.perform (.attach true)))
  pump : ∀ e₁ r, Visits (among answer) (after [] (e.perform (.attach true))) ⟨e₁, [], r⟩ →
    Calm answer (after [] (e₁.perform .runAll))

theorem attachesCalmly_of_endsSmoothly (steps steps' : Nat)
    (h : endsSmoothly answer steps (after [] (e.perform (.attach true))) = true)
    (h' : endsSmoothly answer steps' (after [] (((among answer).run steps
      (after [] (e.perform (.attach true)))).state.perform .runAll)) = true) :
    AttachesCalmly answer e := by
  refine ⟨calm_of_endsSmoothly h, fun e₁ r ⟨k, hk⟩ => ?_⟩
  have hend : Runs (among answer) updates (after [] (e.perform (.attach true))) _ _ := ⟨k, hk, rfl⟩
  obtain ⟨-, heq⟩ := hend.unique ⟨steps, rfl, rfl⟩ rfl (stack_of_endsSmoothly h)
  obtain rfl := congrArg Config.state heq
  exact calm_of_endsSmoothly h'

namespace Unread

/-- An engine that is attached for the first time comes to have computed each of its nodes once. -/
theorem attaches (h : Unread settings mode e) (hs : settings.InRange)
    (hmost : settings.historySize ≤ ConvergenceDetector.maxHistory) (hf : Sweepable settings e)
    (hr : e.Readable) (calm : AttachesCalmly answer e) :
    ∃ e' rs, Attaches answer e e' rs ∧ (∀ r ∈ rs, ∃ a, r = .returned a) ∧
      ∃ e₂, Full settings e.opened e₂ ∧ e'.belongings = e₂.belongings := by
  have hmode : e.scheduler.yieldPoint.mode = mode := h.coherent.ofMode
  cases mode with
  | immediate =>
    obtain ⟨us, e', ns, hruns, hfull⟩ := h.runs_attach hs hmost hf hr calm.attach
    refine ⟨_, _, .atOnce hmode hruns, fun r hr => ?_, e', hfull, rfl⟩
    exact ⟨_, List.mem_singleton.mp hr⟩
  | manual =>
    obtain ⟨us, vs, e₁, e', ns, count, hruns, hpump, hfull⟩ :=
      h.runs_attach_by_hand hs hmost hf hr calm.attach calm.pump
    refine ⟨_, _, .byHand hmode hruns hpump, fun r hr => ?_, _, hfull, rfl⟩
    rcases List.mem_cons.mp hr with rfl | hr
    · exact ⟨_, rfl⟩
    · exact ⟨_, List.mem_singleton.mp hr⟩

/-- Where the form cannot be read, nothing comes of it but what was read. -/
theorem attaches_broken (h : Unread settings mode e)
    (answer : Engine → Ask → Reply Response EngineError) (hn : ¬ e.Readable) :
    ∃ rs, Attaches answer e e.opened rs := by
  have hattach : Runs (among answer) updates (after [] (e.perform (.attach true))) []
      ⟨e.opened, [], .raised .tooManyDigits⟩ := by
    rw [perform_attach_of_not_readable hn]
    exact .refl _
  have hmode : e.scheduler.yieldPoint.mode = mode := h.coherent.ofMode
  cases mode with
  | immediate => exact ⟨_, .atOnce hmode hattach⟩
  | manual =>
    have hscheduler : e.opened.scheduler = e.scheduler := scheduler_rescan _
    have hresting : e.opened.scheduler.yieldPoint = resting .manual := by
      rw [hscheduler]
      exact h.quiet.yieldPoint h.coherent
    have hpump : Runs (among answer) updates (after [] (e.opened.perform .runAll)) []
        ⟨e.opened, [], .returned (.plain (.count 0))⟩ := by
      rw [perform_runAll (by rw [hresting]; rfl)]
      exact runs_pump_of_resting hresting 0
    exact ⟨_, .byHand hmode hattach hpump⟩

/-- Where no value can be remembered the engine leaves everything as it has read it. -/
theorem attaches_unmoved (h : Unread settings mode e) (hs : settings.InRange)
    (hmost : ¬ settings.historySize ≤ ConvergenceDetector.maxHistory) :
    ∃ e' rs, Attaches answer e e' rs ∧ e'.belongings = e.opened.belongings := by
  have hmode : e.scheduler.yieldPoint.mode = mode := h.coherent.ofMode
  have hopened := h.sound_opened
  have hnodup : e.scheduler.queue.nodes.Nodup := by
    show (e.scheduler.queue.entries.map (·.node)).Nodup
    rw [h.quiet.queue]
    exact List.nodup_nil
  have hfull : e.opened.Unmoved := by
    refine Or.inl ?_
    rw [ConvergenceDetector.canRemember, hopened.historySize]
    exact decide_eq_false fun hn => hmost (Int.toNat_le.mp hn)
  have hunchanged : e.opened.changed = [] := (changed_rescan _).trans h.unchanged
  have hsame : ∀ {c : Running}, Mute settings mode e.opened c →
      c.state.belongings = e.opened.belongings := by
    intro c hmute
    have hestate := hmute.estate
    simp only [estate, Prod.mk.injEq] at hestate
    obtain ⟨hsettings, htree, hregistry, hbindings, hrows, -, -, -, hlinks⟩ := hestate
    simp only [belongings, hsettings, htree, hregistry, hbindings, hrows, hlinks]
  have hmute : Mute settings mode e.opened (after [] (e.perform (.attach true))) :=
    mute_recompute h.attached hnodup none
  obtain ⟨us, e₁, r, hruns⟩ := hmute.ends answer hs hopened hfull hunchanged
  have hmute₁ := hmute.visits hs hopened hfull hunchanged hruns.visits
  cases mode with
  | immediate => exact ⟨e₁, _, .atOnce hmode hruns, hsame hmute₁⟩
  | manual =>
    have hpump : Mute settings .manual e.opened (after [] (e₁.perform .runAll)) := by
      rw [perform_runAll hmute₁.sound.ofMode]
      exact ⟨hmute₁.sound, hmute₁.nodup, hmute₁.estate, fun f hf => by
        rw [List.mem_singleton.mp hf]
        rfl⟩
    obtain ⟨vs, e₂, r', hruns'⟩ := hpump.ends answer hs hopened hfull hunchanged
    exact ⟨e₂, _, .byHand hmode hruns hruns',
      hsame (hpump.visits hs hopened hfull hunchanged hruns'.visits)⟩

/-- So an engine that can compute nothing is left as it has read its form. -/
theorem attaches_in_vain (h : Unread settings mode e) (hs : settings.InRange)
    (hvain : e.Readable → ¬ settings.historySize ≤ ConvergenceDetector.maxHistory) :
    ∃ e' rs, Attaches answer e e' rs ∧ e'.belongings = e.opened.belongings := by
  by_cases hr : e.Readable
  · exact h.attaches_unmoved hs (hvain hr)
  · obtain ⟨rs, hattaches⟩ := h.attaches_broken answer hr
    exact ⟨_, rs, hattaches, rfl⟩

end Unread

end LiveForm.Engine
