import LiveForm.Proofs.Engine.Showing
import LiveForm.Proofs.Engine.Unmoved
import LiveForm.Proofs.Form.Rereading

/-!
# A second recompute changes nothing

When the form was recomputed each output that is not skipped has the value that is computed for it,
within the tolerances, whether that was stored or one was kept that was close enough.  So nothing is
left to accept: a recompute that follows writes nothing and tells nobody.
-/

namespace LiveForm.Engine

open Machine (after Runs Visits)

variable {settings : Settings} {mode : YieldMode} {e e' e₀ : Engine}
  {answer : Engine → Ask → Reply Response EngineError}

/-! ## Reading the form again -/

/-- The nodes and the bindings of the engine are those of the form as it is. -/
structure Abreast (e : Engine) : Prop where
  nodes : List.Forall₂ OutputNode.Suits e.registry.nodes (e.tree.outputSpecs none)
  bindings : e.bindings = bindNodes (bindNames (e.tree.inputNames none)) e.registry.nodes

/-- Only the ids and the fields of nodes are bound. -/
theorem bindNodes_congr {nodes nodes' : List OutputNode}
    (h : nodes'.map (fun n => (n.id, n.field)) = nodes.map fun n => (n.id, n.field))
    (vs : List (String × String)) : bindNodes vs nodes' = bindNodes vs nodes := by
  have hfold : ∀ nodes : List OutputNode, bindNodes vs nodes =
      (nodes.map fun n => (n.id, n.field)).foldl
        (fun vs p => if vs.any (·.1 == p.1) then vs else vs ++ [p]) vs := by
    intro nodes
    rw [List.foldl_map]
    rfl
  rw [hfold, hfold, h]

theorem Abreast.congr (h : e.Abreast)
    (hnodes : e'.registry.nodes.map OutputNode.declared = e.registry.nodes.map OutputNode.declared)
    (hshape : e'.tree.shape = e.tree.shape) (hbindings : e'.bindings = e.bindings) :
    e'.Abreast := by
  have hdeclared : ∀ {nodes : List OutputNode} {specs : List OutputSpec},
      List.Forall₂ OutputNode.Suits (nodes.map OutputNode.declared) specs ↔
        List.Forall₂ OutputNode.Suits nodes specs := by
    intro nodes specs
    rw [List.forall₂_map_left_iff]
    have hsuits : ∀ {n : OutputNode} {spec : OutputSpec}, n.declared.Suits spec ↔ n.Suits spec :=
      ⟨fun h => ⟨h.id_eq, h.computation, h.attributes⟩,
        fun h => ⟨h.id_eq, h.computation, h.attributes⟩⟩
    exact ⟨fun h => h.imp fun _ _ => hsuits.mp, fun h => h.imp fun _ _ => hsuits.mpr⟩
  refine ⟨?_, ?_⟩
  · rw [FormTree.outputSpecs_of_shape hshape, ← hdeclared, hnodes, hdeclared]
    exact h.nodes
  · have hfields := congrArg (List.map fun n : OutputNode => (n.id, n.field)) hnodes
    rw [List.map_map, List.map_map] at hfields
    rw [hbindings, h.bindings, FormTree.inputNames_of_shape hshape]
    exact (bindNodes_congr hfields _).symm

/-- Whether or not its subscripts could be read, a form that was read is the one that is there. -/
theorem abreast_rescan (hp : e.tree.Proper) (hd : e.tree.Distinct) : e.rescan.1.Abreast := by
  have hsuits : List.Forall₂ OutputNode.Suits e.synced.nodes (e.tree.outputSpecs none) :=
    Registry.suits_sync (hd.nodup hp)
  rcases rescan_cases e with ⟨-, rows, diff, -, heq⟩ | ⟨-, heq⟩
  · rw [heq]
    refine ⟨List.forall₂_map_left_iff.mpr (hsuits.imp fun _ _ h => ?_), bindNodes_congr ?_ _⟩
    · exact ⟨h.id_eq, h.computation, h.attributes⟩
    · show _ = (List.map _ (List.map _ _))
      rw [List.map_map]
      rfl
  · rw [heq]
    exact ⟨hsuits, rfl⟩

/-- The nodes are linked as their dependencies have it. -/
theorem linkNodes_self (hl : e.Linked) :
    linkNodes (LinkGraph.build e.registry.dependencies) e.registry = e.registry := by
  have hsame : ∀ n ∈ e.registry.nodes,
      ({ n with linked := (LinkGraph.build e.registry.dependencies).peers n.id } : OutputNode) =
        n := fun n hn => by rw [← hl.links, ← hl.linked n hn]
  unfold linkNodes
  rw [List.map_congr_left hsame, List.map_id']

/-- Where no output was declared anew the registry stays as it is, unless the links were not yet
those of the nodes. -/
theorem registry_rescan_of_suits (hids : e.registry.ids.Nodup) (hl : e.Readable → e.Linked)
    (h : List.Forall₂ OutputNode.Suits e.registry.nodes (e.tree.outputSpecs none)) :
    e.rescan.1.registry = e.registry := by
  have hsynced : e.synced = e.registry := congrArg Prod.fst (Registry.sync_of_suits hids h)
  rcases rescan_cases e with ⟨hr, rows, diff, -, heq⟩ | ⟨-, heq⟩
  · rw [heq, hsynced]
    exact linkNodes_self (hl hr)
  · rw [heq]
    exact hsynced

/-- In any case the nodes at most get the links that they are to have. -/
theorem nodes_rescan_of_suits (hids : e.registry.ids.Nodup)
    (h : List.Forall₂ OutputNode.Suits e.registry.nodes (e.tree.outputSpecs none)) :
    ∃ links : OutputNode → List String,
      e.rescan.1.registry.nodes = e.registry.nodes.map fun n => { n with linked := links n } := by
  have hsynced : e.synced = e.registry := congrArg Prod.fst (Registry.sync_of_suits hids h)
  rcases rescan_cases e with ⟨-, rows, diff, -, heq⟩ | ⟨-, heq⟩
  · rw [heq, hsynced]
    exact ⟨_, rfl⟩
  · rw [heq, hsynced]
    exact ⟨OutputNode.linked, (List.map_id' _).symm⟩

theorem Abreast.reread_bindings (h : e.Abreast) (hids : e.registry.ids.Nodup) :
    e.reread.bindings = e.bindings := by
  show bindNodes _ (e.registry.sync (e.tree.outputSpecs none)).1.nodes = _
  rw [Registry.sync_of_suits hids h.nodes]
  exact h.bindings.symm

/-- Reading the form again as it was read changes nothing. -/
theorem rescan_of_abreast (hids : e.registry.ids.Nodup) (hl : e.Linked) (h : e.Abreast)
    (hrows : rowIndices (e.bindings.map Prod.snd) = .ok e.rows) :
    e.rescan.1 = { e with announcing := e.announcing.map (refresh e.registry) } := by
  have hsync := Registry.sync_of_suits hids h.nodes
  rw [rescan_eq, h.reread_bindings hids, hrows]
  dsimp only
  rw [show e.synced = e.registry from congrArg Prod.fst hsync, linkNodes_self hl, ← hl.links]
  unfold reread
  rw [hsync]
  dsimp only
  rw [← h.bindings]
  simp only [report, withRegistry, List.contains_nil, Bool.not_false, List.filter_true,
    List.foldl_nil, List.append_nil]

/-! ## The first recompute -/

/-- A sweep changes texts, but neither names nor declarations. -/
theorem keeps_shape (e₀ : Engine) :
    Keeps settings e₀ fun _ e => e.tree.shape = e₀.tree.shape where
  congr _ _ hholdings h := by
    simp only [holdings, Prod.mk.injEq] at hholdings
    rw [FormTree.shape, hholdings.2.1]
    exact h
  skip _ h := h
  turn {done e entry n e'} hturn hu h := by
    have hfields : ∀ {e e' : Engine}, e'.holdings = e.holdings → e'.tree.shape = e.tree.shape := by
      intro e e' hholdings
      simp only [holdings, Prod.mk.injEq] at hholdings
      rw [FormTree.shape, hholdings.2.1]
      rfl
    obtain ⟨v, -, ⟨-, hholdings⟩ | ⟨-, hholdings⟩⟩ := hu.holdings hturn.fate
    · exact (hfields hholdings).trans h
    · refine (hfields hholdings).trans (Eq.trans ?_ h)
      unfold withValue
      cases e.toWrite n v with
      | none => rfl
      | some text => exact FormTree.shape_write e.tree n.field text

/-- When the form was recomputed there is nothing left to accept. -/
theorem unmoved_finished
    (hswept : Sweeping settings e₀ e₀.links.order [] e)
    (hrenewed : ∀ id ∈ e₀.links.order, e₀.skips id = false → Renewed e₀ e id)
    (hevaluated : ∀ id ∈ e₀.links.order, e₀.skips id = false →
      ∀ n, e.registry.find? id = some n → n.evaluated = true) (ns : List Notice) :
    (e.finished ns).Unmoved := by
  have hc := hswept.underway.coherent
  refine Or.inr fun n hn hskip => ?_
  have hfound : e.registry.find? n.id = some n := Registry.find?_of_mem hc.ids hn
  have hmem : n.id ∈ e₀.links.order := by
    have horder : e.links.order = e₀.links.order := congrArg (·.links.order) hswept.layout
    rw [← horder, hc.order_perm.mem_iff]
    exact List.mem_map_of_mem hn
  have hskips : e₀.skips n.id = false := by
    rw [← skips_congr hswept.layout, skips, hfound]
    exact hskip
  obtain ⟨m, v, ⟨hm, hv, hconverged⟩, -⟩ := hrenewed n.id hmem hskips
  rw [hfound] at hm
  cases hm
  exact ⟨hevaluated n.id hmem hskips n hfound, v, hv, hconverged⟩

/-! ## The second one -/

/-- Nothing is left to accept, and the form was read as it is. -/
structure Renewable (settings : Settings) (e : Engine) : Prop where
  coherent : Coherent settings .immediate e
  abreast : e.Abreast
  rows : rowIndices (e.bindings.map Prod.snd) = .ok e.rows
  unmoved : e.Unmoved
  unchanged : e.changed = []
  nodup : e.scheduler.queue.nodes.Nodup

theorem Renewable.rescan (h : Renewable settings e) :
    e.rescan.1 = { e with announcing := e.announcing.map (refresh e.registry) } :=
  rescan_of_abreast h.coherent.ids h.coherent.toLinked h.abreast h.rows

theorem Renewable.readable (h : Renewable settings e) : e.Readable :=
  ⟨e.rows, by rw [h.abreast.reread_bindings h.coherent.ids, h.rows]⟩

/-- Then a recompute comes to its end, and leaves everything as it is. -/
theorem Renewable.recompute (h : Renewable settings e)
    (answer : Engine → Ask → Reply Response EngineError) (hs : settings.InRange) :
    (∃ us e' r, Runs (among answer) updates (after [] (e.recompute none)) us ⟨e', [], r⟩) ∧
      ∀ c, Visits (among answer) (after [] (e.recompute none)) c →
        c.state.tree = e.tree ∧ c.state.registry = e.registry ∧ ∀ k, .ask k ∉ c.stack := by
  have hc := h.coherent.toSound
  have hmute := mute_recompute hc h.nodup none
  have hestate : e.rescan.1.estate = e.estate := by
    rw [h.rescan]
    rfl
  have hunmoved := h.unmoved.congr hc hc.rescan hestate
  have hunchanged : e.rescan.1.changed = [] := (changed_rescan e).trans h.unchanged
  refine ⟨hmute.ends answer hs hc.rescan hunmoved hunchanged, fun c hv => ?_⟩
  obtain ⟨-, -, hstill, hframes⟩ := hmute.visits hs hc.rescan hunmoved hunchanged hv
  have hsame := hstill.trans hestate
  simp only [estate, Prod.mk.injEq] at hsame
  exact ⟨hsame.2.1, hsame.2.2.1, fun k hk => by cases hframes _ hk⟩

/-- What the first recompute leaves behind. -/
theorem renewable_of_recompute (hs : settings.InRange)
    {r : Reply Response EngineError} (reachable : Reachable settings .immediate ⟨e, [], r⟩)
    (idle : e.phase ≠ .evaluating) (distinct : e.tree.Distinct)
    (regular : Regular settings e.rescan.1) (hr : e.Readable)
    (calm : Calm answer (after [] (e.recompute none))) :
    ∃ us e' r', Runs (among answer) updates (after [] (e.recompute none)) us ⟨e', [], r'⟩ ∧
      (settings.historySize ≤ ConvergenceDetector.maxHistory → e'.Quiet ∧ ∃ a, r' = .returned a) ∧
      Renewable settings e' := by
  obtain ⟨hc, -⟩ := steady_of_reachable reachable
  have hc₁ := hc.coherent_rescan hr
  have hq := (quiet_of_reachable reachable idle).congr (progress_rescan e)
  have habreast := abreast_rescan hc.tree distinct
  by_cases hmost : settings.historySize ≤ ConvergenceDetector.maxHistory
  · have hr₀ : Regular settings { e.rescan.1 with scope := none } :=
      ⟨regular.acyclic, regular.room, regular.plain, regular.numeric⟩
    obtain ⟨us, e', ns, hruns, -, hswept, hquiet, hrenewed, hevaluated, hshape⟩ := runs_sweep hs
      hmost hc hr hq idle regular.orderly
      ((keeps_renewed hr₀ hs).and ((keeps_evaluated _).and (keeps_shape _)))
      ⟨fun _ hid => absurd hid List.not_mem_nil, fun _ hid => absurd hid List.not_mem_nil, rfl⟩ calm
    have hc' : Coherent settings .immediate (e'.finished ns) := hswept.underway.coherent.congr rfl
    have hlayout := hswept.layout
    have hbindings : e'.bindings = e.rescan.1.bindings := congrArg Layout.bindings hlayout
    have hrows : e'.rows = e.rescan.1.rows := congrArg Layout.rows hlayout
    refine ⟨us, e'.finished ns, _, hruns, fun _ => ⟨hquiet, _, rfl⟩, hc', ?_, ?_, ?_, rfl, ?_⟩
    · exact habreast.congr (congrArg Layout.nodes hlayout) hshape hbindings
    · show rowIndices (e'.bindings.map Prod.snd) = .ok e'.rows
      rw [hbindings, hrows]
      exact hr.rows_rescan
    · exact unmoved_finished hswept hrenewed hevaluated ns
    · show ((e'.finished ns).scheduler.queue.entries.map (·.node)).Nodup
      rw [hquiet.queue]
      exact List.nodup_nil
  · have hfull : e.rescan.1.detector.canRemember = false := by
      rw [ConvergenceDetector.canRemember, hc.rescan.historySize]
      exact decide_eq_false fun hn => hmost (Int.toNat_le.mp hn)
    have hchanged : e.rescan.1.changed = [] :=
      (changed_rescan e).trans (unchanged_of_reachable hmost reachable)
    have hnodup : e.scheduler.queue.nodes.Nodup := by
      show (e.scheduler.queue.entries.map (·.node)).Nodup
      rw [← scheduler_rescan e, show e.rescan.1.scheduler.queue.entries = [] from hq.queue]
      exact List.nodup_nil
    have hmute := mute_recompute hc hnodup none
    obtain ⟨us, e', r', hruns⟩ := hmute.ends answer hs hc.rescan (Or.inl hfull) hchanged
    obtain ⟨hc', hnodup', hestate, -⟩ :=
      hmute.visits hs hc.rescan (Or.inl hfull) hchanged hruns.visits
    refine ⟨us, e', r', hruns, fun hn => absurd hn hmost, ?_⟩
    have hunmoved := Unmoved.congr (Or.inl hfull) hc.rescan hc' hestate
    have hestate' : e'.estate = e.rescan.1.estate := hestate
    simp only [estate, Prod.mk.injEq] at hestate'
    obtain ⟨-, htree, hregistry, hbindings, hrows, -, -, hchanged', hlinks⟩ := hestate'
    refine ⟨⟨hc', hc₁.toLinked.congr hregistry hlinks⟩, ?_, ?_, hunmoved, hchanged'.trans hchanged,
      hnodup'⟩
    · exact habreast.congr (by rw [hregistry]) (by rw [htree]) hbindings
    · rw [hbindings, hrows]
      exact hr.rows_rescan

/-- Where the form cannot be read a recompute lets the nodes be as they were read, and a second one
finds them so. -/
theorem recompute_again_of_not_readable (hc : Sound settings mode e) (distinct : e.tree.Distinct)
    (hn : ¬ e.Readable) (scope : Option String) :
    e.rescan.1.recompute scope = .fail e.rescan.1.rescan.1 .tooManyDigits ∧
      e.rescan.1.rescan.1.tree = e.rescan.1.tree ∧
      e.rescan.1.rescan.1.registry = e.rescan.1.registry := by
  have hc₁ := hc.rescan
  have habreast := abreast_rescan hc.tree distinct
  have hn₁ : ¬ e.rescan.1.Readable := by
    rintro ⟨rows, hrows⟩
    rw [habreast.reread_bindings hc₁.ids, bindings_rescan_eq] at hrows
    exact hn ⟨rows, hrows⟩
  exact ⟨recompute_of_not_readable hn₁ scope, tree_rescan _,
    registry_rescan_of_suits hc₁.ids (fun hr => absurd hr hn₁) habreast.nodes⟩

/-- A recompute of the whole form in an idle engine leaves nothing to be done by a second one: while
that goes on no text is written, no node changes, and no watcher or listener is asked. -/
theorem recompute_idempotent {place : String} {entries : List (String × Data)}
    (hsettings : Settings.ofEntries place entries = .ok settings) {r : Reply Response EngineError}
    (reachable : Reachable settings .immediate ⟨e, [], r⟩) (idle : e.phase ≠ .evaluating)
    (distinct : e.tree.Distinct) (regular : Regular settings e.rescan.1)
    (calm : e.Readable → Calm answer (after [] (e.recompute none))) :
    ∃ us e₁ r₁, Runs (among answer) updates (after [] (e.recompute none)) us ⟨e₁, [], r₁⟩ ∧
      (e.Readable → settings.historySize ≤ ConvergenceDetector.maxHistory →
        ∃ a, r₁ = .returned a) ∧
      ∀ answer' : Engine → Ask → Reply Response EngineError,
        (∃ vs e₂ r₂, Runs (among answer') updates (after [] (e₁.recompute none)) vs ⟨e₂, [], r₂⟩ ∧
          (e.Readable → settings.historySize ≤ ConvergenceDetector.maxHistory →
            Calm answer' (after [] (e₁.recompute none)) → ∃ a, r₂ = .returned a)) ∧
        ∀ c, Visits (among answer') (after [] (e₁.recompute none)) c →
          c.state.tree = e₁.tree ∧ c.state.registry = e₁.registry ∧ ∀ k, .ask k ∉ c.stack := by
  have hs := Settings.inRange_of_ofEntries hsettings
  by_cases hr : e.Readable
  · obtain ⟨us, e₁, r₁, hruns, hreturned, hrenewable⟩ :=
      renewable_of_recompute hs reachable idle distinct regular hr (calm hr)
    refine ⟨us, e₁, r₁, hruns, fun _ hmost => (hreturned hmost).2, fun answer' => ?_⟩
    obtain ⟨⟨vs, e₂, r₂, hruns'⟩, hstill⟩ := hrenewable.recompute answer' hs
    refine ⟨⟨vs, e₂, r₂, hruns', fun _ hmost calm' => ?_⟩, hstill⟩
    -- From a quiet engine the drain comes to an end with an answer, and there is just one end
    have hr₁ := hrenewable.readable
    have hq : e₁.rescan.1.Quiet := (hreturned hmost).1.congr (progress_rescan e₁)
    rw [recompute_eq hrenewable.coherent.toSound hr₁] at hruns' calm'
    obtain ⟨_, _, _, -, -, hends⟩ :=
      runs_cycle hs hmost (hrenewable.coherent.coherent_rescan hr₁) hq calm'
    obtain ⟨-, hsame⟩ := hends.unique hruns' rfl rfl
    cases hsame
    exact ⟨_, rfl⟩
  · obtain ⟨hc, -⟩ := steady_of_reachable reachable
    obtain ⟨heq, htree, hregistry⟩ := recompute_again_of_not_readable hc distinct hr none
    rw [recompute_of_not_readable hr]
    refine ⟨[], e.rescan.1, _, .refl _, fun hr' => absurd hr' hr, fun answer' => ?_⟩
    rw [heq]
    generalize e.rescan.1.rescan.1 = e₂ at htree hregistry ⊢
    refine ⟨⟨[], e₂, _, .refl _, fun hr' => absurd hr' hr⟩, fun c hv => ?_⟩
    obtain ⟨k, rfl⟩ := hv
    have hend : (among answer').run k (after [] (.fail e₂ .tooManyDigits)) =
        ⟨e₂, [], .raised .tooManyDigits⟩ := Machine.run_of_stack_nil rfl k
    rw [hend]
    exact ⟨htree, hregistry, fun _ hk => absurd hk List.not_mem_nil⟩

/-- What is being edited is left alone both times. -/
theorem recompute_idempotent_edited :
    ∃ us e₁ r₁, Runs (among fun _ _ => .returned default) updates
        (after [] (editedEngine.recompute none)) us ⟨e₁, [], r₁⟩ ∧
      (∃ a, r₁ = .returned a) ∧
      ∀ c, Visits (among fun _ _ => .returned default) (after [] (e₁.recompute none)) c →
        c.state.tree = e₁.tree ∧ c.state.registry = e₁.registry ∧ ∀ k, .ask k ∉ c.stack := by
  have hsettings : Settings.ofEntries "" [] = .ok {} := rfl
  have hidle : editedEngine.phase ≠ .evaluating := show Phase.idle ≠ .evaluating by decide
  have hdistinct : editedTree.Distinct := by decide +kernel
  have hcalm : endsSmoothly (fun _ _ => .returned default) 100
      (after [] (editedEngine.recompute none)) = true := by
    decide +kernel
  obtain ⟨us, e₁, r₁, hruns, hreturned, hagain⟩ := recompute_idempotent (r := .returned default)
    hsettings (.create proper_editedTree false) hidle hdistinct regular_editedEngine fun _ =>
      calm_of_endsSmoothly hcalm
  exact ⟨us, e₁, r₁, hruns, hreturned (by decide +kernel) (by decide), (hagain _).2⟩

end LiveForm.Engine
