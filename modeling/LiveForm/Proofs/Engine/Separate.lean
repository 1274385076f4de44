import LiveForm.Proofs.Engine.Readying
import LiveForm.Proofs.Engine.Sweep

/-!
# Outputs that read no outputs

Where outputs read only fields that are no outputs, a new value of one of them makes no other one
out of date.  An update that is ready evaluates its node, and then the node is up to date: the
value is the first of its cycle, so that neither the number of passes nor the detector stands in
its way.
-/

namespace LiveForm.Engine

open Machine (after)

variable {settings : Settings} {mode : YieldMode} {e e' : Engine} {entry : QueueEntry}
  {n : OutputNode} {id : String}

/-- No output reads an output, or is left alone while it is edited, or uses a reserved word as a
variable; all outputs have room in the queue. -/
structure Apart (settings : Settings) (e : Engine) : Prop where
  separate : ∀ n ∈ e.registry.nodes, ∀ id ∈ e.registry.ids, reads n.dependencies id = false
  unskipped : ∀ n ∈ e.registry.nodes, n.skipWhileEditing = false
  plain : ∀ n ∈ e.registry.nodes, Expr.wordsRead n.expression = []
  room : (e.registry.nodes.length : Int) ≤ settings.maxQueue
  numeric : settings.tolerance.isNaN = false

namespace Apart

theorem congr (h : Apart settings e) (hd : e'.layout.nodes = e.layout.nodes) :
    Apart settings e' := by
  have hids := ids_of_declared hd
  refine ⟨fun n hn id hid => ?_, fun n hn => ?_, fun n hn => ?_, ?_, h.numeric⟩
  · obtain ⟨m, hm, hsame⟩ := mem_of_declared hd hn
    have hdependencies : m.dependencies = n.dependencies :=
      (congrArg OutputNode.dependencies hsame :)
    rw [← hdependencies]
    exact h.separate m hm id (hids ▸ hid)
  · obtain ⟨m, hm, hsame⟩ := mem_of_declared hd hn
    have hskip : m.skipWhileEditing = n.skipWhileEditing :=
      (congrArg OutputNode.skipWhileEditing hsame :)
    rw [← hskip]
    exact h.unskipped m hm
  · obtain ⟨m, hm, hsame⟩ := mem_of_declared hd hn
    have hexpression : m.expression = n.expression := (congrArg OutputNode.expression hsame :)
    rw [← hexpression]
    exact h.plain m hm
  · have hlength := congrArg List.length hids
    rw [Registry.ids, Registry.ids, List.length_map, List.length_map] at hlength
    rw [hlength]
    exact h.room

theorem not_uses (h : Apart settings e) (hn : n ∈ e.registry.nodes) (hid : id ∈ e.registry.ids) :
    ¬ n.Uses id := by
  rintro (hread | hword)
  · rw [h.separate n hn id hid] at hread
    cases hread
  · rw [h.plain n hn] at hword
    cases hword

theorem successors_eq_nil (h : Apart settings e) (hc : Coherent settings mode e) (id : String) :
    e.links.graph.successors id = [] := by
  refine List.eq_nil_iff_forall_not_mem.mpr fun v hv => ?_
  obtain ⟨-, hid, d, hd, rfl, hread⟩ := hc.mem_successors.mp hv
  obtain ⟨n, hn, rfl⟩ := List.mem_map.mp hd
  rw [Registry.ids_dependencies] at hid
  rw [h.separate n hn id hid] at hread
  cases hread

theorem roomy (h : Apart settings e) (hc : Coherent settings mode e) :
    (e.registry.ids.length : Int) ≤ e.scheduler.queue.maxQueue := by
  rw [hc.maxQueue, Registry.ids, List.length_map]
  exact h.room

/-! ## Updates -/

/-- An update that is ready evaluates its node, for the first time in the cycle. -/
theorem fate_eq (h : Apart settings e) (hc : Coherent settings mode e) (hs : settings.InRange)
    (running : e.halted = false) {xs : List QueueEntry} (hready : Ready e (entry :: xs)) :
    ∃ n, e.fate entry = .evaluated n ∧ e.passesOf n.id = 0 := by
  have hid := hready.registered entry List.mem_cons_self
  obtain ⟨n, hn⟩ := Option.isSome_iff_exists.mp (Registry.contains_iff.mpr hid)
  obtain ⟨hmem, hnid⟩ := Registry.mem_of_find? hn
  have hfirst : e.passesOf n.id = 0 := by
    have hfresh := hready.fresh entry List.mem_cons_self
    rw [hnid, passesOf, List.lookup_eq_none_iff.mpr fun p hp => ?_]
    · rfl
    · rw [bne_iff_ne]
      exact fun heq => hfresh (heq ▸ List.mem_map_of_mem hp)
  refine ⟨n, fate_of_evaluates ⟨running, hn, ?_, ?_, ?_⟩, hfirst⟩
  · rw [hnid]
    exact hready.foreign entry List.mem_cons_self
  · rw [shouldSkip, h.unskipped n hmem, Bool.false_and]
  · rw [hfirst, hc.ofSettings]
    exact hs.counts .maxPasses (by decide)

/-- When its node was evaluated it is up to date. -/
theorem upToDate_updated (h : Apart settings e) (hc : Coherent settings mode e)
    (hs : settings.InRange) (hu : Updated e entry e') (hfate : e.fate entry = .evaluated n)
    (hfirst : e.passesOf n.id = 0) : e'.UpToDate n.id := by
  obtain ⟨hmem, -⟩ := Registry.mem_of_find? (evaluates_of_fate hfate).found
  have hc' := hc.updated hu
  obtain ⟨m, v, hm, hv, hdisplayable, hvalue⟩ :=
    hu.recomputed hc hfate (h.not_uses hmem (List.mem_map_of_mem hmem))
  refine ⟨m, v, hm, hv, ?_⟩
  rcases hvalue with hlast | ⟨rfl, -, hout⟩
  · rw [hlast]
    exact converged_self hc' hs h.numeric hdisplayable
  · -- A first value is kept out only if it repeats the last one
    rw [accepts_of_first hfirst, Bool.not_eq_false', Bool.and_eq_true] at hout
    rw [hc'.tolerances, ← hc.tolerances]
    exact hout.2

end Apart

/-- The engine when a node has had its pass: it is up to date, and nothing else has changed. -/
structure Renews (e : Engine) (n : OutputNode) (e' : Engine) : Prop where
  upToDate : e'.UpToDate n.id
  layout : e'.layout = e.layout
  scheduler : e'.scheduler = e.scheduler
  others : ∀ id, id ≠ n.id → e'.registry.find? id = e.registry.find? id
  resolve : ∀ name, name ≠ n.id → e'.resolve name = e.resolve name
  passes : ∀ id ∈ e'.passes.map (·.1), id = n.id ∨ id ∈ e.passes.map (·.1)
  announcing : ∀ m ∈ e'.announcing, m ∈ e.announcing ∨ m.id = n.id ∧ m.linked = n.linked

theorem mem_passes_counted (e : Engine) (n : OutputNode) :
    ∀ id ∈ (e.counted n).passes.map (·.1), id = n.id ∨ id ∈ e.passes.map (·.1) := by
  intro id hid
  rcases List.mem_cons.mp hid with rfl | hid
  · exact Or.inl rfl
  · exact Or.inr ((List.filter_sublist.map Prod.fst).subset hid)

namespace Apart

/-- A value that is kept out is close to the one that the node has. -/
theorem renews_keptOut (h : Apart settings e) (hc : Coherent settings mode e)
    (hs : settings.InRange) (hfate : e.fate entry = .evaluated n) (hfirst : e.passesOf n.id = 0)
    {v : Value} (value : (e.counted n).computed n = .ok v)
    (out : (e.counted n).accepts n v entry = false) (judged : (e.counted n).Judged n e') :
    Renews e n e' := by
  obtain ⟨-, hnid⟩ := Registry.mem_of_find? (evaluates_of_fate hfate).found
  have hu : Updated e entry e' := .keptOut n v e' hfate value out judged
  refine ⟨h.upToDate_updated hc hs hu hfate hfirst, hu.layout,
    judged.unseen scheduler fun _ _ _ => rfl, fun id hne => hu.find? (hnid ▸ hne),
    fun name hne => hu.resolve hc (hnid ▸ hne), ?_, ?_⟩
  · rw [judged.unseen passes fun _ _ _ => rfl]
    exact mem_passes_counted e n
  · rw [judged.unseen announcing fun _ _ _ => rfl]
    exact fun m hm => Or.inl hm

/-- A value that is stored is the one that the node has, whatever becomes of its change. -/
theorem renews_stored (h : Apart settings e) (hc : Coherent settings mode e)
    (hs : settings.InRange) (hfate : e.fate entry = .evaluated n) (hfirst : e.passesOf n.id = 0)
    {v : Value} (value : (e.counted n).computed n = .ok v)
    (new : (e.counted n).accepts n v entry = true) {e₁ : Engine}
    (judged : (e.counted n).Judged n e₁) (stored : e₁.Stored n v e') : Renews e n e' := by
  obtain ⟨-, hnid⟩ := Registry.mem_of_find? (evaluates_of_fate hfate).found
  have hc' := ((hc.counted n).judged judged).stored stored
  -- Nothing that is passed on matters to values
  have hu : Updated e entry _ := .accepted n v e₁ e' e'.notices hfate value new judged stored
  have hup := h.upToDate_updated hc hs hu hfate hfirst
  have hfind := fun id (hne : id ≠ n.id) => hu.find? (hnid ▸ hne)
  have hresolve := fun name (hne : name ≠ n.id) => hu.resolve hc (hnid ▸ hne)
  have hc₂ := hc.updated hu
  have hholdings : e'.holdings = _ := (holdings_queued (queued_passed
    { e' with notices := e'.notices, announcing := e.announcing }
    { n with lastValue := v, evaluated := true } entry.source)).symm
  generalize ({ e' with notices := e'.notices, announcing := e.announcing } : Engine).passed
    { n with lastValue := v, evaluated := true } entry.source = e₂ at *
  have hsame := resolve_of_holdings hholdings
  obtain ⟨hlayout, hscheduler, hpasses⟩ := unmoved_of_stored judged stored
  refine ⟨?_, hlayout, hscheduler, fun id hne => ?_, fun name hne => ?_, ?_, ?_⟩
  · exact hup.congr hc₂.toSound hc'.toSound (find?_of_holdings hholdings _)
      (congrArg (·.2.2.2.2.1) hholdings)
      fun m _ name _ => congrFun hsame name
  · rw [find?_of_holdings hholdings]
    exact hfind id hne
  · rw [hsame]
    exact hresolve name hne
  · rw [hpasses]
    exact mem_passes_counted e n
  · rw [announcing_stored judged stored]
    intro m hm
    rcases List.mem_cons.mp hm with rfl | hm
    · exact Or.inr ⟨rfl, rfl⟩
    · exact Or.inl hm

/-- An update that evaluates its node for the first time in the cycle renews it; if the value is new
the watchers are told and the change is passed on. -/
theorem process (h : Apart settings e) (hc : Coherent settings mode e) (hs : settings.InRange)
    (hmost : settings.historySize ≤ ConvergenceDetector.maxHistory)
    (hfate : e.fate entry = .evaluated n) (hfirst : e.passesOf n.id = 0)
    {below : List (Activity Frame Ask)}
    (calm : ∀ err, (after below (e.process entry)).reply ≠ .raised (.evaluation err)) :
    ∃ e', Renews e n e' ∧ (e.process entry = e'.finish ∨ ∃ old v ws, e.process entry =
      .call e' [.own (.watchers n.id old v ws), .own (.propagate entry)]) := by
  have hprocess : e.process entry = (e.counted n).evaluateNode n entry := by
    rw [process_eq, hfate]
  rw [hprocess] at calm ⊢
  have hm := (e.counted n).evaluated_evaluateNode n entry
  generalize (e.counted n).evaluateNode n entry = m at hm calm ⊢
  cases hm with
  | failed err e' value judged => exact absurd rfl (calm err)
  | tooLong v e' value full judged =>
    rw [(hc.counted n).canRemember hmost] at full
    cases full
  | keptOut v e' value room out judged =>
    exact ⟨e', h.renews_keptOut hc hs hfate hfirst value out judged, Or.inl rfl⟩
  | accepted v e₁ value room new judged =>
    obtain ⟨e₂, ws, stored, heq⟩ := accept_eq entry (displayable_of_computed value)
      ((hc.counted n).judged judged).writing
    exact ⟨e₂, h.renews_stored hc hs hfate hfirst value new judged stored,
      Or.inr ⟨n.lastValue, v, ws, heq⟩⟩

end Apart

end LiveForm.Engine
