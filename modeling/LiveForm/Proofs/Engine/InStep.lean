import LiveForm.Proofs.Engine.Keeping
import LiveForm.Proofs.Engine.Watching

/-!
# Nodes, links, bindings and rows stay in step

The nodes, their links, the bindings and the rows are kept apart and change at different moments,
and a watcher may have the form read again while a node is processed that has left it.  Still they
are in step between any two steps, so that whoever goes through the nodes in their order finds each
of them, as long as the subscripts in the bound names can be read.  Where one has too many digits,
reading the form breaks off before the links are made anew.
-/

namespace LiveForm.Engine

open Machine (after)
open Text (maxDigits)

variable {settings : Settings} {mode : YieldMode} {e e' : Engine} {c : Running}

/-- Where the subscripts in the bound names can be read, the rows are those that occur in them, and
the links are those of the nodes. -/
def InStep (e : Engine) : Prop :=
  ∀ rows, rowIndices (e.bindings.map Prod.snd) = .ok rows → e.Linked ∧ e.rows = rows

/-- A reading of the form puts the parts in step, whatever they were, or it leaves names that cannot
be read. -/
theorem inStep_rescan (e : Engine) : e.rescan.1.InStep := by
  intro rows hrows
  have hr : e.Readable := ⟨rows, bindings_rescan_eq e ▸ hrows⟩
  refine ⟨linked_rescan hr, ?_⟩
  have hok := hr.rows_rescan
  rw [hrows] at hok
  exact (Except.ok.inj hok).symm

/-- The rows are read anew with each name that is bound. -/
theorem InStep.bound (h : e.InStep) (name : String) : (e.bound name).InStep := by
  unfold Engine.bound Engine.bind
  dsimp only
  split
  · exact h
  · split
    · next hbroken =>
      intro rows hrows
      cases hbroken.symm.trans hrows
    · next rows' hrows' =>
      intro rows hrows
      -- The names that were bound before can be read if all of them can
      obtain ⟨before, hbefore⟩ : ∃ rows, rowIndices (e.bindings.map Prod.snd) = .ok rows := by
        refine exists_rowIndices.mpr fun f hf => exists_rowIndices.mp ⟨rows', hrows'⟩ f ?_
        rw [List.map_append]
        exact List.mem_append_left _ hf
      exact ⟨(h before hbefore).1.congr rfl rfl, Except.ok.inj (hrows'.symm.trans hrows)⟩

theorem lasts_inStep : Lasts settings mode InStep where
  congr {e e'} h hholdings rows hrows := by
    have hbindings : e'.bindings = e.bindings := congrArg (·.2.2.2.1) hholdings
    have hnumbered : e'.rows = e.rows := congrArg (·.2.2.2.2.1) hholdings
    rw [hbindings] at hrows
    obtain ⟨hlinked, hsame⟩ := h rows hrows
    exact ⟨linked_of_holdings hholdings hlinked, hnumbered.trans hsame⟩
  rescan {e} _ _ := inStep_rescan e
  withValue _ _ _ h rows hrows := by
    obtain ⟨hlinked, hsame⟩ := h rows hrows
    exact ⟨hlinked.modify rfl rfl, hsame⟩
  bound name h := h.bound name

/-- Whatever is done to an engine, its parts stay in step. -/
theorem Arises.inStep {start : FormTree → Prop} {permits : Engine → Operation → Prop}
    (h : Arises settings mode start permits c) : c.state.InStep := by
  refine lasts_inStep.arises (fun tree debounces _ _ rows hrows => ?_)
    (fun _ hstep _ _ rows hrows => ?_) h
  · exact ⟨⟨rfl, fun _ hn => absurd hn List.not_mem_nil⟩, Except.ok.inj hrows⟩
  · obtain ⟨hlinked, hsame⟩ := hstep rows hrows
    exact ⟨hlinked.congr rfl rfl, hsame⟩

/-! ## Going through the nodes -/

theorem drain_ne_raised (e : Engine) : ∀ e' err, e.drain ≠ .reply e' (.raised err) := by
  intro e' err h
  unfold drain Scheduler.drain at h
  dsimp only at h
  split at h
  · cases h
  · cases h

/-- A recompute finds every node that it goes through, and fails only with its reading. -/
theorem recompute_eq_raised (hc : Sound settings mode e) {scope : Option String} {err : EngineError}
    (h : e.recompute scope = .reply e' (.raised err)) : err = .tooManyDigits := by
  by_cases hr : e.Readable
  · rw [recompute_eq hc hr] at h
    exact absurd h (drain_ne_raised _ _ _)
  · rw [recompute_of_not_readable hr] at h
    cases h
    rfl

/-- To pass a change on finds every node that it goes through. -/
theorem propagate_ne_raised (hc : Coherent settings mode e) (entry : QueueEntry) :
    ∀ e' err, e.propagate entry ≠ .reply e' (.raised err) := by
  intro e' err h
  cases hn : e.announcing with
  | nil =>
    unfold propagate at h
    rw [hn] at h
    cases h
  | cons n announcing =>
    rw [propagate_eq entry (fun _ => hc.contains_of_mem_order) hn] at h
    cases h

/-- Whatever is done to an engine, also by watchers in the middle of an evaluation: the variable of
each node is bound, and a recompute finds each node.  Where the bound names have row indices, these
are the rows, the order is one of the registered nodes, and each node has the links that it has in
the graph, so that no node is missing when a change is passed on. -/
theorem parts_in_step (arises : Arises settings mode (fun _ => True) (fun _ _ => True) c) :
    (∀ n ∈ c.state.registry.nodes, c.state.bindings.any (·.1 == n.id) = true) ∧
    (∀ scope e err, c.state.recompute scope = .reply e (.raised err) → err = .tooManyDigits) ∧
    ∀ rows, rowIndices (c.state.bindings.map Prod.snd) = .ok rows →
      c.state.links.order.Perm c.state.registry.ids ∧
      (∀ n ∈ c.state.registry.nodes, n.linked = c.state.links.peers n.id) ∧
      c.state.rows = rows ∧
      ∀ entry e err, c.state.propagate entry ≠ .reply e (.raised err) := by
  have hknown : c.state.Known := lasts_known.arises
    (fun _ _ _ _ _ hn => absurd hn List.not_mem_nil) (fun _ h _ _ => h) arises
  refine ⟨hknown, fun _ _ _ h => recompute_eq_raised arises.sound h, fun rows hrows => ?_⟩
  obtain ⟨hlinked, hsame⟩ := arises.inStep rows hrows
  have hc : Coherent settings mode c.state := ⟨arises.sound, hlinked⟩
  exact ⟨hc.order_perm, hc.linked, hsame, propagate_ne_raised hc⟩

/-- A field in a row, an output that reads it, and one that reads that. -/
def chainedTree : FormTree :=
  ((({} : FormTree).withField "price[3]" "1" "").withOutput
    { id := "a", expression := "price_3" } "").withOutput
    { id := "b", expression := "a" } ""

theorem proper_chainedTree : chainedTree.Proper :=
  (((FormTree.proper_empty false).withField _ _ _).withOutput _ _).withOutput _ _

/-- The engine that has read them, with a watcher of `a`. -/
def chainedEngine : Engine :=
  (((Engine.create chainedTree {} .immediate false).perform (.attach false)).state.watch "a").2

/-- The watcher is told of the value of `a` while the update of `b` waits in the running batch. -/
def announcingChained : Running :=
  (among fun _ _ => .returned default).run 3
    (after [] (chainedEngine.perform (.recompute none)))

/-- The watcher takes `b` away. -/
def removedChained : Running :=
  after announcingChained.stack (announcingChained.state.perform (.removeField "b" false))

/-- The watcher has the form read again. -/
def rereadChained : Running := after removedChained.stack (removedChained.state.perform .rescan)

/-- Whoever is being told something may perform an operation. -/
theorem Arises.reenter_of_isAsk {start : FormTree → Prop} {permits : Engine → Operation → Prop}
    {c : Running} (h : Arises settings mode start permits c)
    (hasks : c.stack.head?.any isAsk = true) {op : Operation} (permitted : permits c.state op) :
    Arises settings mode start permits (after c.stack (c.state.perform op)) := by
  obtain ⟨e, stack, r⟩ := c
  obtain ⟨k, below, rfl⟩ := exists_of_isAsk hasks
  exact h.reenter permitted

/-- The parts are in step while the update of an output waits that has left the form. -/
theorem parts_in_step_rereadChained :
    rereadChained.state.scheduler.inFlight.map (·.node) = ["b"] ∧
    rereadChained.state.links.order.Perm ["a"] ∧
    rereadChained.state.rows = [3] ∧
    rowIndices (rereadChained.state.bindings.map Prod.snd) = .ok [3] ∧
    ∀ entry e err, rereadChained.state.propagate entry ≠ .reply e (.raised err) := by
  have hread : Arises {} .immediate (fun _ => True) (fun _ _ => True)
      (after [] ((Engine.create chainedTree {} .immediate false).perform (.attach false))) :=
    .perform (.create proper_chainedTree trivial false) trivial
  have hreadable : (Engine.create chainedTree {} .immediate false).Readable := by decide +kernel
  have hwatched : Arises {} .immediate (fun _ => True) (fun _ _ => True)
      ⟨chainedEngine, [], .returned default⟩ := by
    rw [perform_attach_of_readable hreadable] at hread
    rw [chainedEngine, perform_attach_of_readable hreadable]
    exact .aside hread ⟨_, _, _, _, _, rfl⟩
  have hannouncing : Arises {} .immediate (fun _ => True) (fun _ _ => True) announcingChained :=
    .run (.perform hwatched trivial) _ 3
  have hremoved : Arises {} .immediate (fun _ => True) (fun _ _ => True) removedChained :=
    hannouncing.reenter_of_isAsk (by decide +kernel) trivial
  have hreread : Arises {} .immediate (fun _ => True) (fun _ _ => True) rereadChained :=
    hremoved.reenter_of_isAsk (by decide +kernel) trivial
  have hrows : rowIndices (rereadChained.state.bindings.map Prod.snd) = .ok [3] := by
    decide +kernel
  have hids : rereadChained.state.registry.ids = ["a"] := by decide +kernel
  obtain ⟨-, -, hstep⟩ := parts_in_step hreread
  obtain ⟨hperm, -, hsame, hpropagate⟩ := hstep [3] hrows
  exact ⟨by decide +kernel, hids ▸ hperm, hsame, hrows, hpropagate⟩

/-- Where reading the form broke off, the order holds a node that is registered no longer, and an
edit that is passed on does not find it. -/
theorem parts_out_of_step :
    Arises {} .immediate (fun _ => True) (fun _ _ => True)
      ⟨brokenRelay, [], .raised .tooManyDigits⟩ ∧
    rowIndices (brokenRelay.bindings.map Prod.snd) = .error .tooMany ∧
    brokenRelay.registry.ids = ["a"] ∧ brokenRelay.links.order = ["a", "b"] ∧
    ((among fun _ _ => .returned default).run 40
      (after [] (brokenRelay.perform (.setValue "x" (.text "2") true)))).reply =
        .raised (.unknownNode "b") := by
  have hmem : overlong ∈ brokenRelay.bindings.map Prod.snd :=
    List.mem_map.mpr ⟨(variableName overlong, overlong),
      List.mem_append_right _ List.mem_cons_self, rfl⟩
  have hlong : maxDigits < (List.replicate (maxDigits + 1) '1').length := by
    rw [List.length_replicate]
    exact Nat.lt_succ_self _
  exact ⟨reachable_brokenRelay.used.arises, rowIndices_eq_error hmem hasSubscript_overlong hlong,
    by decide +kernel, by decide +kernel, by decide +kernel⟩

end LiveForm.Engine
