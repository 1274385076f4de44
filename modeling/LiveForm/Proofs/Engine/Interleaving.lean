import LiveForm.Proofs.Engine.Flushing

/-!
# No edit is lost

Edits may come in between any two batches, while others rest, and rest themselves; timers may fire
and work may be flushed at any time.  Where outputs read no outputs every output is up to date
whenever the engine is idle, and no update is ever held back.
-/

namespace LiveForm.Engine

open Machine (after state_after)

variable {settings : Settings} {mode : YieldMode} {e : Engine} {compute : Bool}
  {r : Reply Response EngineError} {c c' : Running}

/-- The operations that steer an engine from outside while it listens: edits, the passing of time,
and the continuations of the yield point. -/
def Steers : Operation → Prop
  | .setValue .. | .advance _ | .runTimers | .flush | .runNext | .runAll => True
  | _ => False

/-- The engine gets from one configuration to the other when it is only steered, from outside, no
evaluation fails, and no reading of the form breaks off. -/
def Steered : Running → Running → Prop :=
  Course Steers (fun _ => False) fun c => isSmooth c.reply = true

namespace Watchful

/-! ## Edits -/

/-- An edit puts only those nodes out of date that read the field, and is to be handled. -/
theorem edit (h : Watchful settings compute ⟨e, [], r⟩) (hc : Coherent settings mode e)
    {name : String} {value : Value} {tree : FormTree} (ht : e.tree.setValue name value = .ok tree)
    (user : Bool) :
    Watchful settings compute ⟨({ e with tree } : Engine).edited name user,
      [.own (.handle (.input (variableName name)))], .returned default⟩ := by
  have hup : ∀ id, id ∉ e.links.dependentsOf (variableName name) → e.UpToDate id →
      (({ e with tree } : Engine).edited name user).UpToDate id :=
    fun _ => UpToDate.setValue hc h.apart.plain ht user
  obtain ⟨lastEdit, heq⟩ : ∃ lastEdit, ({ e with tree } : Engine).edited name user =
      { e with tree, lastEdit } := by
    unfold edited
    split
    · exact ⟨_, rfl⟩
    · exact ⟨_, rfl⟩
  rw [heq] at hup ⊢
  have hseated : Seated [.own (.handle (.input (variableName name)))] :=
    ⟨⟨⟨_, rfl⟩, fun _ hf => absurd hf List.not_mem_nil⟩, rfl, seated_nil⟩
  refine ⟨h.apart.congr rfl, h.linked.congr rfl rfl, h.attached, ?_, h.announced, h.keyed,
    h.untimed, h.ready.congr rfl fun _ hid => hid, level_returned hseated _,
    fun n hn hpromised => ?_⟩
  · show ∀ name ∈ tree.fields.map (·.1), _
    rw [FormTree.names_of_shape (FormTree.shape_setValue ht)]
    exact h.bound
  · by_cases hread : reads n.dependencies (variableName name) = true
    · exact Or.inr (Or.inr ⟨_, List.mem_cons_self, hread⟩)
    · rcases h.minded n hn hpromised with hready | hwaits | ⟨v, hv, hreads⟩
      · refine Or.inl (hup n.id (fun hid => hread ?_) hready)
        obtain ⟨m, hm, hmid, hreads⟩ := hc.mem_dependentsOf.mp hid
        rwa [Registry.eq_of_mem hc.ids hm hn hmid] at hreads
      · exact Or.inr (Or.inl hwaits)
      · exact Or.inr (Or.inr ⟨v, List.mem_cons_of_mem _ hv, hreads⟩)

/-- A change rests, or is handled at once. -/
theorem settle {v : String}
    (h : Watchful settings compute ⟨e, [.own (.handle (.input v))], r⟩)
    (hc : Coherent settings mode e) (hflight : e.scheduler.inFlight = []) (delay : Binary64) :
    Watchful settings compute (after [] (e.settle (.input v) delay)) := by
  have hc' := hc.settle (.input v) delay
  unfold Engine.settle at hc' ⊢
  split at hc'
  · next hdebounces =>
    rw [if_pos hdebounces]
    have hown : OfInput (.input v) (.input v) := ⟨v, rfl, rfl⟩
    obtain ⟨keyed, kept⟩ := Debouncer.Keyed.schedule unique_ofInput h.keyed hown delay
    exact h.move [.own (.handle (.input v))] [] hc hc' rfl rfl rfl (fun _ hn => hn) keyed
      (fun hn => absurd (hdebounces.symm.trans hn) nofun) (h.ready.congr rfl fun _ hid => hid)
      (fun _ hid => hid) (fun w hw => Or.inl (kept _ hw)) (level_returned seated_nil _)
  · next hdebounces =>
    rw [if_neg hdebounces]
    exact h.handle hc hflight

theorem setValue (h : Watchful settings compute ⟨e, [], r⟩) (hc : Coherent settings mode e)
    (hflight : e.scheduler.inFlight = []) (name : String) (value : Value) (user : Bool) :
    Watchful settings compute (after [] (e.perform (.setValue name value user))) := by
  cases ht : e.tree.setValue name value with
  | error err =>
    have hperform : e.perform (.setValue name value user) = .fail e (.tree err) := by
      show e.changeTree (e.tree.setValue name value) (.input name user) true = _
      rw [ht]
      rfl
    rw [hperform]
    exact h.restack hc hc.toSound rfl (fun _ hid => hid) rfl rfl ⟨trivial, fun _ _ => Or.inl rfl⟩
  | ok tree =>
    rw [settle_setValue hc h.attached ht (h.bound name (FormTree.mem_of_setValue ht)) user]
    refine (h.edit hc ht user).settle ((hc.withTree (hc.tree.setValue ht)).edited name user) ?_ _
    have hprogress := progress_edited { e with tree } name user
    rw [show (({ e with tree } : Engine).edited name user).scheduler = e.scheduler from
      congrArg (·.1) hprogress]
    exact hflight

/-! ## Operations -/

/-- By hand continuations may be run. -/
theorem pump (h : Watchful settings compute ⟨e, [], r⟩) (hc : Coherent settings mode e)
    {m : YieldPoint.Move Bool EngineError} (hm : ∀ y err, m ≠ .reply y (.raised err))
    (hmode : m.state.mode = e.scheduler.yieldPoint.mode) :
    Watchful settings compute (after [] (e.pump (e.scheduler.ofYield m))) := by
  unfold Engine.pump
  split
  · exact h.ofScheduler [] hc trivial rfl rfl rfl (Scheduler.keeps_ofYield hm)
      (e.scheduler.parameters_ofYield hmode)
  · exact h.restack hc hc.toSound rfl (fun _ hid => hid) rfl rfl ⟨trivial, fun _ _ => Or.inl rfl⟩

theorem perform (h : Watchful settings compute ⟨e, [], r⟩) (hc : Coherent settings mode e)
    (hflight : e.scheduler.inFlight = []) {op : Operation} (steers : Steers op) :
    Watchful settings compute (after [] (e.perform op)) := by
  cases op with
  | setValue name value user => exact h.setValue hc hflight name value user
  | advance seconds =>
    exact h.ofDebouncer [] hc trivial rfl (fun f hf => absurd hf List.not_mem_nil) rfl
      (Debouncer.keeps_advance h.keyed seconds) fun _ hp => hp
  | runTimers =>
    exact h.ofDebouncer [] hc trivial rfl (fun f hf => absurd hf List.not_mem_nil) rfl
      (Debouncer.keeps_runAll h.keyed) fun _ hp => hp
  | flush =>
    unfold Engine.perform
    dsimp only
    split
    · exact h.ofDebouncer [] hc trivial rfl (fun f hf => absurd hf List.not_mem_nil) rfl
        (Debouncer.keeps_flush h.keyed) fun _ hp => absurd hp List.not_mem_nil
    · exact h.restack hc hc.toSound rfl (fun _ hid => hid) rfl rfl (level_returned seated_nil _)
  | runNext =>
    exact h.pump hc (YieldPoint.runNextThen_ne_raised _ _ (by rintro y err ⟨⟩))
      (YieldPoint.mode_runNextThen _ _ rfl)
  | runAll => exact h.pump hc (by rintro y err ⟨⟩) rfl
  | _ => exact steers.elim

/-! ## Courses -/

/-- Watch is kept whatever happens, where no evaluation fails. -/
theorem happens (h : Watchful settings compute c) (hs : settings.InRange)
    (hmost : settings.historySize ≤ ConvergenceDetector.maxHistory)
    (reachable : Reachable settings mode c) (hstep : Happens Steers (fun _ => False) c c')
    (calm : ∀ err, c'.reply ≠ .raised (.evaluation err)) : Watchful settings compute c' := by
  obtain ⟨hsound, steady⟩ := steady_of_reachable reachable
  have hc : Coherent settings mode c.state := ⟨hsound, h.linked⟩
  cases hstep with
  | perform may =>
    obtain ⟨hb, -⟩ := steady.outside (by simp)
    refine h.perform hc ?_ may
    by_contra hn
    exact absurd (hb.flight hn) (Nat.lt_irrefl 0)
  | resume e f below r =>
    cases r with
    | returned a => exact h.resume hc steady hs hmost calm
    | raised err => exact h.recover hc
  | reenter may => exact may.elim
  | answer e k below r r' => exact h.answer hc r'
  | aside beside stack r =>
    have hc' := hc.toSound.aside beside
    obtain ⟨ws, ls, k, ns, writes, rfl⟩ := beside
    exact h.restack hc hc' rfl (fun _ hid => hid) rfl rfl ⟨h.level.seated, h.level.told⟩

/-- Where nothing was evaluated nothing is promised. -/
theorem unevaluated (apart : Apart settings e) (linked : e.Linked) (attached : e.attached = true)
    (bound : ∀ name ∈ e.tree.fields.map (·.1), e.bindings.any (·.1 == variableName name) = true)
    (announcing : e.announcing = []) (debouncer : e.debouncer = {}) (line : e.scheduler.line = [])
    (hn : ∀ n ∈ e.registry.nodes, n.evaluated = false) :
    Watchful settings false ⟨e, [], .returned default⟩ := by
  have hnone : Ready e ([] : List QueueEntry) :=
    ⟨List.nodup_nil, fun _ hx => absurd hx List.not_mem_nil,
      fun _ hx => absurd hx List.not_mem_nil, fun _ hx => absurd hx List.not_mem_nil⟩
  refine ⟨apart, linked, attached, bound, ?_, ?_, fun _ => ?_, ?_, level_returned seated_nil _,
    fun n hmem hp => ?_⟩
  · show ∀ n ∈ e.announcing, n.id ∉ n.linked
    rw [announcing]
    exact fun _ hn => absurd hn List.not_mem_nil
  · show e.debouncer.Keyed OfInput
    rw [debouncer]
    exact ⟨fun _ hp => absurd hp List.not_mem_nil, fun _ ht => absurd ht List.not_mem_nil⟩
  · show e.debouncer.pending = []
    rw [debouncer]
  · show Ready e e.scheduler.line
    rw [line]
    exact hnone
  · rw [hn n hmem] at hp
    rcases hp with hp | hp <;> cases hp

/-- Where all nodes are scheduled all are minded. -/
theorem scheduled (h : Watchful settings false ⟨e, [], r⟩) (hc : Coherent settings mode e)
    (hflight : e.scheduler.inFlight = []) :
    Watchful settings true (after [] (e.schedule e.links.order .normal none none).drain) := by
  obtain ⟨hscheduled, hwaits⟩ := h.schedule [] hc seated_nil rfl rfl hflight
    (fun _ hid => hc.order_perm.mem_iff.mp hid)
    (fun _ _ (hn : (none : Option String) = some _) => by cases hn) .normal none
    fun _ hw => absurd hw List.not_mem_nil
  refine { hscheduled with minded := fun n hn _ => Or.inr (Or.inl ?_) }
  have hholdings := (holdings_drain (e.schedule e.links.order .normal none none)).trans
    (holdings_schedule e _ _ _ _)
  rw [state_after, show (e.schedule e.links.order .normal none none).drain.state.registry =
    e.registry from congrArg (·.2.2.1) hholdings] at hn
  rw [List.map_append]
  exact List.mem_append_right _
    (hwaits n.id (hc.order_perm.mem_iff.mpr (List.mem_map_of_mem hn)))

/-- Watch is kept from the moment when the engine is attached. -/
theorem attach {tree : FormTree} (proper : tree.Proper) {debounces : Bool}
    (readable : (Engine.create tree settings mode debounces).Readable)
    (apart : Apart settings (Engine.create tree settings mode debounces).rescan.1)
    (compute : Bool) :
    Watchful settings compute
      (after [] ((Engine.create tree settings mode debounces).perform (.attach compute))) := by
  have hsound : Sound settings mode
      { Engine.create tree settings mode debounces with attached := true } :=
    (coherent_create proper settings mode debounces).toSound.congr rfl
  have hr : ({ Engine.create tree settings mode debounces with attached := true } :
      Engine).Readable := readable
  have hc := hsound.coherent_rescan hr
  obtain ⟨hattached, hdebouncer, hscheduler⟩ :
      ({ Engine.create tree settings mode debounces with
        attached := true } : Engine).rescan.1.attached = true ∧
      ({ Engine.create tree settings mode debounces with
        attached := true } : Engine).rescan.1.debouncer = {} ∧
      ({ Engine.create tree settings mode debounces with
        attached := true } : Engine).rescan.1.scheduler =
          (Engine.create tree settings mode debounces).scheduler :=
    ⟨rescan_unseen _ Engine.attached fun _ _ _ _ _ _ _ _ _ => rfl,
      rescan_unseen _ Engine.debouncer fun _ _ _ _ _ _ _ _ _ => rfl,
      rescan_unseen _ Engine.scheduler fun _ _ _ _ _ _ _ _ _ => rfl⟩
  have hwatchful : Watchful settings false ⟨({ Engine.create tree settings mode debounces with
      attached := true } : Engine).rescan.1, [], .returned default⟩ := by
    refine unevaluated ?_ hc.toLinked hattached (bound_rescan _) ?_ hdebouncer ?_ fun n hn => ?_
    · rw [rescan_attached]
      exact apart.congr rfl
    · rcases rescan_cases { Engine.create tree settings mode debounces with attached := true } with
        ⟨-, rows, diff, -, heq⟩ | ⟨-, heq⟩ <;> rw [heq] <;> rfl
    · rw [hscheduler]
      rfl
    · obtain ⟨m, hm, linked, rfl⟩ := exists_of_mem_rescan hn
      exact Registry.unevaluated_sync (fun _ hn => absurd hn List.not_mem_nil) _ m hm
  cases compute with
  | false =>
    rw [perform_attach_of_readable readable]
    exact hwatchful
  | true =>
    rw [perform_attach, recompute_eq hsound hr, inOrder_none hc]
    refine hwatchful.scheduled hc ?_
    rw [hscheduler]
    rfl

end Watchful

/-! ## Idle engines -/

/-- An update is made only in a drain. -/
theorem makes_eq_nil {stack : List (Activity Frame Ask)} (h : Nested stack)
    (hd : stack.countP isDrain = 0) : stack.flatMap makes = [] := by
  induction stack with
  | nil => rfl
  | cons f below ih =>
    rw [List.countP_eq_zero] at hd
    have hbelow : below.countP isDrain = 0 :=
      List.countP_eq_zero.mpr fun g hg => hd g (List.mem_cons_of_mem _ hg)
    have hnone : makes f = [] := by
      unfold makes
      split
      · -- An update fits only on the batch that it belongs to
        obtain ⟨taken, rest, rfl⟩ :
            ∃ taken rest, below = .own (.queue (.batch true taken)) :: rest := h.1
        exact absurd rfl (hd _ (List.mem_cons_of_mem _ List.mem_cons_self))
      · rfl
    rw [List.flatMap_cons, hnone, ih h.2 hbelow]
    rfl

/-- Where nothing is drained no update is made, and none is about to be. -/
theorem Steady.undrained (h : Steady c) (hd : c.state.scheduler.draining = false) :
    c.state.scheduler.inFlight = [] ∧ c.stack.flatMap makes = [] := by
  have hnone : ∀ {stack}, Balanced c.state.scheduler c.state.phase stack →
      c.state.scheduler.inFlight = [] ∧ stack.flatMap makes = [] := by
    intro stack hb
    have hdrains := hb.drains
    rw [hd, Bool.toNat_false] at hdrains
    have hcount : stack.countP isDrain = 0 := by omega
    refine ⟨?_, makes_eq_nil hb.nested hcount⟩
    by_contra hn
    have hflight := hb.flight hn
    have hle : stack.countP isBatch ≤ stack.countP isDrain :=
      List.countP_mono_left fun f _ hf => isDrain_of_isBatch hf
    omega
  cases h with
  | going balanced running failing => exact hnone balanced
  | ending balanced ending => exact hnone balanced
  | completing below stack balanced settled done empty flight returned =>
    refine ⟨flight, ?_⟩
    rw [stack]
    exact (hnone balanced).2

/-- Where the engine is idle what is minded is up to date, unless a frame is to handle a change. -/
theorem Watchful.idle (h : Watchful settings compute c) (steady : Steady c) (honest : Honest c)
    (idle : c.state.phase = .idle) {n : OutputNode} (hn : n ∈ c.state.registry.nodes)
    (promised : compute = true ∨ n.evaluated = true) :
    c.state.UpToDate n.id ∨ c.stack ≠ [] ∧
      ∃ v, Trigger.input v ∈ c.stack.flatMap handles ∧ reads n.dependencies v = true := by
  obtain ⟨truthful, undrained, unrested⟩ := honest.idle idle
  obtain ⟨hflight, hmakes⟩ := steady.undrained undrained
  have hpending : c.state.debouncer.pending = [] := by
    rw [rests, Bool.and_eq_false_iff] at unrested
    rcases unrested with hdebounces | hempty
    · exact h.untimed hdebounces
    · rw [Bool.not_eq_false', List.isEmpty_iff] at hempty
      exact hempty
  rcases h.minded n hn promised with hup | hwaits | ⟨v, hv, hread⟩
  · exact Or.inl hup
  · rw [hmakes, Scheduler.line, hflight, (truthful.cleared undrained).queue] at hwaits
    exact absurd hwaits List.not_mem_nil
  · rw [Debouncer.works, hpending, List.map_nil, List.append_nil] at hv
    refine Or.inr ⟨fun hstack => ?_, v, hv, hread⟩
    rw [hstack] at hv
    exact List.not_mem_nil hv

theorem breaks_eq_false (h : Level c) (hsmooth : isSmooth c.reply = true) : breaks c = false := by
  unfold breaks
  split
  · next e reports taken below err =>
    rcases h.told err rfl with hstack | htells
    · cases hstack
    · exact htells.elim
  · cases hsmooth
  · rfl

theorem isSmooth_attach {tree : FormTree} (proper : tree.Proper) {debounces : Bool}
    (readable : (Engine.create tree settings mode debounces).Readable) (compute : Bool) :
    isSmooth (after [] ((Engine.create tree settings mode debounces).perform
      (.attach compute))).reply = true := by
  cases compute with
  | false =>
    rw [perform_attach_of_readable readable]
    rfl
  | true =>
    have hc : Sound settings mode
        { Engine.create tree settings mode debounces with attached := true } :=
      (coherent_create proper settings mode debounces).toSound.congr rfl
    rw [perform_attach, recompute_eq hc readable]
    obtain ⟨phase, draining, fs, -, hafter⟩ := drain_cases
      (({ Engine.create tree settings mode debounces with
        attached := true } : Engine).rescan.1.schedule _ .normal none none)
    rw [hafter]
    rfl

/-- An engine is attached to a form that can be read and whose outputs read no outputs, and then
anything is done in any order that steers it, between any two batches.  Whenever it is idle each
output is up to date; where nothing was computed in the beginning, each one that was evaluated
since.  Seen by a watcher or listener, those may be out of date that read a field whose change is to
be handled behind it.  Each update evaluates its node, and whatever comes of it is judged to be new.
-/
theorem edits_not_lost {place : String} {entries : List (String × Data)}
    (hsettings : Settings.ofEntries place entries = .ok settings)
    (hmost : settings.historySize ≤ ConvergenceDetector.maxHistory) {tree : FormTree}
    (proper : tree.Proper) {debounces : Bool}
    (readable : (Engine.create tree settings mode debounces).Readable)
    (apart : Apart settings (Engine.create tree settings mode debounces).rescan.1)
    (h : Steered (after [] ((Engine.create tree settings mode debounces).perform
      (.attach compute))) c) :
    (c.state.phase = .idle → ∀ n ∈ c.state.registry.nodes, compute = true ∨ n.evaluated = true →
      c.state.UpToDate n.id ∨ c.stack ≠ [] ∧
        ∃ v, Trigger.input v ∈ c.stack.flatMap handles ∧ reads n.dependencies v = true) ∧
    ∀ entry below, c.stack = .own (.process entry) :: below →
      ∃ n, c.state.fate entry = .evaluated n ∧
        ∀ v fromPeer, ((c.state.counted n).detector.observe n.id v fromPeer).1 = .changed := by
  have hs := Settings.inRange_of_ofEntries hsettings
  have hcreate : Reachable settings mode
      ⟨.create tree settings mode debounces, [], .returned default⟩ := .create proper debounces
  have hattach := Reachable.perform hcreate (.attach compute)
  have hhonest : Honest (after [] ((Engine.create tree settings mode debounces).perform
      (.attach compute))) :=
    honest_perform (coherent_create proper settings mode debounces).toSound
      (truthful_create tree settings mode debounces) nofun
  have hsteers : ∀ op, Steers op → op ≠ .detach := by
    rintro op hop rfl
    exact hop
  obtain ⟨hw, hh⟩ : Watchful settings compute c ∧ Honest c := by
    refine h.keeps (P := fun c => Watchful settings compute c ∧ Honest c) (fun _ hop => hop.elim)
      (fun reachable hsmooth hp hstep hsmooth' => ?_) hattach
      (isSmooth_attach proper readable compute) ⟨.attach proper readable apart compute, hhonest⟩
    have hwatchful := hp.1.happens hs hmost reachable hstep fun err herr => by
      rw [herr] at hsmooth'
      cases hsmooth'
    exact ⟨hwatchful, honest_happens hsteers (fun _ hop => hop.elim) reachable
      (breaks_eq_false hp.1.level hsmooth) (breaks_eq_false hwatchful.level hsmooth') hp.2 hstep⟩
  obtain ⟨hsound, steady⟩ := steady_of_reachable (h.reachable (fun _ hop => hop.elim) hattach)
  refine ⟨fun idle n hn promised => hw.idle steady hh idle hn promised,
    fun entry below hstack => ?_⟩
  obtain ⟨e, stack, r⟩ := c
  cases hstack
  have hc : Coherent settings mode e := ⟨hsound, hw.linked⟩
  obtain ⟨-, hmakes, -⟩ := hw.level.seated
  obtain ⟨n, hfate, hfirst⟩ := hw.apart.fate_eq hc hs steady.running_of_process
    (hw.ready_front [.own (.process entry)] hmakes)
  exact ⟨n, hfate, observe_of_first hfirst⟩

/-! ## Some courses -/

/-- The configuration when an operation has come to its end. -/
def operated (c : Running) (op : Operation) : Running :=
  (among fun _ _ => .returned default).run 60 (after [] (c.state.perform op))

/-- The configuration when the engine was attached to this form. -/
def attachedSpare (settings : Settings) (debounces : Bool) : Running :=
  (among fun _ _ => .returned default).run 60
    (after [] ((Engine.create spareTree settings .manual debounces).perform (.attach true)))

theorem steered_attachedSpare (settings : Settings) (debounces : Bool)
    (hends : endsSmoothly (fun _ _ => .returned default) 60 (after []
      ((Engine.create spareTree settings .manual debounces).perform (.attach true))) = true) :
    Steered (after [] ((Engine.create spareTree settings .manual debounces).perform (.attach true)))
        (attachedSpare settings debounces) ∧ (attachedSpare settings debounces).stack = [] := by
  have hsmooth : ∀ k, isSmooth ((among fun _ _ => .returned default).run k (after [] ((Engine.create
      spareTree settings .manual debounces).perform (.attach true)))).reply = true :=
    isSmooth_of_endsSmoothly hends
  exact ⟨Course.runs 60 fun k _ => hsmooth k, stack_of_endsSmoothly hends⟩

theorem steered_operated (h : Steered c c' ∧ c'.stack = []) (op : Operation) (may : Steers op)
    (hends : endsSmoothly (fun _ _ => .returned default) 60 (after [] (c'.state.perform op)) =
      true) :
    Steered c (operated c' op) ∧ (operated c' op).stack = [] := by
  obtain ⟨hcourse, hstack⟩ := Course.operation h.2 may hends
  exact ⟨h.1.trans hcourse, hstack⟩

/-- One update to a batch. -/
def paced : Settings := Settings.setCount {} .batchSize 1

/-- What is read depends on the form alone. -/
theorem registry_rescan_create (tree : FormTree) (settings settings' : Settings)
    (mode mode' : YieldMode) (debounces debounces' : Bool) :
    (Engine.create tree settings mode debounces).rescan.1.registry =
      (Engine.create tree settings' mode' debounces').rescan.1.registry := by
  have hreread : (Engine.create tree settings mode debounces).reread.bindings =
      (Engine.create tree settings' mode' debounces').reread.bindings := rfl
  rw [rescan_eq, rescan_eq, hreread]
  cases rowIndices ((Engine.create tree settings' mode' debounces').reread.bindings.map
    Prod.snd) with
  | error err => rfl
  | ok rows => rfl

theorem apart_spareTree {debounces : Bool} (room : 2 ≤ settings.maxQueue)
    (numeric : settings.tolerance.isNaN = false) :
    Apart settings (Engine.create spareTree settings .manual debounces).rescan.1 := by
  have hregistry := registry_rescan_create spareTree settings {} .manual .manual debounces false
  obtain ⟨hseparate, hunskipped, hplain, hlength⟩ :
      (∀ n ∈ (Engine.create spareTree {} .manual false).rescan.1.registry.nodes,
        ∀ id ∈ (Engine.create spareTree {} .manual false).rescan.1.registry.ids,
          reads n.dependencies id = false) ∧
      (∀ n ∈ (Engine.create spareTree {} .manual false).rescan.1.registry.nodes,
        n.skipWhileEditing = false) ∧
      (∀ n ∈ (Engine.create spareTree {} .manual false).rescan.1.registry.nodes,
        Expr.wordsRead n.expression = []) ∧
      (Engine.create spareTree {} .manual false).rescan.1.registry.nodes.length = 2 := by
    decide +kernel
  rw [← hregistry] at hseparate hunskipped hplain hlength
  exact ⟨hseparate, hunskipped, hplain, hlength.symm ▸ room, numeric⟩

/-- Between the batches of the first drain a field is edited that was read already, and its change
is flushed. -/
theorem edits_not_lost_between :
    ∃ c, Steered (after [] ((Engine.create spareTree paced .manual true).perform (.attach true)))
        c ∧ c.stack = [] ∧ c.state.phase = .idle ∧ c.state.tree.read "a" = some "6" ∧
      ∀ n ∈ c.state.registry.nodes, c.state.UpToDate n.id := by
  have hsettings : Settings.ofEntries "" [("batch_size", .scalar (.integer 1))] = .ok paced :=
    Settings.ofEntries_count (by decide +kernel) (by decide)
  have hattached := steered_attachedSpare paced true (by decide +kernel)
  have hedited := steered_operated hattached (.setValue "x" (.text "5") true) trivial
    (by decide +kernel)
  have hflushed := steered_operated hedited .flush trivial (by decide +kernel)
  obtain ⟨hdrained, hstack⟩ := steered_operated hflushed .runAll trivial (by decide +kernel)
  obtain ⟨hall, -⟩ := edits_not_lost hsettings (by decide) proper_spareTree (by decide +kernel)
    (apart_spareTree (by decide) (by decide +kernel)) hdrained
  refine ⟨_, hdrained, hstack, by decide +kernel, by decide +kernel, fun n hn => ?_⟩
  exact (hall (by decide +kernel) n hn (Or.inl rfl)).resolve_right fun h => h.1 hstack

/-- Somebody begins to listen. -/
theorem steered_listen (h : Steered c c' ∧ c'.stack = []) (hsmooth : isSmooth c'.reply = true) :
    Steered c ⟨c'.state.listen.2, c'.stack, c'.reply⟩ ∧ c'.stack = [] :=
  ⟨h.1.trans (.single (.aside ⟨_, _, _, _, _, rfl⟩ c'.stack c'.reply) hsmooth), h.2⟩

/-- An operation is under way. -/
theorem steered_underway (h : Steered c c' ∧ c'.stack = []) (op : Operation) (may : Steers op)
    (hends : endsSmoothly (fun _ _ => .returned default) 60 (after [] (c'.state.perform op)) = true)
    (n : Nat) :
    Steered c ((among fun _ _ => .returned default).run n (after [] (c'.state.perform op))) := by
  have hsmooth : ∀ k, isSmooth ((among fun _ _ => .returned default).run k
      (after [] (c'.state.perform op))).reply = true :=
    isSmooth_of_endsSmoothly hends
  exact (h.1.trans (.single (.next h.2 may) (hsmooth 0))).trans (Course.runs n fun k _ => hsmooth k)

/-- The two fields were edited, and there is a listener. -/
def editedSpare : Running :=
  operated
    (operated ⟨(attachedSpare {} true).state.listen.2, (attachedSpare {} true).stack,
      (attachedSpare {} true).reply⟩ (.setValue "x" (.text "5") true))
    (.setValue "y" (.text "5") true)

/-- The edits are flushed, and the listener hears of the first one. -/
def flushedSpare : Running :=
  (among fun _ _ => .returned default).run 10 (after [] (editedSpare.state.perform .flush))

theorem steered_flushedSpare :
    Steered (after [] ((Engine.create spareTree {} .manual true).perform (.attach true)))
      flushedSpare := by
  -- One evaluation of all four operations.
  obtain ⟨hattaches, hsmooth, hedits, hedits', hflushes⟩ :
      endsSmoothly (fun _ _ => .returned default) 60 (after []
        ((Engine.create spareTree {} .manual true).perform (.attach true))) = true ∧
      isSmooth (attachedSpare {} true).reply = true ∧
      endsSmoothly (fun _ _ => .returned default) 60 (after []
        ((attachedSpare {} true).state.listen.2.perform (.setValue "x" (.text "5") true))) = true ∧
      endsSmoothly (fun _ _ => .returned default) 60 (after []
        ((operated ⟨(attachedSpare {} true).state.listen.2, (attachedSpare {} true).stack,
          (attachedSpare {} true).reply⟩ (.setValue "x" (.text "5") true)).state.perform
            (.setValue "y" (.text "5") true))) = true ∧
      endsSmoothly (fun _ _ => .returned default) 60
        (after [] (editedSpare.state.perform .flush)) = true := by
    decide +kernel
  have hheard := steered_listen (steered_attachedSpare {} true hattaches) hsmooth
  have hrests := steered_operated hheard (.setValue "x" (.text "5") true) trivial hedits
  have hrests' := steered_operated hrests (.setValue "y" (.text "5") true) trivial hedits'
  exact steered_underway hrests' .flush trivial hflushes 10

/-- An idle engine may have outputs that are out of date: where more values are to be remembered
than can be, an edit lets it come to rest after it has failed; where nothing was computed in the
beginning; and while a listener is told of the first one of two changes that are flushed. -/
theorem idle_outdated :
    (∃ entries settings c, Settings.ofEntries "" entries = .ok settings ∧
      Apart settings (Engine.create spareTree settings .manual false).rescan.1 ∧
      Steered (after [] ((Engine.create spareTree settings .manual false).perform (.attach true)))
        c ∧ c.stack = [] ∧ c.state.phase = .idle ∧
      ∃ n ∈ c.state.registry.nodes, ¬ c.state.UpToDate n.id) ∧
    Apart {} (Engine.create spareTree {} .manual true).rescan.1 ∧
    (∃ c, Steered (after [] ((Engine.create spareTree {} .manual true).perform (.attach false))) c ∧
      c.stack = [] ∧ c.state.phase = .idle ∧
      ∃ n ∈ c.state.registry.nodes, ¬ c.state.UpToDate n.id) ∧
    ∃ c k below,
      Steered (after [] ((Engine.create spareTree {} .manual true).perform (.attach true))) c ∧
      c.stack = .ask k :: below ∧ c.state.phase = .idle ∧
      ∃ n ∈ c.state.registry.nodes, ¬ c.state.UpToDate n.id := by
  have hfailed := steered_attachedSpare excessive false (by decide +kernel)
  obtain ⟨hedited, hstack⟩ := steered_operated hfailed (.setValue "z" (.text "5") true) trivial
    (by decide +kernel)
  have hasked : flushedSpare.stack.head?.any isAsk = true := by decide +kernel
  obtain ⟨k, below, hasks⟩ := exists_of_isAsk hasked
  refine ⟨⟨_, excessive, _, ofEntries_excessive, apart_spareTree (by decide) (by decide +kernel),
    hedited, hstack, by decide +kernel, by decide +kernel⟩,
    apart_spareTree (by decide) (by decide +kernel),
    ⟨_, .refl, ?_, ?_, ?_⟩, _, k, below, steered_flushedSpare, hasks, ?_, ?_⟩
  · exact List.isEmpty_iff.mp (by decide +kernel)
  · decide +kernel
  · decide +kernel
  · decide +kernel
  · decide +kernel

end LiveForm.Engine
