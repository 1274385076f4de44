import LiveForm.Proofs.Engine.Confluent
import LiveForm.Proofs.Engine.Scoping

/-!
# What a failure leaves

An evaluation that fails so that it cannot be passed over ends the operation that asked for it.
The scheduler lets go of its batch on the way out and its flag, so that the next drain can begin;
but nobody ends the cycle.  Its scope is still set, and what had not had its turn still waits.  All
of that lies within the scope that the cycle had, and the next cycle that ends clears it up.
-/

namespace LiveForm.Engine

open Machine (after state_after Runs Visits)

variable {settings : Settings} {mode : YieldMode} {e e₀ e₁ e' : Engine} {scope : Option String}
  {c : Running} {r : Reply Response EngineError} {op : Operation}
  {answer : Engine → Ask → Reply Response EngineError}

/-! ## No node waits twice -/

/-- The queue has at most one entry for each node. -/
def Single (e : Engine) : Prop := e.scheduler.queue.nodes.Nodup

namespace Single

theorem congr (h : Single e) (hq : e'.scheduler.queue = e.scheduler.queue) : Single e' := by
  unfold Single
  rwa [hq]

theorem queued (h : Single e) (hq : Queued e e') : Single e' := hq.nodup h

theorem rescan (h : Single e) : Single e.rescan.1 :=
  h.congr (congrArg (·.queue) (scheduler_rescan e))

/-- A cycle that begins lets each of its nodes wait once. -/
theorem cycle (h : Single e) (ids : List String) (priority : Priority)
    (source scope : Option String) :
    Single (e.schedule ids priority source scope).drain.state := by
  obtain ⟨scope', passes, hqueued⟩ := queued_schedule e ids priority source scope
  have hscheduled : Single (e.schedule ids priority source scope) := hqueued.nodup h
  obtain ⟨phase, draining, fs, -, hdrain⟩ := drain_cases (e.schedule ids priority source scope)
  rw [← state_after [], hdrain]
  exact hscheduled.congr rfl

theorem handle (h : Single e) (t : Trigger) : Single (e.handle t).state := by
  rcases handle_cases e t with heq | ⟨e₁, ids, priority, source, rfl | rfl, heq⟩
  · exact heq ▸ h.rescan
  · exact heq ▸ h.cycle _ _ _ _
  · exact heq ▸ h.rescan.cycle _ _ _ _

theorem settle (h : Single e) (t : Trigger) (delay : Binary64) :
    Single (e.settle t delay).state := by
  unfold Engine.settle
  split
  · exact h.congr rfl
  · exact h.handle t

theorem recompute (h : Single e) (scope : Option String) : Single (e.recompute scope).state := by
  rcases recompute_cases e scope with ⟨err, heq⟩ | ⟨ids, heq⟩
  · exact heq ▸ h.rescan
  · exact heq ▸ h.rescan.cycle _ _ _ _

theorem process (h : Single e) (hw : e.writing = false) (entry : QueueEntry) :
    Single (e.process entry).state := by
  rcases process_cases hw entry with ⟨e', r, heq, -, -, hs | hs⟩ | ⟨n, v, e', ws, -, heq, -, -, hs⟩
  · rw [heq]
    exact h.congr (congrArg (·.queue) hs)
  · rw [heq]
    show e'.scheduler.queue.nodes.Nodup
    rw [hs]
    exact List.nodup_nil
  · rw [heq]
    exact h.congr (congrArg (·.queue) hs)

theorem propagate (h : Single e) (entry : QueueEntry) : Single (e.propagate entry).state := by
  obtain ⟨e', r, heq, hqueued⟩ := propagate_reply e entry
  have h' : Single { e with announcing := e.announcing.tail } := h
  rw [heq]
  exact h'.queued hqueued

theorem resume (h : Single e) (hc : Sound settings mode e) (f : Frame) :
    Single (e.resume f).state := by
  cases f with
  | queue f =>
    show Single (e.ofScheduler (e.scheduler.resume f)).state
    rw [ofScheduler, Move.state_embed]
    exact e.scheduler.nodup_resume f h
  | clock f =>
    show Single (e.ofDebouncer _).state
    rw [ofDebouncer, Move.state_embed]
    exact h
  | handle t => exact h.handle t
  | process entry => exact h.process hc.writing entry
  | batchDone => exact h
  | watchers id old new rest => exact (state_tellWatchers e id old new rest).symm ▸ h
  | propagate entry => exact h.propagate entry
  | complete => exact h.congr (by rw [Engine.resume, scheduler_complete])
  | listeners changed rest => exact (state_tellListeners e changed rest).symm ▸ h

theorem recover (h : Single e) (f : Frame) (err : EngineError) :
    Single (e.recover f err).state := by
  cases f with
  | queue f =>
    have hqueue : (e.scheduler.unwind f).queue = e.scheduler.queue := by
      cases f <;> rfl
    exact h.congr hqueue
  | watchers id old new rest =>
    rw [Engine.recover, state_tellWatchers]
    exact h
  | listeners changed rest =>
    rw [Engine.recover, state_tellListeners]
    exact h
  | clock _ | handle _ | process _ | batchDone | propagate _ | complete => exact h

theorem notifyInput (h : Single e) (hw : e.writing = false) (name : String) (user : Bool) :
    Single (e.notifyInput name user).state := by
  rw [notifyInput_eq hw]
  have hp := (progress_edited (e.bound name) name user).trans (progress_bound e name)
  have hscheduler : ((e.bound name).edited name user).scheduler = e.scheduler := congrArg (·.1) hp
  split
  · exact h.congr (congrArg (fun p => p.1.queue) (progress_bound e name))
  · exact (h.congr (congrArg (·.queue) hscheduler)).settle _ _

theorem changeTree (h : Single e) (hw : e.writing = false) (change : Except TreeError FormTree)
    (event : TreeEvent) (notify : Bool) : Single (e.changeTree change event notify).state := by
  unfold Engine.changeTree
  split
  · exact h
  · next tree =>
    have h' : Single { e with tree } := h
    dsimp only
    split
    · unfold deliver
      split
      · split
        · exact h'.notifyInput hw _ _
        · exact h'.settle _ _
      · exact h'
    · exact h'

theorem pump (h : Single e) {m : Scheduler.Move EngineError}
    (hm : m.state.queue = e.scheduler.queue) : Single (e.pump m).state := by
  unfold Engine.pump
  split
  · rw [ofScheduler, Move.state_embed]
    exact h.congr hm
  · exact h

theorem perform (h : Single e) (hc : Sound settings mode e) (op : Operation) :
    Single (e.perform op).state := by
  cases op with
  | attach compute =>
    have h' : Single { e with attached := true } := h
    cases compute with
    | true => exact h'.recompute none
    | false =>
      obtain ⟨r, heq⟩ := reply_attach e
      exact heq ▸ h'.rescan
  | detach => exact List.nodup_nil
  | recompute scope => exact h.recompute scope
  | rescan =>
    obtain ⟨r, heq⟩ := reply_rescan e
    exact heq ▸ h.rescan
  | notifyInput name user => exact h.notifyInput hc.writing name user
  | notifyLayout => exact h.settle _ _
  | flush =>
    unfold Engine.perform
    dsimp only
    split
    · rw [ofDebouncer, Move.state_embed]
      exact h
    · exact h
  | advance seconds | runTimers =>
    show Single (e.ofDebouncer _).state
    rw [ofDebouncer, Move.state_embed]
    exact h
  | runNext => exact h.pump (e.scheduler.queue_ofYield _)
  | runAll => exact h.pump (e.scheduler.queue_ofYield _)
  | focus name => exact h
  | addField _ _ _ _ | addOutput _ _ _ | removeField _ _ | setValue _ _ _ | write _ _ =>
    unfold Engine.perform
    exact h.changeTree hc.writing _ _ _

end Single

/-- Whatever is done to an engine, no node waits twice. -/
theorem single_of_arises {start : FormTree → Prop} {permits : Engine → Operation → Prop}
    (h : Arises settings mode start permits c) : Single c.state := by
  induction h with
  | create proper _ debounces => exact List.nodup_nil
  | perform h _ ih => exact state_after (ρ := Response) _ _ ▸ ih.perform h.sound _
  | @resume e f below r h ih =>
    cases r with
    | returned r => exact state_after below (e.resume f) ▸ ih.resume h.sound f
    | raised err => exact state_after below (e.recover f err) ▸ ih.recover f err
  | reenter h _ ih => exact state_after (ρ := Response) _ _ ▸ ih.perform h.sound _
  | answer _ r' ih => exact ih
  | aside _ beside ih =>
    obtain ⟨ws, ls, k, ns, writes, rfl⟩ := beside
    exact ih

/-- A node that is scheduled twice waits once, where it was put later. -/
example : ((Engine.create {} {} .immediate false).schedule ["a", "b", "a"] .normal none
    none).scheduler.queue.nodes = ["b", "a"] := by
  decide +kernel

/-! ## The cycle that failed -/

/-- The scope of the cycle that the operation begins, if it begins one. -/
def Operation.reach : Operation → Option (Option String)
  | .attach true => some none
  | .recompute scope => some scope
  | .notifyInput .. | .setValue .. | .write .. => some none
  | _ => none

/-- A cycle that begins in an idle engine is restricted to its scope, and nothing waited before. -/
theorem restricted_perform (hc : Sound settings .immediate e) (hq : e.Quiet)
    (hidle : e.phase ≠ .evaluating) (hreach : op.reach = some scope)
    (hbegun : (after [] (e.perform op)).stack ≠ []) :
    ∃ e', Sound settings .immediate e' ∧ e'.Quiet ∧
      Restricted settings .immediate e' scope (after [] (e.perform op)) := by
  have hedit : ∀ {op : Operation}, op.changesField = true →
      (after [] (e.perform op)).stack ≠ [] → ∃ e', Sound settings .immediate e' ∧ e'.Quiet ∧
        Restricted settings .immediate e' none (after [] (e.perform op)) := by
    intro op hchange hbegun
    obtain ⟨e', ids, priority, source, hs, -⟩ := scheduling_edit hc hq hidle hchange hbegun
    refine ⟨e', hs.sound, hs.quiet, ?_⟩
    rw [hs.eq]
    -- Without a scope every node is within it
    exact restricted_schedule hs.sound (.inl hs.idle) (fun _ _ => .inr fun _ _ => rfl) _ _
  have hrecompute : ∀ (e : Engine) (scope : Option String), Sound settings .immediate e →
      e.Quiet → e.phase ≠ .evaluating → (after [] (e.recompute scope)).stack ≠ [] →
      ∃ e', Sound settings .immediate e' ∧ e'.Quiet ∧
        Restricted settings .immediate e' scope (after [] (e.recompute scope)) := by
    intro e scope hc hq hidle hbegun
    have hr : e.Readable := by
      by_contra hn
      rw [recompute_of_not_readable hn] at hbegun
      exact hbegun rfl
    exact ⟨e.rescan.1, hc.rescan, hq.congr (progress_rescan e),
      restricted_recompute hc hr (.inl hidle)⟩
  cases op with
  | attach compute =>
    cases compute with
    | true =>
      cases hreach
      exact hrecompute { e with attached := true } none (hc.congr rfl) (hq.congr rfl) hidle hbegun
    | false => cases hreach
  | recompute scope =>
    cases hreach
    exact hrecompute e _ hc hq hidle hbegun
  | notifyInput _ _ | setValue _ _ _ | write _ _ =>
    cases hreach
    exact hedit rfl hbegun
  | _ => cases hreach

/-- Where nothing waited before, whatever is within the scope of the cycle lies in the scope. -/
theorem Untouched.inScope_of_within (h : Untouched e₀ scope e) (hline : e₀.scheduler.line = [])
    {id : String} (hid : Within e₀ scope id) {n : OutputNode}
    (hn : e.registry.find? id = some n) : inScope n.scope scope = true := by
  obtain ⟨m, hm, hdeclared⟩ := exists_of_declared h.declared.symm hn
  have hscope : m.declared.scope = n.declared.scope := by rw [hdeclared]
  rcases hid with hwaits | hid
  · rw [hline] at hwaits
    cases hwaits
  · exact hscope ▸ hid m hm

/-- A recompute that raises nothing ends, and clears up what a failure has left. -/
theorem runs_recompute (hs : settings.InRange)
    (hmost : settings.historySize ≤ ConvergenceDetector.maxHistory)
    (hc : Sound settings .immediate e) (hstalled : e.Stalled) (hsingle : Single e)
    (hread : e.Readable) (calm : Calm answer (after [] (e.recompute scope))) :
    ∃ us e' a, Runs (among answer) updates (after [] (e.recompute scope)) us
        ⟨e', [], .returned a⟩ ∧
      e'.Quiet ∧ e'.passes = [] ∧ e'.changed = [] ∧ e'.scope = none ∧ e'.phase ≠ .evaluating := by
  rw [recompute_eq hc hread] at calm ⊢
  have hstalled' : e.rescan.1.Stalled := hstalled.congr (progress_rescan e)
  obtain ⟨us, e', ns, hd, hu, hr⟩ :=
    runs_cycle_of_stalled hs hmost (hc.coherent_rescan hread) hstalled' hsingle.rescan calm
  refine ⟨us, e'.finished ns, default, hr, hd.quiet hu ns, rfl, rfl, rfl, ?_⟩
  show (if e'.rests then Phase.queued else .idle) ≠ .evaluating
  split
  · intro h
    cases h
  · intro h
    cases h

/-- When something has failed, a scheduler with an immediate yield point drains no more and has
nothing in flight, and the next recompute that raises nothing leaves an idle engine, whatever
waits.  If nobody re-entered, what is left of the cycle lies in its scope: the scope that is still
set is this one, what waits lies in it, and a recompute of the same scope evaluates nothing else. -/
theorem failure_left {place : String} {entries : List (String × Data)} {err : EngineError}
    (hsettings : Settings.ofEntries place entries = .ok settings)
    (hmost : settings.historySize ≤ ConvergenceDetector.maxHistory)
    (reachable : Reachable settings .immediate ⟨e, [], r⟩) (idle : e.phase ≠ .evaluating)
    (cycle : op.reach = some scope) (begun : (after [] (e.perform op)).stack ≠ [])
    (course : Course (fun _ => False) (· ≠ .detach) (fun _ => True) (after [] (e.perform op))
      ⟨e₁, [], .raised err⟩) :
    e₁.Stalled ∧ e₁.writing = false ∧
    (∀ answer, Visits (among answer) (after [] (e.perform op)) ⟨e₁, [], .raised err⟩ →
      e₁.scope = scope ∧
      (∀ entry ∈ e₁.scheduler.queue.entries, ∀ n, e₁.registry.find? entry.node = some n →
        inScope n.scope scope = true) ∧
      (e₁.Unchanged → ∀ answer c u id,
        Visits (among answer) (after [] (e₁.recompute scope)) c → updates c = some u →
        u.evaluated? = some id → ∃ n ∈ e₁.registry.nodes, n.id = id ∧
          inScope n.scope scope = true)) ∧
    (e₁.Readable → ∀ answer scope', Calm answer (after [] (e₁.recompute scope')) →
      ∃ us e₂ a, Runs (among answer) updates (after [] (e₁.recompute scope')) us
          ⟨e₂, [], .returned a⟩ ∧
        e₂.Quiet ∧ e₂.passes = [] ∧ e₂.changed = [] ∧ e₂.scope = none ∧
        e₂.phase ≠ .evaluating) := by
  have hreached : Reachable settings .immediate ⟨e₁, [], .raised err⟩ :=
    course.reachable (fun _ h => h) (.perform reachable op)
  obtain ⟨hc, -⟩ := steady_of_reachable hreached
  have hstalled := stalled_of_reachable hreached
  refine ⟨hstalled, hc.writing, fun answer hv => ?_, fun hread answer scope' calm => ?_⟩
  · obtain ⟨hc₀, -⟩ := steady_of_reachable reachable
    have hquiet := quiet_of_reachable reachable idle
    obtain ⟨e', hc', hquiet', hbegins⟩ := restricted_perform hc₀ hquiet idle cycle begun
    have hline : e'.scheduler.line = [] := by
      rw [Scheduler.line, hquiet'.queue, hquiet'.flight]
      rfl
    have hrestricted := hbegins.visits hc' hv
    have hbounded : Bounded e' scope e₁ := by
      cases hrestricted.place with
      | left bounded _ => exact bounded
    have hwaiting : ∀ entry ∈ e₁.scheduler.queue.entries, ∀ n,
        e₁.registry.find? entry.node = some n → inScope n.scope scope = true :=
      fun entry hentry n hn => hrestricted.untouched.inScope_of_within hline
        (hbounded.line entry (List.mem_append_right _ hentry)) hn
    refine ⟨hbounded.restricted, hwaiting, fun hunchanged answer c u id hv hu hid => ?_⟩
    by_cases hr : e₁.Readable
    swap
    · obtain ⟨-, hstack⟩ := visits_of_not_readable hr hv
      rw [updates, hstack] at hu
      cases hu
    have hagain := (restricted_recompute hc hr (.inr hbounded.restricted)).visits hc.rescan hv
    obtain ⟨m, hm, hid, hwithin⟩ := hagain.evaluated hu hid
    obtain ⟨links, hnodes⟩ := nodes_rescan_of_suits hc.ids hunchanged
    rw [hnodes] at hm
    obtain ⟨n, hn, rfl⟩ := List.mem_map.mp hm
    rw [scheduler_rescan] at hwithin
    refine ⟨n, hn, hid, hwithin.elim (fun hwaits => ?_) fun hscope => hscope⟩
    obtain ⟨entry, hentry, hnode⟩ := List.mem_map.mp hwaits
    have hqueue : entry ∈ e₁.scheduler.inFlight ++ e₁.scheduler.queue.entries := hentry
    rw [hstalled.flight] at hqueue
    refine hwaiting entry hqueue n ?_
    rw [hnode, ← hid]
    exact Registry.find?_of_mem hc.ids hn
  · exact runs_recompute (Settings.inRange_of_ofEntries hsettings) hmost hc hstalled
      (single_of_arises hreached.used.arises) hread calm

/-- Two outputs that are computed for one scope, of which the first cannot be evaluated, and two
that read each other for others. -/
def brittleTree : FormTree :=
  ((((({} : FormTree).withField "x" "1" "").withOutput
    { id := "bad", expression := "é", scope := "s" } "").withOutput
    { id := "late", expression := "x", scope := "s" } "").withOutput
    { id := "near", expression := "x", scope := "t" } "").withOutput
    { id := "far", expression := "near", scope := "u" } ""

theorem proper_brittleTree : brittleTree.Proper :=
  (((((FormTree.proper_empty false).withField _ _ _).withOutput _ _).withOutput _ _).withOutput _
    _).withOutput _ _

/-- The engine that has read them and computed nothing, and takes one update at a time. -/
def brittleEngine : Engine :=
  ((Engine.create brittleTree oneByOne .immediate false).perform (.attach false)).state

theorem reachable_brittleEngine :
    Reachable oneByOne .immediate ⟨brittleEngine, [], .returned default⟩ := by
  have hattached : Reachable oneByOne .immediate
      (after [] ((Engine.create brittleTree oneByOne .immediate false).perform (.attach false))) :=
    .perform (.create proper_brittleTree false) _
  have hreadable : (Engine.create brittleTree oneByOne .immediate false).Readable := by
    decide +kernel
  rw [perform_attach_of_readable hreadable] at hattached
  rw [brittleEngine, perform_attach_of_readable hreadable]
  exact hattached

/-- What a recompute of the first scope comes to. -/
def broken : Running :=
  (among fun _ _ => .returned default).run 40
    (after [] (brittleEngine.perform (.recompute (some "s"))))

theorem broken_raises : ∃ err, broken = ⟨broken.state, [], .raised (.evaluation err)⟩ := by
  have hstack : broken.stack = [] := List.isEmpty_iff.mp (by decide +kernel)
  obtain ⟨err, hreply⟩ := exists_of_isCalm_eq_false (r := broken.reply) (by decide +kernel)
  refine ⟨err, ?_⟩
  rw [← hstack, ← hreply]

/-- The recompute of another scope after it raises nothing. -/
theorem calm_broken :
    Calm (fun _ _ => .returned default) (after [] (broken.state.recompute (some "t"))) := by
  have hends : endsSmoothly (fun _ _ => .returned default) 60
      (after [] (broken.state.recompute (some "t"))) = true := by
    decide +kernel
  exact calm_of_endsSmoothly hends

/-- It leaves the second output waiting, and the next recompute clears that up. -/
theorem failure_left_brittle :
    ∃ e₁ err, Visits (among fun _ _ => .returned default)
        (after [] (brittleEngine.perform (.recompute (some "s"))))
        ⟨e₁, [], .raised (.evaluation err)⟩ ∧
      e₁.Stalled ∧ e₁.scheduler.queue.nodes = ["late"] ∧
      ∃ us e₂ a, Runs (among fun _ _ => .returned default) updates
          (after [] (e₁.recompute (some "t"))) us ⟨e₂, [], .returned a⟩ ∧
        e₂.Quiet ∧ e₂.scope = none := by
  have hsettings : Settings.ofEntries "" [("batch_size", .scalar (.integer 1))] = .ok oneByOne :=
    Settings.ofEntries_count (by decide +kernel) (by decide)
  obtain ⟨err, hbroken⟩ := broken_raises
  have hcourse : Course (fun _ => False) (· ≠ .detach) (fun _ => True)
      (after [] (brittleEngine.perform (.recompute (some "s")))) broken :=
    Course.runs 40 fun _ _ => trivial
  have hvisits : Visits (among fun _ _ => .returned default)
      (after [] (brittleEngine.perform (.recompute (some "s")))) broken := ⟨40, rfl⟩
  rw [hbroken] at hcourse hvisits
  have hbegun : (after [] (brittleEngine.perform (.recompute (some "s")))).stack ≠ [] :=
    fun h => absurd (List.isEmpty_iff.mpr h) (by decide +kernel)
  obtain ⟨hstalled, -, -, hclears⟩ := failure_left hsettings (by decide) reachable_brittleEngine
    (by decide +kernel) rfl hbegun hcourse
  obtain ⟨us, e₂, a, hruns, hquiet, -, -, hscope, -⟩ :=
    hclears (by decide +kernel) (fun _ _ => .returned default) (some "t") calm_broken
  exact ⟨_, err, hvisits, hstalled, by decide +kernel, us, e₂, a, hruns, hquiet, hscope⟩

/-- Nobody ends the cycle that failed: the engine is still in the middle of it, with its passes and
its scope.  So a recompute of another scope counts as part of it, and comes to outputs in neither
scope. -/
theorem failure_remains :
    ∃ entries settings e r e₁ err c u, Settings.ofEntries "" entries = .ok settings ∧
      Reachable settings .immediate ⟨e, [], r⟩ ∧ e.phase = .idle ∧ e.Unchanged ∧
      Visits (among fun _ _ => .returned default) (after [] (e.perform (.recompute (some "s"))))
        ⟨e₁, [], .raised (.evaluation err)⟩ ∧
      e₁.phase = .evaluating ∧ e₁.passes ≠ [] ∧ e₁.scope = some "s" ∧
      e₁.scheduler.queue.nodes = ["late"] ∧
      Calm (fun _ _ => .returned default) (after [] (e₁.recompute (some "t"))) ∧
      Visits (among fun _ _ => .returned default) (after [] (e₁.recompute (some "t"))) c ∧
      updates c = some u ∧ u.evaluated? = some "far" ∧
      ∃ n, e₁.registry.find? "far" = some n ∧ inScope n.scope (some "t") = false := by
  have hsettings : Settings.ofEntries "" [("batch_size", .scalar (.integer 1))] = .ok oneByOne :=
    Settings.ofEntries_count (by decide +kernel) (by decide)
  obtain ⟨err, hbroken⟩ := broken_raises
  have hvisits : Visits (among fun _ _ => .returned default)
      (after [] (brittleEngine.perform (.recompute (some "s")))) broken := ⟨40, rfl⟩
  rw [hbroken] at hvisits
  have hevaluated : (updates ((among fun _ _ => .returned default).run 17
      (after [] (broken.state.recompute (some "t"))))).bind Update.evaluated? = some "far" := by
    decide +kernel
  have hscope : (broken.state.registry.find? "far").any
      (fun n => !inScope n.scope (some "t")) = true := by decide +kernel
  obtain ⟨u, hu, hfar⟩ := Option.bind_eq_some_iff.mp hevaluated
  obtain ⟨n, hn, hout⟩ := (Option.any_eq_true _ _).mp hscope
  exact ⟨_, _, _, _, _, err, _, u, hsettings, reachable_brittleEngine, by decide +kernel,
    by decide +kernel, hvisits, by decide +kernel, by decide +kernel, by decide +kernel,
    by decide +kernel, calm_broken, ⟨17, rfl⟩, hu, hfar, n, hn, by simpa using hout⟩

end LiveForm.Engine
