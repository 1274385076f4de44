import LiveForm.Proofs.Engine.Balanced

/-!
# Reachable configurations

An engine is used by operations, from outside or by a watcher or listener that is being told
something.  Whatever the order, between any two steps its parts are sound and its stack is balanced.
-/

namespace LiveForm.Engine

open Machine (after state_after)

variable {settings : Settings} {mode : YieldMode} {e : Engine}
  {below : List (Activity Frame Ask)}

/-! ## Moves of the debouncer -/

/-- Frames of the debouncer, and changes to handle, may be put on any stack. -/
theorem Balanced.clock {s : Scheduler} {phase : Phase} (h : Balanced s phase below)
    (hs : Exposed below) (fs : List (Activity (Debouncer.Frame Trigger Trigger) Trigger)) :
    Balanced s phase (fs.map (Activity.elim (fun f => .own (.clock f)) fun t => .own (.handle t)) ++
      below) ∧
      Exposed (fs.map (Activity.elim (fun f => .own (.clock f)) fun t => .own (.handle t)) ++
        below) := by
  induction fs with
  | nil => exact ⟨h, hs⟩
  | cons f fs ih =>
    obtain ⟨hb, hset⟩ := ih
    cases f with
    | own f => exact ⟨hb.push ⟨rfl, rfl⟩ hset, trivial⟩
    | ask t => exact ⟨hb.push ⟨rfl, rfl⟩ hset, trivial⟩

theorem steady_ofDebouncer (h : Balanced e.scheduler e.phase below) (hs : Exposed below)
    (hh : e.halted = false) (m : Debouncer.Move Trigger Trigger EngineError) :
    Steady (after below (e.ofDebouncer m)) := by
  match m with
  | .call d fs => exact .returning (h.clock hs fs).1 hh rfl
  | .reply d (.returned r) => exact .returning h hh rfl
  | .reply d (.raised err) => exact .exposed h hh hs

/-! ## Handling changes -/

theorem scheduler_schedule (e : Engine) (ids : List String) (priority : Priority)
    (source scope : Option String) :
    (e.schedule ids priority source scope).scheduler =
        { e.scheduler with queue := (e.schedule ids priority source scope).scheduler.queue } ∧
      (e.schedule ids priority source scope).phase = e.phase ∧
      (e.schedule ids priority source scope).halted = e.halted := by
  obtain ⟨scope', passes, ⟨queue, ns, heq⟩, -, -⟩ := queued_schedule e ids priority source scope
  rw [heq]
  exact ⟨rfl, rfl, rfl⟩

theorem steady_schedule (h : Balanced e.scheduler e.phase below) (hs : Exposed below)
    (hh : e.halted = false) (ids : List String) (priority : Priority)
    (source scope : Option String) :
    Steady (after below (e.schedule ids priority source scope).drain) := by
  obtain ⟨hscheduler, hphase, hhalted⟩ := scheduler_schedule e ids priority source scope
  exact steady_drain (hphase ▸ h) hs.settled hscheduler (hhalted.trans hh)

/-- The scheduler, the phase and whether the cycle was broken off. -/
def progress (e : Engine) := (e.scheduler, e.phase, e.halted)

theorem progress_rescan (e : Engine) : e.rescan.1.progress = e.progress :=
  rescan_unseen e progress fun _ _ _ _ _ _ _ _ _ => rfl

theorem scheduler_rescan (e : Engine) : e.rescan.1.scheduler = e.scheduler :=
  congrArg (·.1) (progress_rescan e)

theorem phase_rescan (e : Engine) : e.rescan.1.phase = e.phase :=
  congrArg (·.2.1) (progress_rescan e)

theorem Balanced.congr {e e' : Engine} (h : Balanced e.scheduler e.phase below)
    (hp : e'.progress = e.progress) : Balanced e'.scheduler e'.phase below := by
  simp only [progress, Prod.mk.injEq] at hp
  rw [hp.1, hp.2.1]
  exact h

theorem halted_of_progress {e e' : Engine} (hp : e'.progress = e.progress) :
    e'.halted = e.halted := congrArg (·.2.2) hp

theorem steady_handle (h : Balanced e.scheduler e.phase below) (hs : Exposed below)
    (hh : e.halted = false) (t : Trigger) : Steady (after below (e.handle t)) := by
  have hp := progress_rescan e
  have hh' := (halted_of_progress hp).trans hh
  rcases handle_cases e t with heq | ⟨e₁, ids, priority, source, rfl | rfl, heq⟩
  · rw [heq]
    exact .exposed (h.congr hp) hh' hs
  · rw [heq]
    exact steady_schedule h hs hh _ _ _ _
  · rw [heq]
    exact steady_schedule (h.congr hp) hs hh' _ _ _ _

theorem steady_recompute (h : Balanced e.scheduler e.phase below) (hs : Exposed below)
    (hh : e.halted = false) (scope : Option String) :
    Steady (after below (e.recompute scope)) := by
  have hp := progress_rescan e
  have hh' := (halted_of_progress hp).trans hh
  rcases recompute_cases e scope with ⟨err, heq⟩ | ⟨ids, heq⟩
  · rw [heq]
    exact .exposed (h.congr hp) hh' hs
  · rw [heq]
    exact steady_schedule (h.congr hp) hs hh' _ _ _ _

/-! ## Processing an update -/

theorem progress_judged {e' : Engine} {n : OutputNode} (h : e.Judged n e') :
    e'.progress = e.progress :=
  h.unseen progress fun _ _ _ => rfl

theorem progress_stored {e' : Engine} {n : OutputNode} {v : Value} (h : e.Stored n v e') :
    e'.progress = e.progress := by
  obtain ⟨written, ns, rfl, -⟩ := h
  rfl

/-- Above a batch a node may be evaluated. -/
theorem steady_evaluateNode (hc : Sound settings mode e) {taken : List QueueEntry}
    (h : Balanced e.scheduler e.phase (.own (.queue (.batch true taken)) :: below))
    (hh : e.halted = false) (n : OutputNode) (entry : QueueEntry) :
    Steady (after (.own (.queue (.batch true taken)) :: below) (e.evaluateNode n entry)) := by
  have hm := e.evaluated_evaluateNode n entry
  generalize e.evaluateNode n entry = m at hm ⊢
  cases hm with
  | failed err e' value judged =>
    have hp := progress_judged judged
    exact .exposed (h.congr hp) ((halted_of_progress hp).trans hh) trivial
  | tooLong v e' value full judged =>
    have hp := progress_judged judged
    exact .exposed (h.congr hp) ((halted_of_progress hp).trans hh) trivial
  | keptOut v e' value room out judged =>
    have hp := progress_judged judged
    exact .returning (h.congr hp) ((halted_of_progress hp).trans hh) rfl
  | accepted v e' value room new judged =>
    obtain ⟨e'', watchers, hs, heq⟩ :=
      accept_eq entry (displayable_of_computed value) (hc.judged judged).writing
    rw [heq]
    have hp := (progress_stored hs).trans (progress_judged judged)
    have hpropagate := (h.congr hp).push (f := .own (.propagate entry)) ⟨rfl, rfl⟩
      ⟨taken, below, rfl⟩
    exact .returning (hpropagate.push (f := .own (.watchers ..)) ⟨rfl, rfl⟩ trivial)
      ((halted_of_progress hp).trans hh) rfl

theorem progress_counted (e : Engine) (n : OutputNode) : (e.counted n).progress = e.progress := rfl

theorem steady_process (hc : Sound settings mode e) {entry : QueueEntry}
    (h : Balanced e.scheduler e.phase (.own (.process entry) :: below)) (hh : e.halted = false) :
    Steady (after below (e.process entry)) := by
  obtain ⟨taken, rest, rfl⟩ : ∃ taken rest, below = .own (.queue (.batch true taken)) :: rest :=
    h.nested.1
  have hpop := h.pop ⟨rfl, rfl⟩
  rw [process_eq]
  split
  · exact .returning hpop hh rfl
  -- The queue and the batch are cleared, so nothing is left that the stack had to account for
  · refine .ending ?_ ⟨rfl, rfl, ⟨_, rfl⟩, _, _, rfl, Or.inl rfl⟩
    exact { hpop with flight := fun hn => absurd rfl hn, queued := fun _ hn => absurd rfl hn }
  · next n _ =>
    have hp := progress_counted e n
    exact steady_evaluateNode (hc.counted n) (hpop.congr hp) ((halted_of_progress hp).trans hh)
      n entry

/-! ## Telling watchers and listeners -/

theorem steady_tellWatchers (h : Balanced e.scheduler e.phase below) (hs : Exposed below)
    (hh : e.halted = false) (id : String) (old new : Value) (ws : List Nat) :
    Steady (after below (e.tellWatchers id old new ws)) := by
  cases ws with
  | nil => exact .returning h hh rfl
  | cons w ws =>
    have hpush := h.push (f := .own (.watchers id old new ws)) ⟨rfl, rfl⟩ hs
    exact .returning (hpush.push (f := .ask (.watcher w id old new)) ⟨rfl, rfl⟩ trivial) hh rfl

theorem steady_tellListeners (h : Balanced e.scheduler e.phase below) (hs : Settled below)
    (hh : e.halted = false) (changed : List String) (ls : List Nat) :
    Steady (after below (e.tellListeners changed ls)) := by
  cases ls with
  | nil => exact .returning h hh rfl
  | cons l ls =>
    have hpush := h.push (f := .own (.listeners changed ls)) ⟨rfl, rfl⟩ hs
    exact .returning (hpush.push (f := .ask (.listener l changed)) ⟨rfl, rfl⟩ trivial) hh rfl

theorem steady_propagate {entry : QueueEntry}
    (h : Balanced e.scheduler e.phase (.own (.propagate entry) :: below))
    (hh : e.halted = false) : Steady (after below (e.propagate entry)) := by
  have hpop := h.pop ⟨rfl, rfl⟩
  obtain ⟨taken, rest, rfl⟩ : ∃ taken rest, below = .own (.queue (.batch true taken)) :: rest :=
    h.nested.1
  -- Above a batch a drain is going on, so that entries may wait
  have hdraining := (hpop.between rfl rfl hpop.nested.1.2).draining
  have hpassed : ∀ queue, Balanced { e.scheduler with queue } e.phase
      (.own (.queue (.batch true taken)) :: rest) := fun queue =>
    { hpop with queued := fun hm _ => hpop.evaluating hm hdraining }
  obtain ⟨e', r, heq, ⟨⟨queue, ns, rfl⟩, -, -⟩⟩ := propagate_reply e entry
  rw [heq]
  exact .exposed (hpassed queue) hh trivial

/-- The end of a cycle. -/
theorem steady_complete (h : Balanced e.scheduler e.phase below) (hs : Settled below)
    (hd : e.scheduler.draining = false) (hq : e.scheduler.queue.entries = []) :
    Steady (after below e.complete) := by
  have hb : ∀ phase, Balanced e.scheduler phase below := fun phase =>
    { h with
      evaluating := fun _ hn => by rw [hd] at hn; cases hn
      queued := fun _ hn => absurd hq hn }
  unfold complete
  dsimp only
  split
  · exact .returning (hb _) rfl rfl
  · refine steady_tellListeners (e := { e with
      changed := []
      passes := []
      scope := none
      halted := false
      phase := if e.rests then .queued else .idle }) (hb _) hs rfl _ _

/-! ## Steps -/

/-- A frame goes on after an answer. -/
theorem steady_resume (hc : Sound settings mode e) {f : Frame} {r : Response}
    (h : Steady ⟨e, .own f :: below, .returned r⟩) : Steady (after below (e.resume f)) := by
  cases h with
  | going hb hh failing =>
    have hhalted : e.halted = false := hh
    cases f with
    | queue f => exact steady_queue hb fun hn => by rw [hhalted] at hn; cases hn
    | clock f => exact steady_ofDebouncer (hb.pop ⟨rfl, rfl⟩) hb.nested.1 hh _
    | handle t => exact steady_handle (hb.pop ⟨rfl, rfl⟩) hb.nested.1 hh t
    | process entry => exact steady_process hc hb hh
    | batchDone => exact .returning (hb.pop ⟨rfl, rfl⟩) hh rfl
    | watchers id old new rest =>
      exact steady_tellWatchers (hb.pop ⟨rfl, rfl⟩) hb.nested.1 hh id old new rest
    | propagate entry => exact steady_propagate hb hh
    | complete => exact (hb.nested.1 : False).elim
    | listeners changed rest =>
      exact steady_tellListeners (hb.pop ⟨rfl, rfl⟩) hb.nested.1 hh changed rest
  | ending hb ending =>
    obtain ⟨hqueue, hflight, -, g, rest, hstack, hg⟩ := ending
    obtain ⟨rfl, rfl⟩ := List.cons.inj hstack
    cases f with
    | queue f =>
      rcases hg with hg | hg
      · exact steady_queue hb fun _ => ⟨hg, hqueue, hflight⟩
      · cases hg
    | batchDone =>
      obtain ⟨rest, rfl⟩ : ∃ rest, below = .own (.queue (.next true)) :: rest := hb.nested.1
      exact .ending (hb.pop ⟨rfl, rfl⟩) ⟨hqueue, hflight, ⟨_, rfl⟩, _, _, rfl, Or.inl rfl⟩
    | _ => rcases hg with hg | hg <;> cases hg
  | completing rest stack hb hs done empty flight returned =>
    cases stack
    exact steady_complete hb hs done empty

/-- A failure passes through a frame, or is noted by it. -/
theorem steady_recover {f : Frame} {err : EngineError}
    (h : Steady ⟨e, .own f :: below, .raised err⟩) : Steady (after below (e.recover f err)) := by
  cases h with
  | going hb hh failing =>
    have hfailing := failing err rfl
    cases f with
    | queue f =>
      cases f with
      | begin reports | next reports =>
        rcases hfailing with hn | hn
        · exact (hn : False).elim
        · exact (hn.1 : False).elim
      | batch reports taken =>
        -- The rest of the batch is dropped, and the drain ends with the failure
        have hbetween := hb.between rfl rfl hb.nested.1.2
        have hdone := Between.done (s := { e.scheduler with inFlight := [] }) { hbetween with } rfl
        exact .going hdone hh fun _ _ => Or.inr ⟨hbetween.settled, hbetween.waiting⟩
      | yielding f =>
        cases f with
        | loop =>
          rcases hfailing with hn | hn
          · exact (hn : False).elim
          · exact .going (hb.leave hn.2) hh fun _ _ => Or.inr ⟨hb.nested.1, hn.2⟩
        | ran | pump n => exact .exposed (hb.pop ⟨rfl, rfl⟩) hh hb.nested.1
    | watchers id old new rest =>
      exact steady_tellWatchers (e := e.report _) (hb.pop ⟨rfl, rfl⟩) hb.nested.1 hh id old new rest
    | listeners changed rest =>
      exact steady_tellListeners (e := e.report _) (hb.pop ⟨rfl, rfl⟩) hb.nested.1 hh changed rest
    | process entry | propagate entry =>
      obtain ⟨taken, rest, rfl⟩ : ∃ taken rest, below = .own (.queue (.batch true taken)) :: rest :=
        hb.nested.1
      exact .exposed (hb.pop ⟨rfl, rfl⟩) hh trivial
    | batchDone =>
      rcases hfailing with hn | hn
      · exact (hn : False).elim
      · exact (hn.1 : False).elim
    | complete => exact (hb.nested.1 : False).elim
    | clock f | handle t => exact .exposed (hb.pop ⟨rfl, rfl⟩) hh hb.nested.1
  | ending hb ending =>
    obtain ⟨-, -, ⟨r, hr⟩, -⟩ := ending
    cases hr
  | completing rest stack hb hs done empty flight returned =>
    obtain ⟨r, hr⟩ := returned
    cases hr

/-! ## Operations -/

theorem steady_settle (h : Balanced e.scheduler e.phase below) (hs : Exposed below)
    (hh : e.halted = false) (t : Trigger) (delay : Binary64) :
    Steady (after below (e.settle t delay)) := by
  unfold settle
  split
  · refine .returning (h.of_phase fun hp => ?_) hh rfl
    show (if e.phase = .idle then Phase.queued else e.phase) = .evaluating
    rw [if_neg (by rw [hp]; exact nofun), hp]
  · exact steady_handle h hs hh t

theorem progress_bound (e : Engine) (name : String) : (e.bound name).progress = e.progress := by
  rcases bound_cases e name with h | ⟨rows, -, h⟩ | h <;> rw [h] <;> rfl

theorem progress_edited (e : Engine) (name : String) (user : Bool) :
    (e.edited name user).progress = e.progress := by
  unfold edited
  split
  · rfl
  · rfl

theorem steady_notifyInput (hc : Sound settings mode e)
    (h : Balanced e.scheduler e.phase below) (hs : Exposed below) (hh : e.halted = false)
    (name : String) (user : Bool) : Steady (after below (e.notifyInput name user)) := by
  have hbound := progress_bound e name
  have hp := (progress_edited (e.bound name) name user).trans hbound
  rw [notifyInput_eq hc.writing]
  split
  · exact .exposed (h.congr hbound) ((halted_of_progress hbound).trans hh) hs
  · exact steady_settle (h.congr hp) hs ((halted_of_progress hp).trans hh) _ _

theorem steady_changeTree (hc : Sound settings mode e)
    (h : Balanced e.scheduler e.phase below) (hs : Exposed below) (hh : e.halted = false)
    {change : Except TreeError FormTree} (ht : ∀ tree, change = .ok tree → tree.Proper)
    (event : TreeEvent) (notify : Bool) :
    Steady (after below (e.changeTree change event notify)) := by
  unfold changeTree
  split
  · exact .exposed h hh hs
  · next tree =>
    have hc' := hc.withTree (ht tree rfl)
    dsimp only
    split
    · unfold deliver
      split
      · split
        · exact steady_notifyInput hc' h hs hh _ _
        · exact steady_settle (e := { e with tree }) h hs hh _ _
      · exact .returning (c := ⟨{ e with tree }, _, _⟩) h hh rfl
    · exact .returning (c := ⟨{ e with tree }, _, _⟩) h hh rfl

/-- By hand the continuation that has waited longest may be run. -/
theorem steady_runNext (h : Balanced e.scheduler e.phase below) (hs : Exposed below)
    (hh : e.halted = false) : Steady (after below (e.pump e.scheduler.runNext)) := by
  unfold pump
  split
  · exact steady_takeUp .ran (.ret _ (.flag false)) (h.push ⟨rfl, rfl⟩ hs) hh fun _ =>
      .returning h hh rfl
  · exact .exposed h hh hs

theorem steady_runAll (h : Balanced e.scheduler e.phase below) (hs : Exposed below)
    (hh : e.halted = false) : Steady (after below (e.pump e.scheduler.runAll)) := by
  unfold pump
  split
  · exact .returning (h.push (f := .own (.queue (.yielding (.pump 0)))) ⟨rfl, rfl⟩ hs) hh rfl
  · exact .exposed h hh hs

/-- An operation begins; nothing stops listening while something else is going on. -/
theorem steady_perform (hc : Sound settings mode e) (h : Balanced e.scheduler e.phase below)
    (hs : Exposed below) (hh : e.halted = false) {op : Operation}
    (hop : op = .detach → below = []) : Steady (after below (e.perform op)) := by
  cases op with
  | attach compute =>
    cases compute with
    | true => exact steady_recompute (e := { e with attached := true }) h hs hh none
    | false =>
      have hp := progress_rescan { e with attached := true }
      obtain ⟨r, heq⟩ := reply_attach e
      rw [heq]
      exact .exposed (h.congr (e := e) hp) ((halted_of_progress hp).trans hh) hs
  | detach =>
    obtain rfl := hop rfl
    have hd := h.drains
    have hl := h.loops
    rw [List.countP_nil, Nat.zero_add] at hd
    rw [List.countP_nil] at hl
    refine .returning ⟨h.drains, h.loops, h.waits, h.reports, fun hn => absurd rfl hn, trivial,
      fun hm hn => ?_, fun _ hn => absurd rfl hn⟩ hh rfl
    -- Only a loop, which is on the stack, could leave a drain behind
    have hdraining : e.scheduler.draining = true := hn
    have hwaiting : e.scheduler.yieldPoint.waiting ≠ [] := by
      intro hw
      rw [hw, hdraining] at hd
      cases hd
    rw [h.waits hm hwaiting] at hl
    cases hl
  | recompute scope => exact steady_recompute h hs hh scope
  | rescan =>
    have hp := progress_rescan e
    obtain ⟨r, heq⟩ := reply_rescan e
    rw [heq]
    exact .exposed (h.congr hp) ((halted_of_progress hp).trans hh) hs
  | notifyInput name user => exact steady_notifyInput hc h hs hh name user
  | notifyLayout => exact steady_settle h hs hh _ _
  | flush =>
    unfold perform
    dsimp only
    split
    · exact steady_ofDebouncer h hs hh _
    · exact .returning h hh rfl
  | advance seconds => exact steady_ofDebouncer h hs hh _
  | runTimers => exact steady_ofDebouncer h hs hh _
  | runNext => exact steady_runNext h hs hh
  | runAll => exact steady_runAll h hs hh
  | addField name value scope notify =>
    exact steady_changeTree hc h hs hh (fun _ ht => hc.tree.addField ht) _ _
  | addOutput spec value notify =>
    exact steady_changeTree hc h hs hh (fun _ ht => hc.tree.addOutput ht) _ _
  | removeField name notify =>
    exact steady_changeTree hc h hs hh (fun _ ht => hc.tree.remove ht) _ _
  | setValue name value user =>
    exact steady_changeTree hc h hs hh (fun _ ht => hc.tree.setValue ht) _ _
  | focus name => exact .returning (c := ⟨{ e with tree := e.tree.focus name }, _, _⟩) h hh rfl
  | write name text =>
    exact steady_changeTree hc h hs hh (fun _ ht => Except.ok.inj ht ▸ hc.tree.write _ _) _ _

/-! ## Reachable configurations -/

/-- What may be done beside the operations: to subscribe or to unsubscribe, to take note of
something and to take the notes and the record of writes. -/
def Aside (e e' : Engine) : Prop :=
  ∃ watchers listeners nextHandle notices writes, e' = { e with
    watchers := watchers
    listeners := listeners
    nextHandle := nextHandle
    notices := notices
    tree := { e.tree with writes := writes } }

/-- The configurations that an engine with these settings and this kind of yield point comes to.
Watchers and listeners may use it like anybody else, only that they do not stop it listening, and
may fail. -/
inductive Reachable (settings : Settings) (mode : YieldMode) : Running → Prop where
  | create {tree : FormTree} (proper : tree.Proper) (debounces : Bool) :
    Reachable settings mode ⟨.create tree settings mode debounces, [], .returned default⟩
  | perform {e : Engine} {r : Reply Response EngineError} (h : Reachable settings mode ⟨e, [], r⟩)
    (op : Operation) : Reachable settings mode (after [] (e.perform op))
  | resume {e : Engine} {f : Frame} {below : List (Activity Frame Ask)}
    {r : Reply Response EngineError} (h : Reachable settings mode ⟨e, .own f :: below, r⟩) :
    Reachable settings mode (machine.step ⟨e, .own f :: below, r⟩)
  | reenter {e : Engine} {k : Ask} {below : List (Activity Frame Ask)}
    {r : Reply Response EngineError} (h : Reachable settings mode ⟨e, .ask k :: below, r⟩)
    {op : Operation} (listening : op ≠ .detach) :
    Reachable settings mode (after (.ask k :: below) (e.perform op))
  | answer {e : Engine} {k : Ask} {below : List (Activity Frame Ask)}
    {r : Reply Response EngineError} (h : Reachable settings mode ⟨e, .ask k :: below, r⟩)
    (r' : Reply Response EngineError) : Reachable settings mode ⟨e, below, r'⟩
  | aside {e e' : Engine} {stack : List (Activity Frame Ask)} {r : Reply Response EngineError}
    (h : Reachable settings mode ⟨e, stack, r⟩) (beside : e.Aside e') :
    Reachable settings mode ⟨e', stack, r⟩

theorem Sound.aside {e' : Engine} (h : Sound settings mode e) (ha : e.Aside e') :
    Sound settings mode e' := by
  obtain ⟨ws, ls, k, ns, writes, rfl⟩ := ha
  have h' : Sound settings mode { e with tree := { e.tree with writes } } :=
    h.withTree ⟨h.tree.names, h.tree.specs⟩
  exact h'.congr rfl

theorem Steady.aside {e' : Engine} {stack : List (Activity Frame Ask)}
    {r : Reply Response EngineError} (h : Steady ⟨e, stack, r⟩) (ha : e.Aside e') :
    Steady ⟨e', stack, r⟩ := by
  obtain ⟨ws, ls, k, ns, writes, rfl⟩ := ha
  cases h with
  | going hb hh failing => exact .going hb hh failing
  | ending hb ending => exact .ending hb ending
  | completing rest hstack hb hs done empty flight returned =>
    exact .completing rest hstack hb hs done empty flight returned

/-- Where no frame of the engine is on top, no cycle is being broken off. -/
theorem Steady.outside {c : Running} (h : Steady c) (ho : ∀ f below, c.stack ≠ .own f :: below) :
    Balanced c.state.scheduler c.state.phase c.stack ∧ c.state.halted = false := by
  cases h with
  | going balanced running failing => exact ⟨balanced, running⟩
  | ending balanced ending =>
    obtain ⟨-, -, -, f, below, hstack, hf⟩ := ending
    cases f with
    | own f => exact absurd hstack (ho f below)
    | ask k => rcases hf with hf | hf <;> cases hf
  | completing below stack => exact absurd stack (ho _ below)

/-- Between any two steps the parts are sound and the stack is balanced. -/
theorem steady_of_reachable {c : Running} (h : Reachable settings mode c) :
    Sound settings mode c.state ∧ Steady c := by
  induction h with
  | @create tree proper debounces =>
    refine ⟨(coherent_create proper settings mode debounces).toSound, .returning ?_ rfl rfl⟩
    exact ⟨rfl, rfl, fun _ hn => absurd rfl hn, fun _ hk => absurd hk List.not_mem_nil,
      fun hn => absurd rfl hn, trivial, nofun, fun _ hn => absurd rfl hn⟩
  | @perform e r _ op ih =>
    obtain ⟨hc, hs⟩ := ih
    obtain ⟨hb, hh⟩ := hs.outside (by simp)
    exact ⟨state_after (ρ := Response) _ _ ▸ hc.perform op, steady_perform hc hb trivial hh fun _ => rfl⟩
  | @resume e f below r _ ih =>
    obtain ⟨hc, hs⟩ := ih
    cases r with
    | returned r => exact ⟨state_after below (e.resume f) ▸ hc.resume f, steady_resume hc hs⟩
    | raised err =>
      exact ⟨state_after below (e.recover f err) ▸ hc.congr (core_recover e f err),
        steady_recover hs⟩
  | @reenter e k below r _ op listening ih =>
    obtain ⟨hc, hs⟩ := ih
    obtain ⟨hb, hh⟩ := hs.outside (by simp)
    exact ⟨state_after (ρ := Response) _ _ ▸ hc.perform op,
      steady_perform hc hb trivial hh fun hn => absurd hn listening⟩
  | @answer e k below r _ r' ih =>
    obtain ⟨hc, hs⟩ := ih
    obtain ⟨hb, hh⟩ := hs.outside (by simp)
    exact ⟨hc, .exposed (hb.pop ⟨rfl, rfl⟩) hh hb.nested.1⟩
  | aside _ beside ih => exact ⟨ih.1.aside beside, ih.2.aside beside⟩

/-! ## Idle engines -/

/-- No drain is going on; updates may wait that one has left behind. -/
structure Stalled (e : Engine) : Prop where
  flight : e.scheduler.inFlight = []
  drained : e.scheduler.draining = false
  waiting : e.scheduler.yieldPoint.waiting = []
  unlooped : e.scheduler.yieldPoint.running = false
  running : e.halted = false

/-- Nothing is going on, and nothing is left over. -/
structure Quiet (e : Engine) : Prop where
  queue : e.scheduler.queue.entries = []
  flight : e.scheduler.inFlight = []
  drained : e.scheduler.draining = false
  waiting : e.scheduler.yieldPoint.waiting = []
  unlooped : e.scheduler.yieldPoint.running = false
  running : e.halted = false

theorem Quiet.stalled (h : e.Quiet) : e.Stalled :=
  ⟨h.flight, h.drained, h.waiting, h.unlooped, h.running⟩

theorem Stalled.quiet (h : e.Stalled) (hq : e.scheduler.queue.entries = []) : e.Quiet :=
  ⟨hq, h.flight, h.drained, h.waiting, h.unlooped, h.running⟩

/-- Where no drain is going on, no batch is in flight and none waits. -/
theorem Balanced.stalled_of_undrained {stack : List (Activity Frame Ask)}
    (hb : Balanced e.scheduler e.phase stack) (hh : e.halted = false)
    (hdraining : e.scheduler.draining = false) (hl : stack.countP isLoop = 0) : e.Stalled := by
  have hdrains := hb.drains
  rw [hdraining, Bool.toNat_false] at hdrains
  constructor
  · by_contra hn
    have hle : stack.countP isBatch ≤ stack.countP isDrain :=
      List.countP_mono_left fun f _ hf => isDrain_of_isBatch hf
    have hflight := hb.flight hn
    omega
  · exact hdraining
  · exact List.eq_nil_of_length_eq_zero (by omega)
  · have hloops := hb.loops
    rw [hl] at hloops
    simpa using hloops
  · exact hh

/-- With an immediate yield point no drain is going on that is not on the stack. -/
theorem Balanced.stalled {stack : List (Activity Frame Ask)}
    (hb : Balanced e.scheduler e.phase stack) (hh : e.halted = false)
    (hmode : e.scheduler.yieldPoint.mode = .immediate) (hd : stack.countP isDrain = 0)
    (hl : stack.countP isLoop = 0) : e.Stalled := by
  have hwaiting : e.scheduler.yieldPoint.waiting = [] := by
    by_contra hn
    have hloops := hb.loops
    rw [hb.waits hmode hn, hl] at hloops
    cases hloops
  refine hb.stalled_of_undrained hh ?_ hl
  have hdrains := hb.drains
  rw [hd, hwaiting] at hdrains
  simpa using hdrains

/-- Nothing is left over either, unless the phase says so. -/
theorem Balanced.quiet {stack : List (Activity Frame Ask)}
    (hb : Balanced e.scheduler e.phase stack) (hh : e.halted = false)
    (hmode : e.scheduler.yieldPoint.mode = .immediate) (hd : stack.countP isDrain = 0)
    (hl : stack.countP isLoop = 0) (hp : e.phase ≠ .evaluating) : e.Quiet := by
  refine (hb.stalled hh hmode hd hl).quiet ?_
  by_contra hn
  exact hp (hb.queued hmode hn)

/-- Between two operations no drain is going on. -/
theorem stalled_of_reachable {r : Reply Response EngineError}
    (h : Reachable settings .immediate ⟨e, [], r⟩) : e.Stalled := by
  obtain ⟨hc, hs⟩ := steady_of_reachable h
  obtain ⟨hb, hh⟩ := hs.outside (by simp)
  exact hb.stalled hh hc.ofMode rfl rfl

/-- At a manual yield point a drain may be going on between two operations; else nothing is. -/
theorem stalled_of_undrained {mode : YieldMode} {r : Reply Response EngineError}
    (h : Reachable settings mode ⟨e, [], r⟩) (hdraining : e.scheduler.draining = false) :
    e.Stalled := by
  obtain ⟨-, hs⟩ := steady_of_reachable h
  obtain ⟨hb, hh⟩ := hs.outside (by simp)
  exact hb.stalled_of_undrained hh hdraining rfl

theorem quiet_of_reachable {r : Reply Response EngineError}
    (h : Reachable settings .immediate ⟨e, [], r⟩) (hp : e.phase ≠ .evaluating) : e.Quiet := by
  obtain ⟨hc, hs⟩ := steady_of_reachable h
  obtain ⟨hb, hh⟩ := hs.outside (by simp)
  exact hb.quiet hh hc.ofMode rfl rfl hp

/-- The frame stands for a timer, or for a change that is handled because of one. -/
def isClock : Activity Frame Ask → Bool
  | .own (.clock _) | .own (.handle _) => true
  | _ => false

theorem light_of_isClock {f : Activity Frame Ask} (h : isClock f = true) : Light f := by
  unfold isClock at h
  split at h
  · exact ⟨rfl, rfl⟩
  · exact ⟨rfl, rfl⟩
  · cases h

/-- The same while timers fire. -/
theorem quiet_of_clock {t : Trigger} {r : Reply Response EngineError}
    (h : Reachable settings .immediate ⟨e, .own (.handle t) :: below, r⟩)
    (hbelow : ∀ f ∈ below, isClock f = true) (hp : e.phase ≠ .evaluating) : e.Quiet := by
  obtain ⟨hc, hs⟩ := steady_of_reachable h
  have hlight : ∀ f ∈ Activity.own (Frame.handle t) :: below, Light f := by
    intro f hf
    rcases List.mem_cons.mp hf with rfl | hf
    · exact ⟨rfl, rfl⟩
    · exact light_of_isClock (hbelow f hf)
  have hd : (Activity.own (Frame.handle t) :: below).countP isDrain = 0 :=
    List.countP_eq_zero.mpr fun f hf => by rw [(hlight f hf).1]; exact Bool.false_ne_true
  have hl : (Activity.own (Frame.handle t) :: below).countP isLoop = 0 :=
    List.countP_eq_zero.mpr fun f hf => by rw [(hlight f hf).2]; exact Bool.false_ne_true
  cases hs with
  | going hb hh failing => exact hb.quiet hh hc.ofMode hd hl hp
  | ending hb ending =>
    obtain ⟨-, -, -, f, rest, hstack, hf⟩ := ending
    obtain ⟨rfl, -⟩ := List.cons.inj hstack
    rcases hf with hf | hf <;> cases hf
  | completing rest stack => cases stack

/-- Both are about the scheduler and about whether the cycle was broken off. -/
theorem Stalled.congr {e' : Engine} (h : e.Stalled) (hp : e'.progress = e.progress) :
    e'.Stalled := by
  simp only [progress, Prod.mk.injEq] at hp
  obtain ⟨hs, -, hh⟩ := hp
  exact ⟨hs ▸ h.flight, hs ▸ h.drained, hs ▸ h.waiting, hs ▸ h.unlooped, hh.trans h.running⟩

theorem Quiet.congr {e' : Engine} (h : e.Quiet) (hp : e'.progress = e.progress) : e'.Quiet := by
  simp only [progress, Prod.mk.injEq] at hp
  obtain ⟨hs, -, hh⟩ := hp
  exact ⟨hs ▸ h.queue, hs ▸ h.flight, hs ▸ h.drained, hs ▸ h.waiting, hs ▸ h.unlooped,
    hh.trans h.running⟩

end LiveForm.Engine
