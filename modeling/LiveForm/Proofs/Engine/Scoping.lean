import LiveForm.Proofs.Engine.Idempotent
import LiveForm.Proofs.Engine.Watching

/-!
# What a scope leaves alone

A cycle is restricted to a scope from its beginning, and each change is passed on to nodes in the
scope only.  So a recompute comes to the nodes in its scope, and to those that waited already when
it began; every other node stays as it is, with the text of its field, and its watchers hear
nothing.
-/

namespace LiveForm.Engine

open Machine (after state_after Runs Visits)

variable {settings : Settings} {mode : YieldMode} {e e' e₀ : Engine} {scope : Option String}
  {below : List (Activity Frame Ask)} {c c' : Running} {r : Reply Response EngineError}
  {answer : Engine → Ask → Reply Response EngineError}

/-! ## Within a scope -/

/-- A cycle with this scope that begins here may come to the node: it waits already, or lies in the
scope. -/
def Within (e : Engine) (scope : Option String) (id : String) : Prop :=
  id ∈ e.scheduler.line.map (·.node) ∨
    ∀ n, e.registry.find? id = some n → inScope n.scope scope = true

/-- All nodes are declared as they were, and those that are not within the scope are as they
were. -/
structure Untouched (e₀ : Engine) (scope : Option String) (e : Engine) : Prop where
  declared : e.layout.nodes = e₀.layout.nodes
  node : ∀ id, ¬ Within e₀ scope id → e.registry.find? id = e₀.registry.find? id
  text : ∀ n ∈ e₀.registry.nodes, ¬ Within e₀ scope n.id →
    e.tree.read n.field = e₀.tree.read n.field

/-- The running cycle is restricted to the scope, and what waits lies within it. -/
structure Bounded (e₀ : Engine) (scope : Option String) (e : Engine) : Prop where
  restricted : e.scope = scope
  line : ∀ entry ∈ e.scheduler.line, Within e₀ scope entry.node

namespace Untouched

theorem refl (e : Engine) (scope : Option String) : Untouched e scope e :=
  ⟨rfl, fun _ _ => rfl, fun _ _ _ => rfl⟩

theorem congr (h : Untouched e₀ scope e) (hs : e'.holdings = e.holdings) :
    Untouched e₀ scope e' := by
  refine ⟨?_, fun id hid => (find?_of_holdings hs id).trans (h.node id hid), fun n hn hid => ?_⟩
  · have hregistry : e'.registry = e.registry := congrArg (·.2.2.1) hs
    show e'.registry.nodes.map _ = _
    rw [hregistry]
    exact h.declared
  · rw [read_of_holdings hs]
    exact h.text n hn hid

/-- A value may be stored and written for a node within the scope. -/
theorem withValue (h : Untouched e₀ scope e) (hc₀ : Sound settings mode e₀)
    (hc : Sound settings mode e) {n : OutputNode} (hn : n ∈ e.registry.nodes)
    (hid : Within e₀ scope n.id) (v : Value) : Untouched e₀ scope (e.withValue n v) where
  declared := (declared_modify_store e.registry n.id v (e.toWrite n v)).trans h.declared
  node id hne := by
    refine (Registry.find?_modify_of_ne (f := (·.store v (e.toWrite n v))) (fun _ => rfl) ?_).trans
      (h.node id hne)
    rintro rfl
    exact hne hid
  text m hm hne := by
    -- The field tells the node
    refine (read_withValue_of_ne (fun hfield => hne ?_) v).trans (h.text m hm hne)
    rwa [(hc₀.nodes m hm).id_eq, hfield, ← (hc.nodes n hn).id_eq]

end Untouched

theorem Bounded.congr (h : Bounded e₀ scope e) (hscope : e'.scope = e.scope)
    (hline : ∀ entry ∈ e'.scheduler.line, entry ∈ e.scheduler.line) : Bounded e₀ scope e' :=
  ⟨hscope.trans h.restricted, fun entry hentry => h.line entry (hline entry hentry)⟩

/-- Whatever waits when a node was let to wait waited before, or is the node. -/
theorem mem_line_enqueue {id : String} {priority : Priority} {source : Option String}
    {entry : QueueEntry} (h : entry ∈ (e.enqueue id priority source).scheduler.line) :
    entry.node = id ∨ entry ∈ e.scheduler.line := by
  rcases List.mem_append.mp h with h | h
  · exact Or.inr (List.mem_append_left _ h)
  · have hentries : entry ∈ (e.scheduler.queue.enqueue e.now id priority source).1.entries := h
    rcases UpdateQueue.enqueue_sublist e.scheduler.queue e.now id priority source with hq | hq
    · rw [hq] at hentries
      exact Or.inr (List.mem_append_right _ hentries)
    · rcases List.mem_append.mp (hq.subset hentries) with hold | hnew
      · exact Or.inr (List.mem_append_right _ (List.mem_of_mem_filter hold))
      · exact Or.inl (by rw [List.mem_singleton.mp hnew])

namespace Bounded

theorem enqueue (h : Bounded e₀ scope e) {id : String} (hid : Within e₀ scope id)
    (priority : Priority) (source : Option String) :
    Bounded e₀ scope (e.enqueue id priority source) :=
  ⟨h.restricted, fun _ hentry =>
    (mem_line_enqueue hentry).elim (fun hnode => hnode ▸ hid) (h.line _)⟩

/-- Nodes within the scope may be scheduled. -/
theorem schedule (h : ∀ entry ∈ e.scheduler.line, Within e₀ scope entry.node)
    (hscope : e.phase ≠ .evaluating ∨ e.scope = scope) {ids : List String}
    (hids : ∀ id ∈ ids, Within e₀ scope id) (priority : Priority) (source : Option String) :
    Bounded e₀ scope (e.schedule ids priority source scope) := by
  have hall : ∀ (ids : List String) (e : Engine), Bounded e₀ scope e →
      (∀ id ∈ ids, Within e₀ scope id) → Bounded e₀ scope (ids.foldl (fun e id =>
        { e with passes := e.passes.filter (·.1 != id) }.enqueue id priority source) e) := by
    intro ids
    induction ids with
    | nil => exact fun e h _ => h
    | cons id ids ih =>
      intro e h hids
      have hpassed : Bounded e₀ scope { e with passes := e.passes.filter (·.1 != id) } :=
        h.congr rfl fun _ hentry => hentry
      exact ih _ (hpassed.enqueue (hids id List.mem_cons_self) priority source)
        fun id hid => hids id (List.mem_cons_of_mem _ hid)
  unfold Engine.schedule
  refine hall ids { e with scope := _ } ⟨?_, h⟩ hids
  dsimp only
  split
  · next hphase =>
    rw [hscope.resolve_left (not_not_intro hphase)]
    exact if_pos rfl
  · rfl

/-- A change is passed on to nodes in the scope. -/
theorem passOnAll (h : Bounded e₀ scope e) (hs : Untouched e₀ scope e) (n : OutputNode)
    (source : Option String) (readers peers : List String) :
    Bounded e₀ scope (peers.foldl (passOn n source readers) e) := by
  induction peers generalizing e with
  | nil => exact h
  | cons peer peers ih =>
    refine ih ?_ (hs.congr (holdings_queued (queued_passOn n source readers e peer)))
    unfold passOn
    split
    · next hhears =>
      refine h.enqueue (Or.inr fun p hp => ?_) .high (some n.id)
      -- The peer is declared now as it was at first
      obtain ⟨m, hm, hdeclared⟩ := exists_of_declared hs.declared hp
      have hscope : m.declared.scope = p.declared.scope := by rw [hdeclared]
      simp only [hears, hm, Option.any_some, Bool.and_eq_true] at hhears
      rw [← h.restricted]
      exact hscope ▸ hhears.1.1.2
    · exact h

end Bounded

/-- The batch that is taken, and what is left, waited in the queue. -/
theorem mem_line_taken {entry : QueueEntry} (h : entry ∈ e.taken.scheduler.line) :
    entry ∈ e.scheduler.queue.entries := by
  rcases List.mem_append.mp h with h | h
  · have hbatch : entry ∈ UpdateQueue.front e.scheduler.batchSize e.scheduler.queue.pending := h
    exact (UpdateQueue.pending_perm _).mem_iff.mp ((UpdateQueue.front_prefix _ _).subset hbatch)
  · exact List.mem_of_mem_filter h

/-! ## What an update does to a node -/

/-- An update leaves the values and texts as they are, or stores a value for its node, tells its
watchers and passes the change on. -/
theorem process_cases (hw : e.writing = false) (entry : QueueEntry) :
    (∃ e' r, e.process entry = .reply e' r ∧ e'.holdings = e.holdings ∧ e'.scope = e.scope ∧
        (e'.scheduler = e.scheduler ∨ e'.scheduler = e.scheduler.clear)) ∨
      ∃ n v e' ws, e.registry.find? entry.node = some n ∧
        e.process entry = .call e' [.own (.watchers n.id n.lastValue v ws),
          .own (.propagate entry)] ∧
        e'.holdings = (e.withValue n v).holdings ∧ e'.scope = e.scope ∧
        e'.scheduler = e.scheduler := by
  rw [process_eq]
  cases hfate : e.fate entry with
  | passedOver => exact Or.inl ⟨e, _, rfl, rfl, rfl, Or.inl rfl⟩
  | brokenOff n => exact Or.inl ⟨e.brokenOff n, _, rfl, rfl, rfl, Or.inr rfl⟩
  | evaluated n =>
    dsimp only
    have hjudged : ∀ {e'}, (e.counted n).Judged n e' → e'.belongings = e.belongings ∧
        e'.scope = e.scope ∧ e'.scheduler = e.scheduler := fun judged =>
      ⟨(belongings_judged judged).trans rfl, judged.unseen Engine.scope fun _ _ _ => rfl,
        judged.unseen scheduler fun _ _ _ => rfl⟩
    have hm := (e.counted n).evaluated_evaluateNode n entry
    generalize (e.counted n).evaluateNode n entry = m at hm
    cases hm with
    | failed err e' value judged =>
      obtain ⟨hsame, hscope, hscheduler⟩ := hjudged judged
      exact Or.inl ⟨e', _, rfl, holdings_of_belongings hsame, hscope, Or.inl hscheduler⟩
    | tooLong v e' value full judged =>
      obtain ⟨hsame, hscope, hscheduler⟩ := hjudged judged
      exact Or.inl ⟨e', _, rfl, holdings_of_belongings hsame, hscope, Or.inl hscheduler⟩
    | keptOut v e' value room out judged =>
      obtain ⟨hsame, hscope, hscheduler⟩ := hjudged judged
      exact Or.inl ⟨e', _, rfl, holdings_of_belongings hsame, hscope, Or.inl hscheduler⟩
    | accepted v e' value room new judged =>
      obtain ⟨hsame, hscope, hscheduler⟩ := hjudged judged
      have hw' : e'.writing = false := (judged.unseen writing fun _ _ _ => rfl).trans hw
      obtain ⟨e'', watchers, stored, heq⟩ := accept_eq entry (displayable_of_computed value) hw'
      refine Or.inr ⟨n, v, e'', watchers, (evaluates_of_fate hfate).found, heq, ?_, ?_, ?_⟩
      · exact (holdings_stored stored).trans (holdings_of_belongings (belongings_withValue hsame v))
      · obtain ⟨written, ns, rfl, -⟩ := stored
        exact hscope
      · obtain ⟨written, ns, rfl, -⟩ := stored
        exact hscheduler

/-! ## Where a cycle stands -/

/-- Nothing is on the stack but the loop of the yield point. -/
def Loops (stack : List (Activity Frame Ask)) : Prop := ∀ f ∈ stack, isLoop f = true

theorem Loops.exists_of_ne_nil {stack : List (Activity Frame Ask)} (h : Loops stack)
    (hne : stack ≠ []) : ∃ below, stack = .own (.queue (.yielding .loop)) :: below := by
  obtain ⟨f, below, rfl⟩ := List.exists_cons_of_ne_nil hne
  have hf := h f List.mem_cons_self
  unfold isLoop at hf
  split at hf
  · exact ⟨below, rfl⟩
  · cases hf

/-- What a cycle with this scope has come to: what it does lies within the scope, until it is over
and nothing waits. -/
inductive Place (e₀ : Engine) (scope : Option String) : Running → Prop where
  | begins {e : Engine} {below : List (Activity Frame Ask)} {r : Reply Response EngineError}
    (reports : Bool) (bounded : Bounded e₀ scope e) (loops : Loops below) :
    Place e₀ scope ⟨e, .own (.queue (.begin reports)) :: below, r⟩
  | batch {e : Engine} {below : List (Activity Frame Ask)} {r : Reply Response EngineError}
    (reports : Bool) (taken : List QueueEntry) (bounded : Bounded e₀ scope e)
    (loops : Loops below) : Place e₀ scope ⟨e, .own (.queue (.batch reports taken)) :: below, r⟩
  | process {e : Engine} {below : List (Activity Frame Ask)} {r : Reply Response EngineError}
    (entry : QueueEntry) (reports : Bool) (taken : List QueueEntry)
    (within : Within e₀ scope entry.node) (bounded : Bounded e₀ scope e) (loops : Loops below) :
    Place e₀ scope ⟨e, .own (.process entry) :: .own (.queue (.batch reports taken)) :: below, r⟩
  | watchers {e : Engine} {below : List (Activity Frame Ask)} {r : Reply Response EngineError}
    (id : String) (old new : Value) (rest : List Nat) (entry : QueueEntry) (reports : Bool)
    (taken : List QueueEntry) (within : Within e₀ scope id) (bounded : Bounded e₀ scope e)
    (loops : Loops below) :
    Place e₀ scope
      ⟨e, .own (.watchers id old new rest) :: .own (.propagate entry) ::
        .own (.queue (.batch reports taken)) :: below, r⟩
  | watcher {e : Engine} {below : List (Activity Frame Ask)} {r : Reply Response EngineError}
    (w : Nat) (id : String) (old new : Value) (rest : List Nat) (entry : QueueEntry)
    (reports : Bool) (taken : List QueueEntry) (within : Within e₀ scope id)
    (bounded : Bounded e₀ scope e) (loops : Loops below) :
    Place e₀ scope
      ⟨e, .ask (.watcher w id old new) :: .own (.watchers id old new rest) ::
        .own (.propagate entry) :: .own (.queue (.batch reports taken)) :: below, r⟩
  | propagate {e : Engine} {below : List (Activity Frame Ask)} {r : Reply Response EngineError}
    (entry : QueueEntry) (reports : Bool) (taken : List QueueEntry) (bounded : Bounded e₀ scope e)
    (loops : Loops below) :
    Place e₀ scope ⟨e, .own (.propagate entry) :: .own (.queue (.batch reports taken)) :: below, r⟩
  | batchDone {e : Engine} {below : List (Activity Frame Ask)} {r : Reply Response EngineError}
    (reports : Bool) (flight : e.scheduler.inFlight = []) (bounded : Bounded e₀ scope e)
    (loops : Loops below) :
    Place e₀ scope ⟨e, .own .batchDone :: .own (.queue (.next reports)) :: below, r⟩
  | next {e : Engine} {below : List (Activity Frame Ask)} {r : Reply Response EngineError}
    (reports : Bool) (flight : e.scheduler.inFlight = []) (bounded : Bounded e₀ scope e)
    (loops : Loops below) : Place e₀ scope ⟨e, .own (.queue (.next reports)) :: below, r⟩
  | left {e : Engine} {below : List (Activity Frame Ask)} {r : Reply Response EngineError}
    (bounded : Bounded e₀ scope e) (loops : Loops below) : Place e₀ scope ⟨e, below, r⟩
  | complete {e : Engine} {below : List (Activity Frame Ask)} (empty : e.scheduler.line = [])
    (loops : Loops below) (a : Response) : Place e₀ scope ⟨e, .own .complete :: below, .returned a⟩
  | listeners {e : Engine} {below : List (Activity Frame Ask)} {r : Reply Response EngineError}
    (changed : List String) (rest : List Nat) (empty : e.scheduler.line = [])
    (loops : Loops below) :
    Place e₀ scope ⟨e, .own (.listeners changed rest) :: below, r⟩
  | listener {e : Engine} {below : List (Activity Frame Ask)} {r : Reply Response EngineError}
    (l : Nat) (changed : List String) (rest : List Nat) (empty : e.scheduler.line = [])
    (loops : Loops below) :
    Place e₀ scope ⟨e, .ask (.listener l changed) :: .own (.listeners changed rest) :: below, r⟩
  | ended {e : Engine} {below : List (Activity Frame Ask)} (empty : e.scheduler.line = [])
    (loops : Loops below) (a : Response) : Place e₀ scope ⟨e, below, .returned a⟩
  | again {e : Engine} {below : List (Activity Frame Ask)} (reports : Bool)
    (empty : e.scheduler.line = []) (loops : Loops below) (a : Response) :
    Place e₀ scope ⟨e, .own (.queue (.begin reports)) :: below, .returned a⟩

/-! ## Steps of a drain -/

/-- Where nothing waits the drain is over. -/
theorem place_goOn_over (hover : e.scheduler.line = []) (hl : Loops below) (reports : Bool) :
    Place e₀ scope (after below (e.ofScheduler (e.scheduler.goOn reports))) := by
  obtain ⟨-, hq⟩ := List.append_eq_nil_iff.mp hover
  have hdone : { e with scheduler := { e.scheduler with draining := false } }.scheduler.line = [] :=
    hover
  unfold Scheduler.goOn
  rw [if_pos (by rw [hq]; rfl)]
  cases reports with
  | true => exact .complete hdone hl _
  | false => exact .ended hdone hl _

theorem place_goOn (hf : e.scheduler.inFlight = []) (h : Bounded e₀ scope e) (hl : Loops below)
    (reports : Bool) : Place e₀ scope (after below (e.ofScheduler (e.scheduler.goOn reports))) := by
  by_cases hq : e.scheduler.queue.entries = []
  · refine place_goOn_over ?_ hl reports
    rw [Scheduler.line, hf, hq]
    rfl
  · unfold Scheduler.goOn
    rw [if_neg (by simpa using hq)]
    -- The next batch waits, perhaps for a loop that begins
    unfold YieldPoint.defer
    dsimp only
    split
    · exact .left (h.congr rfl fun _ => id) hl
    · split
      · exact .left (h.congr rfl fun _ => id) hl
      · refine .left (h.congr rfl fun _ => id) fun f hf => ?_
        rcases List.mem_cons.mp hf with rfl | hf
        · rfl
        · exact hl f hf

theorem place_handOut (h : Bounded e₀ scope e) (hl : Loops below) (reports : Bool)
    (taken : List QueueEntry) :
    Place e₀ scope (after below (e.ofScheduler (e.scheduler.handOut reports taken))) := by
  unfold Scheduler.handOut
  split
  · next entry rest hf =>
    exact .process entry reports taken (h.line entry (mem_line_next hf))
      (h.congr rfl fun _ => mem_line hf) hl
  · next hf =>
    split
    · exact .batchDone reports hf (h.congr rfl fun _ => id) hl
    · exact place_goOn hf h hl reports

/-- A batch that begins where nothing waits ends the cycle once more. -/
theorem place_again (hover : e.scheduler.line = []) (hl : Loops below) (reports : Bool) :
    Place e₀ scope (after below (e.ofScheduler (e.scheduler.resume (.begin reports)))) := by
  obtain ⟨-, hq⟩ := List.append_eq_nil_iff.mp hover
  obtain ⟨hqueue, hbatch⟩ := Scheduler.takeBatch_of_empty hq
  have hresume : e.ofScheduler (e.scheduler.resume (.begin reports)) =
      e.taken.ofScheduler (e.taken.scheduler.handOut reports (e.scheduler.takeBatch none).1) := rfl
  have htaken : e.taken.scheduler.line = [] := List.append_eq_nil_iff.mpr ⟨hbatch, hqueue⟩
  rw [hresume]
  unfold Scheduler.handOut
  rw [show e.taken.scheduler.inFlight = [] from hbatch, hbatch]
  simp only [List.isEmpty_nil, Bool.not_true, Bool.and_false, Bool.false_eq_true, if_false]
  exact place_goOn_over htaken hl reports

/-- The loop of the yield point takes up the next batch, or is over. -/
theorem runNextThen_cases (y : YieldPoint Bool) :
    (y.resume .loop : YieldPoint.Move Bool EngineError) =
        .ret { y with running := false } .done ∨
      ∃ reports waiting, (y.resume .loop : YieldPoint.Move Bool EngineError) =
        .call { y with waiting } [.ask reports, .own .loop] := by
  unfold YieldPoint.resume YieldPoint.runNextThen
  dsimp only
  split
  · exact Or.inl rfl
  · exact Or.inr ⟨_, _, rfl⟩

/-- The loop of the yield point goes on within the scope. -/
theorem place_loop (h : Bounded e₀ scope e) (hl : Loops below) :
    Place e₀ scope (after below (e.resume (.queue (.yielding .loop)))) := by
  show Place e₀ scope (after below (e.ofScheduler (e.scheduler.ofYield
    (e.scheduler.yieldPoint.resume .loop))))
  rcases runNextThen_cases e.scheduler.yieldPoint with heq | ⟨reports, waiting, heq⟩
  · rw [heq]
    exact .left (h.congr rfl fun _ => id) hl
  · rw [heq]
    refine .begins reports (h.congr rfl fun _ => id) fun f hf => ?_
    rcases List.mem_cons.mp hf with rfl | hf
    · rfl
    · exact hl f hf

/-- When the cycle is over the loop finds nothing to do. -/
theorem place_loop_over (hover : e.scheduler.line = []) (hl : Loops below) :
    Place e₀ scope (after below (e.resume (.queue (.yielding .loop)))) := by
  show Place e₀ scope (after below (e.ofScheduler (e.scheduler.ofYield
    (e.scheduler.yieldPoint.resume .loop))))
  have hstill : ∀ y, { e with scheduler :=
      { e.scheduler with yieldPoint := y } }.scheduler.line = [] := fun _ => hover
  rcases runNextThen_cases e.scheduler.yieldPoint with heq | ⟨reports, waiting, heq⟩
  · rw [heq]
    exact .ended (hstill _) hl _
  · rw [heq]
    refine .again reports (hstill _) (fun f hf => ?_) _
    rcases List.mem_cons.mp hf with rfl | hf
    · rfl
    · exact hl f hf

/-- The rest of the watchers is told, and then the change is passed on. -/
theorem place_watchers {id : String} {old new : Value} {entry : QueueEntry} {reports : Bool}
    {taken : List QueueEntry} (hid : Within e₀ scope id) (h : Bounded e₀ scope e)
    (hl : Loops below) (ws : List Nat) :
    Place e₀ scope (after (.own (.propagate entry) :: .own (.queue (.batch reports taken)) :: below)
      (e.tellWatchers id old new ws)) := by
  cases ws with
  | nil => exact .propagate entry reports taken h hl
  | cons w ws => exact .watcher w id old new ws entry reports taken hid h hl

theorem place_listeners {changed : List String} (hover : e.scheduler.line = []) (hl : Loops below)
    (ls : List Nat) : Place e₀ scope (after below (e.tellListeners changed ls)) := by
  cases ls with
  | nil => exact .ended hover hl _
  | cons l ls => exact .listener l changed ls hover hl

theorem place_complete (hover : e.scheduler.line = []) (hl : Loops below) :
    Place e₀ scope (after below e.complete) := by
  unfold complete
  dsimp only
  split
  · refine .ended ?_ hl _
    exact hover
  · refine place_listeners ?_ hl _
    exact hover

theorem scheduler_complete (e : Engine) : e.complete.state.scheduler = e.scheduler := by
  unfold complete
  dsimp only
  split
  · rfl
  · rw [state_tellListeners]

/-! ## A whole cycle -/

/-- What holds all through a cycle with this scope that begins here. -/
structure Restricted (settings : Settings) (mode : YieldMode) (e₀ : Engine)
    (scope : Option String) (c : Running) : Prop where
  sound : Sound settings mode c.state
  untouched : Untouched e₀ scope c.state
  place : Place e₀ scope c

/-- Where nobody re-enters each step keeps the parts sound. -/
theorem Sound.step (h : Sound settings mode c.state)
    (answer : Engine → Ask → Reply Response EngineError) :
    Sound settings mode ((among answer).step c).state := by
  obtain ⟨e, stack, r⟩ := c
  match stack, r with
  | [], _ => exact h
  | .own f :: below, .returned r => exact state_after below (e.resume f) ▸ h.resume f
  | .own f :: below, .raised err =>
    exact state_after below (e.recover f err) ▸ h.congr (core_recover e f err)
  | .ask k :: below, _ => exact h

namespace Restricted

/-- A step that changes no values and texts. -/
theorem still (h : Restricted settings mode e₀ scope c)
    (hholdings : ((among answer).step c).state.holdings = c.state.holdings)
    (place : Place e₀ scope ((among answer).step c)) :
    Restricted settings mode e₀ scope ((among answer).step c) :=
  ⟨h.sound.step answer, h.untouched.congr hholdings, place⟩

/-- A move that at most reports something. -/
theorem told {m : Move} (h : Restricted settings mode e₀ scope c)
    (place : Place e₀ scope (after below m)) (hstep : (among answer).step c = after below m)
    (hstate : ∃ notices, m.state = { c.state with notices }) :
    Restricted settings mode e₀ scope ((among answer).step c) := by
  obtain ⟨notices, hstate⟩ := hstate
  have hstate' : ((among answer).step c).state = { c.state with notices } := by
    rw [hstep, state_after, hstate]
  exact h.still (by rw [hstate']; rfl) (hstep ▸ place)

/-- A step of the scheduler changes no values and texts. -/
theorem queue {f : Scheduler.Frame}
    (h : Restricted settings mode e₀ scope ⟨e, .own (.queue f) :: below, r⟩)
    (place : Place e₀ scope ((among answer).step ⟨e, .own (.queue f) :: below, r⟩)) :
    Restricted settings mode e₀ scope ((among answer).step ⟨e, .own (.queue f) :: below, r⟩) := by
  refine h.still ?_ place
  cases r with
  | returned a =>
    have hstate : ((among answer).step ⟨e, .own (.queue f) :: below, .returned a⟩).state =
        (e.ofScheduler (e.scheduler.resume f)).state := state_after below _
    rw [hstate]
    exact holdings_ofScheduler e _
  | raised err => rfl

/-- An update changes its own node, which lies within the scope. -/
theorem process (hc₀ : Sound settings mode e₀) {entry : QueueEntry} {reports : Bool}
    {taken : List QueueEntry} {a : Response} (h : Restricted settings mode e₀ scope
      ⟨e, .own (.process entry) :: .own (.queue (.batch reports taken)) :: below, .returned a⟩)
    (hid : Within e₀ scope entry.node) (hb : Bounded e₀ scope e) (hl : Loops below) :
    Restricted settings mode e₀ scope
      (after (.own (.queue (.batch reports taken)) :: below) (e.process entry)) := by
  have hc := h.sound
  have hc' : Sound settings mode (e.process entry).state := hc.process entry
  rcases process_cases hc.writing entry with
    ⟨e', r, heq, hholdings, hscope, hscheduler⟩ | ⟨n, v, e', ws, hn, heq, hholdings, hscope, hsame⟩
  · rw [heq] at hc' ⊢
    refine ⟨hc', h.untouched.congr hholdings, ?_⟩
    refine .batch reports taken (hb.congr hscope fun x hx => ?_) hl
    rcases hscheduler with hsame | hclear
    · exact hsame ▸ hx
    · rw [hclear] at hx
      exact absurd hx List.not_mem_nil
  · rw [heq] at hc' ⊢
    obtain ⟨hmem, hnode⟩ := Registry.mem_of_find? hn
    refine ⟨hc', ?_, ?_⟩
    · exact (h.untouched.withValue hc₀ hc hmem (hnode ▸ hid) v).congr hholdings
    · exact .watchers n.id n.lastValue v ws entry reports taken (hnode ▸ hid)
        (hb.congr hscope fun x hx => hsame ▸ hx) hl

/-- A change is passed on to nodes within the scope. -/
theorem propagate {entry : QueueEntry} {reports : Bool} {taken : List QueueEntry} {a : Response}
    (h : Restricted settings mode e₀ scope
      ⟨e, .own (.propagate entry) :: .own (.queue (.batch reports taken)) :: below, .returned a⟩)
    (hb : Bounded e₀ scope e) (hl : Loops below) :
    Restricted settings mode e₀ scope
      (after (.own (.queue (.batch reports taken)) :: below) (e.propagate entry)) := by
  have hc' : Sound settings mode (e.propagate entry).state := h.sound.resume (.propagate entry)
  cases hn : e.announcing with
  | nil =>
    have heq : e.propagate entry = e.finish := by
      unfold Engine.propagate
      rw [hn]
    rw [heq]
    exact ⟨h.sound, h.untouched, .batch reports taken hb hl⟩
  | cons n announcing =>
    obtain ⟨peers, r, heq⟩ := propagate_cases entry hn
    rw [heq] at hc' ⊢
    have hu : Untouched e₀ scope { e with announcing } := h.untouched.congr rfl
    have hb' : Bounded e₀ scope { e with announcing } := hb.congr rfl fun _ => id
    have hqueued := queued_passOnAll n entry.source (e.links.graph.successors n.id) peers
      { e with announcing }
    exact ⟨hc', hu.congr (holdings_queued hqueued),
      .batch reports taken (hb'.passOnAll hu n entry.source _ peers) hl⟩

/-- A cycle goes on within its scope. -/
theorem step (hc₀ : Sound settings mode e₀) (h : Restricted settings mode e₀ scope c)
    (hstack : c.stack ≠ []) : Restricted settings mode e₀ scope ((among answer).step c) := by
  have hplace := h.place
  cases hplace with
  | @begins e below r reports bounded loops =>
    refine h.queue ?_
    cases r with
    | returned a =>
      exact place_handOut (e := e.taken) (bounded.congr rfl fun _ hentry =>
        List.mem_append_right _ (mem_line_taken hentry)) loops reports _
    | raised err => exact .left (bounded.congr rfl fun _ => id) loops
  | @batch e below r reports taken bounded loops =>
    refine h.queue ?_
    cases r with
    | returned a => exact place_handOut bounded loops reports taken
    | raised err =>
      exact .left (bounded.congr rfl fun _ hentry => List.mem_append_right _ hentry) loops
  | @process e below r entry reports taken within bounded loops =>
    cases r with
    | returned a => exact h.process hc₀ within bounded loops
    | raised err => exact h.still rfl (.batch reports taken bounded loops)
  | @watchers e below r id old new rest entry reports taken within bounded loops =>
    cases r with
    | returned a =>
      exact h.told (place_watchers within bounded loops rest) rfl
        ⟨e.notices, state_tellWatchers e id old new rest⟩
    | raised err =>
      have hbounded : Bounded e₀ scope (e.report [.watcherFailed id]) :=
        bounded.congr rfl fun _ hentry => hentry
      exact h.told (place_watchers within hbounded loops rest) rfl
        ⟨_, state_tellWatchers (e.report [.watcherFailed id]) id old new rest⟩
  | @watcher e below r w id old new rest entry reports taken within bounded loops =>
    exact h.still rfl (.watchers id old new rest entry reports taken within bounded loops)
  | @propagate e below r entry reports taken bounded loops =>
    cases r with
    | returned a => exact h.propagate bounded loops
    | raised err => exact h.still rfl (.batch reports taken bounded loops)
  | @batchDone e below r reports flight bounded loops =>
    cases r with
    | returned a => exact h.still rfl (.next reports flight bounded loops)
    | raised err => exact h.still rfl (.next reports flight bounded loops)
  | @next e below r reports flight bounded loops =>
    refine h.queue ?_
    cases r with
    | returned a => exact place_goOn flight bounded loops reports
    | raised err => exact .left (bounded.congr rfl fun _ => id) loops
  | @left e below r bounded loops =>
    obtain ⟨below, rfl⟩ := loops.exists_of_ne_nil hstack
    have hrest : Loops below := fun f hf => loops f (List.mem_cons_of_mem _ hf)
    refine h.queue ?_
    cases r with
    | returned a => exact place_loop bounded hrest
    | raised err => exact .left (bounded.congr rfl fun _ => id) hrest
  | @complete e below empty loops a =>
    have hstate := state_after below e.complete
    refine h.still ?_
      (show Place e₀ scope ((among answer).step _) from place_complete empty loops)
    exact (congrArg holdings hstate).trans (holdings_complete e)
  | @listeners e below r changed rest empty loops =>
    cases r with
    | returned a =>
      exact h.told (place_listeners empty loops rest) rfl
        ⟨e.notices, state_tellListeners e changed rest⟩
    | raised err =>
      have hover : (e.report [.listenerFailed]).scheduler.line = [] := empty
      exact h.told (place_listeners hover loops rest) rfl
        ⟨_, state_tellListeners (e.report [.listenerFailed]) changed rest⟩
  | @listener e below r l changed rest empty loops =>
    exact h.still rfl (.listeners changed rest empty loops)
  | @ended e below empty loops a =>
    obtain ⟨below, rfl⟩ := loops.exists_of_ne_nil hstack
    exact h.queue (place_loop_over empty fun f hf => loops f (List.mem_cons_of_mem _ hf))
  | again reports empty loops a => exact h.queue (place_again empty loops reports)

/-- Whatever a cycle comes to, it stays within its scope. -/
theorem visits (hc₀ : Sound settings mode e₀) (h : Restricted settings mode e₀ scope c)
    (hv : Visits (among answer) c c') : Restricted settings mode e₀ scope c' := by
  obtain ⟨n, rfl⟩ := hv
  exact Machine.run_keeps (fun hr hstack => hr.step hc₀ hstack) h n

/-- Only nodes within the scope are evaluated. -/
theorem evaluated (h : Restricted settings mode e₀ scope c) {u : Update}
    (hu : updates c = some u) {id : String} (hid : u.evaluated? = some id) :
    ∃ n ∈ e₀.registry.nodes, n.id = id ∧
      (id ∈ e₀.scheduler.line.map (·.node) ∨ inScope n.scope scope = true) := by
  have hplace := h.place
  have huntouched := h.untouched
  -- An update begins only where one is processed
  obtain ⟨e, stack, r⟩ := c
  unfold updates at hu
  split at hu
  · next entry below a hstack hreply =>
    cases hstack
    cases hreply
    cases hu
    unfold Update.evaluated? at hid
    split at hid
    · next n hfate =>
      cases hid
      have hfound : e.registry.find? entry.node = some n := (evaluates_of_fate hfate).found
      obtain ⟨hmem, hnode⟩ := Registry.mem_of_find? hfound
      obtain ⟨m, hm, hdeclared⟩ := exists_of_declared huntouched.declared.symm hfound
      have hwithin : Within e₀ scope entry.node := by
        cases hplace with
        | process _ _ _ within => exact within
        | left _ loops => exact absurd (loops _ List.mem_cons_self) Bool.false_ne_true
        | ended _ loops => exact absurd (loops _ List.mem_cons_self) Bool.false_ne_true
      obtain ⟨hmem', hid⟩ := Registry.mem_of_find? hm
      exact ⟨m, hmem', hid.trans hnode.symm,
        hnode ▸ hwithin.imp_right fun hscope => hscope m hm⟩
    · cases hid
  · cases hu

/-- Only the watchers of nodes within the scope are told anything. -/
theorem asked (h : Restricted settings mode e₀ scope c) {w : Nat} {id : String} {old new : Value}
    (hk : .ask (.watcher w id old new) ∈ c.stack) : Within e₀ scope id := by
  have hloops : ∀ {below : List (Activity Frame Ask)}, Loops below →
      .ask (.watcher w id old new) ∉ below := fun hl hmem =>
    absurd (hl _ hmem) Bool.false_ne_true
  cases h.place with
  | begins _ _ loops | batch _ _ _ loops | next _ _ _ loops | left _ loops | complete _ loops
  | listeners _ _ _ loops | ended _ loops | again _ _ loops | process _ _ _ _ _ loops
  | watchers _ _ _ _ _ _ _ _ _ loops | propagate _ _ _ _ loops | batchDone _ _ _ loops
  | listener _ _ _ _ loops =>
    simp [hloops loops] at hk
  | watcher _ _ _ _ _ _ _ _ within _ loops =>
    simp only [List.mem_cons, Activity.ask.injEq, Ask.watcher.injEq, reduceCtorEq, hloops loops,
      or_false] at hk
    exact hk.2.1 ▸ within

end Restricted

/-- A cycle that begins with nodes within its scope is restricted to it. -/
theorem restricted_schedule (hc : Sound settings mode e)
    (hscope : e.phase ≠ .evaluating ∨ e.scope = scope) {ids : List String}
    (hids : ∀ id ∈ ids, Within e scope id) (priority : Priority) (source : Option String) :
    Restricted settings mode e scope (after [] (e.schedule ids priority source scope).drain) := by
  have hbounded : Bounded e scope (e.schedule ids priority source scope) :=
    .schedule (fun _ hentry => Or.inl (List.mem_map_of_mem hentry)) hscope hids priority source
  have hu : Untouched e scope (e.schedule ids priority source scope) :=
    (Untouched.refl e scope).congr (holdings_schedule e ids priority source scope)
  have hc' : Sound settings mode (e.schedule ids priority source scope).drain.state :=
    hc.schedule_drain ids priority source scope
  obtain ⟨phase, draining, fs, hfs, hdrain⟩ := drain_cases (e.schedule ids priority source scope)
  rw [← state_after [], hdrain] at hc'
  rw [hdrain]
  refine ⟨hc', hu.congr rfl, ?_⟩
  rcases hfs with rfl | rfl
  · exact .left (hbounded.congr rfl fun _ => id) fun f hf => absurd hf List.not_mem_nil
  · exact .begins true (hbounded.congr rfl fun _ => id) fun f hf => absurd hf List.not_mem_nil

/-- A recompute is restricted to its scope, as the form declares it. -/
theorem restricted_recompute (hc : Sound settings mode e) (hr : e.Readable)
    (hscope : e.phase ≠ .evaluating ∨ e.scope = scope) :
    Restricted settings mode e.rescan.1 scope (after [] (e.recompute scope)) := by
  rw [recompute_eq hc hr]
  refine restricted_schedule hc.rescan (by rwa [phase_rescan, scope_rescan])
    (fun id hid => Or.inr fun n hn => ?_) .normal none
  have hany := (List.mem_filter.mp hid).2
  rwa [hn, Option.any_some] at hany

/-! ## Where no output was declared anew -/

/-- The registry has the outputs as the form declares them. -/
def Unchanged (e : Engine) : Prop :=
  List.Forall₂ OutputNode.Suits e.registry.nodes (e.tree.outputSpecs none)

theorem unchanged_iff : e.Unchanged ↔
    e.registry.nodes.length = (e.tree.outputSpecs none).length ∧
      ∀ p ∈ e.registry.nodes.zip (e.tree.outputSpecs none), p.1.Suits p.2 := by
  rw [Unchanged, List.forall₂_iff_zip, Prod.forall]

instance : Decidable e.Unchanged := decidable_of_iff _ unchanged_iff.symm

/-- A reading of the form that breaks off leaves nothing to be done. -/
theorem visits_of_not_readable (hn : ¬ e.Readable) {scope : Option String}
    (hv : Visits (among answer) (after [] (e.recompute scope)) c) :
    c.state = e.rescan.1 ∧ c.stack = [] := by
  obtain ⟨n, rfl⟩ := hv
  rw [recompute_of_not_readable hn, Machine.run_of_stack_nil rfl]
  exact ⟨rfl, rfl⟩

/-- A recompute in a scope evaluates only outputs in the scope, however the outputs are linked, and
leaves every other output as it is, with the text of its field; its watchers hear nothing.  At most
its links are brought up to date, if reading the form had broken off before.  The exception are
outputs that wait already.  Nothing waits, unless a watcher or listener has stopped the engine
listening in the middle of a drain. -/
theorem recompute_restricted
    (arises : Arises settings mode (fun _ => True) (fun _ _ => True) ⟨e, [], r⟩)
    (idle : e.phase ≠ .evaluating) (unchanged : e.Unchanged) (scope : String)
    (visits : Visits (among answer) (after [] (e.recompute (some scope))) c) :
    (∀ u id, updates c = some u → u.evaluated? = some id → ∃ n ∈ e.registry.nodes, n.id = id ∧
      (id ∈ e.scheduler.line.map (·.node) ∨ inScope n.scope (some scope) = true)) ∧
    (∀ n ∈ e.registry.nodes, inScope n.scope (some scope) = false →
      n.id ∉ e.scheduler.line.map (·.node) →
      (∃ linked, c.state.registry.find? n.id = some { n with linked } ∧
        (e.Linked → linked = n.linked)) ∧
      c.state.tree.read n.field = e.tree.read n.field ∧
        ∀ w old new, .ask (.watcher w n.id old new) ∉ c.stack) ∧
    (Reachable settings .immediate ⟨e, [], r⟩ → e.scheduler.line = []) := by
  have hc : Sound settings mode e := arises.sound
  obtain ⟨links, hnodes⟩ := nodes_rescan_of_suits hc.ids unchanged
  have hrestricted (hr : e.Readable) : Restricted settings mode e.rescan.1 (some scope) c :=
    (restricted_recompute hc hr (Or.inl idle)).visits hc.rescan visits
  refine ⟨fun u id hu hid => ?_, fun n hn hout hwaits => ?_, fun hreachable => ?_⟩
  · by_cases hr : e.Readable
    · obtain ⟨m, hm, hmid, hwithin⟩ := (hrestricted hr).evaluated hu hid
      rw [hnodes] at hm
      obtain ⟨n, hn, rfl⟩ := List.mem_map.mp hm
      exact ⟨n, hn, hmid, scheduler_rescan e ▸ hwithin⟩
    · obtain ⟨-, hstack⟩ := visits_of_not_readable hr visits
      rw [updates, hstack] at hu
      cases hu
  · have hn' : { n with linked := links n } ∈ e.rescan.1.registry.nodes :=
      hnodes ▸ List.mem_map_of_mem hn
    have hfound : e.rescan.1.registry.find? n.id = some { n with linked := links n } :=
      Registry.find?_of_mem hc.rescan.ids hn'
    have hlinks (hl : e.Linked) : links n = n.linked := by
      rw [registry_rescan_of_suits hc.ids (fun _ => hl) unchanged,
        Registry.find?_of_mem hc.ids hn] at hfound
      exact (congrArg OutputNode.linked (Option.some.inj hfound)).symm
    by_cases hr : e.Readable
    · have hwithin : ¬ Within e.rescan.1 (some scope) n.id := by
        rintro (hwaits' | hscope)
        · exact hwaits (scheduler_rescan e ▸ hwaits')
        · rw [hscope _ hfound] at hout
          cases hout
      have huntouched := (hrestricted hr).untouched
      have htext := huntouched.text _ hn' hwithin
      rw [tree_rescan] at htext
      exact ⟨⟨links n, (huntouched.node n.id hwithin).trans hfound, hlinks⟩, htext,
        fun w old new hk => hwithin ((hrestricted hr).asked hk)⟩
    · obtain ⟨hstate, hstack⟩ := visits_of_not_readable hr visits
      rw [hstate, hstack, tree_rescan]
      exact ⟨⟨links n, hfound, hlinks⟩, rfl, fun _ _ _ => List.not_mem_nil⟩
  · have hquiet := quiet_of_reachable hreachable idle
    rw [Scheduler.line, hquiet.queue, hquiet.flight]
    rfl

/-- Two outputs in different scopes that read each other. -/
def crossingTree : FormTree :=
  ((({} : FormTree).withField "x" "1" "").withOutput
    { id := "a", expression := "b + x", scope := "s" } "").withOutput
    { id := "b", expression := "a", scope := "t" } ""

theorem proper_crossingTree : crossingTree.Proper :=
  (((FormTree.proper_empty false).withField _ _ _).withOutput _ _).withOutput _ _

/-- The engine that has read them and computed nothing. -/
def crossingEngine : Engine :=
  ((Engine.create crossingTree {} .immediate false).perform (.attach false)).state

/-- A recompute of the one does not come to the other, which reads it. -/
theorem recompute_restricted_crossing :
    ∃ c, Visits (among fun _ _ => .returned default)
        (after [] (crossingEngine.recompute (some "s"))) c ∧ c.stack = [] ∧
      (∃ n, c.state.registry.find? "a" = some n ∧ n.evaluated = true) ∧
      (∃ n, c.state.registry.find? "b" = some n ∧ n.evaluated = false) ∧
      c.state.tree.read "b" = some "" := by
  have hattached : Arises {} .immediate (fun _ => True) (fun _ _ => True)
      (after [] ((Engine.create crossingTree {} .immediate false).perform (.attach false))) :=
    .perform (.create proper_crossingTree trivial false) trivial
  have hreadable : (Engine.create crossingTree {} .immediate false).Readable := by decide +kernel
  have harises : Arises {} .immediate (fun _ => True) (fun _ _ => True)
      ⟨crossingEngine, [], .returned default⟩ := by
    rw [perform_attach_of_readable hreadable] at hattached
    rw [crossingEngine, perform_attach_of_readable hreadable]
    exact hattached
  have hidle : crossingEngine.phase ≠ .evaluating := by decide +kernel
  have hunchanged : crossingEngine.Unchanged := by decide +kernel
  have hvisits : Visits (among fun _ _ => .returned default)
      (after [] (crossingEngine.recompute (some "s")))
      ((among fun _ _ => .returned default).run 40
        (after [] (crossingEngine.recompute (some "s")))) := ⟨40, rfl⟩
  obtain ⟨-, houtside, -⟩ := recompute_restricted harises hidle hunchanged "s" hvisits
  have hb : ∃ n ∈ crossingEngine.registry.nodes, n.id = "b" ∧ n.field = "b" ∧
      n.evaluated = false ∧ inScope n.scope (some "s") = false := by decide +kernel
  obtain ⟨n, hn, hid, hfield, hunevaluated, hscope⟩ := hb
  have hwaits : n.id ∉ crossingEngine.scheduler.line.map (·.node) := by
    rw [hid]
    decide +kernel
  obtain ⟨⟨linked, hfound, -⟩, hread, -⟩ := houtside n hn hscope hwaits
  rw [hid] at hfound
  rw [hfield] at hread
  have htext : crossingEngine.tree.read "b" = some "" := by decide +kernel
  refine ⟨_, hvisits, List.isEmpty_iff.mp (by decide +kernel), ?_, ⟨_, hfound, hunevaluated⟩,
    hread.trans htext⟩
  have ha : (((among fun _ _ => .returned default).run 40
      (after [] (crossingEngine.recompute (some "s")))).state.registry.find? "a").any
        (·.evaluated) = true := by decide +kernel
  exact (Option.any_eq_true _ _).mp ha

/-! ## Where something waits -/

/-- An output, and two that read it in another scope; one of these cannot be evaluated. -/
def failingTree : FormTree :=
  (((({} : FormTree).withField "x" "1" "").withOutput
    { id := "a", expression := "x", scope := "s" } "").withOutput
    { id := "p", expression := "é + a", scope := "t" } "").withOutput
    { id := "q", expression := "a", scope := "t" } ""

theorem proper_failingTree : failingTree.Proper :=
  ((((FormTree.proper_empty false).withField _ _ _).withOutput _ _).withOutput _ _).withOutput _ _

/-- An engine that takes one update at a time and whose output `a` is watched. -/
def watchedEngine : Engine :=
  (((Engine.create failingTree { batchSize := 1 } .immediate false).perform
    (.attach false)).state.watch "a").2

/-- The watcher is being told of a change. -/
def telling : Running :=
  (among fun _ _ => .returned default).run 3
    (after [] (watchedEngine.perform (.setValue "x" (.text "2") true)))

/-- What is left when the watcher stops the engine listening, and the drain then fails. -/
def stopped : Running :=
  (among fun _ _ => .returned default).run 20
    (after telling.stack (telling.state.perform .detach))

theorem arises_stopped :
    Arises { batchSize := 1 } .immediate (fun _ => True) (fun _ _ => True) stopped := by
  have hattached : Arises { batchSize := 1 } .immediate (fun _ => True) (fun _ _ => True)
      (after [] ((Engine.create failingTree { batchSize := 1 } .immediate false).perform
        (.attach false))) :=
    .perform (.create proper_failingTree trivial false) trivial
  have hreadable : (Engine.create failingTree { batchSize := 1 } .immediate false).Readable := by
    decide +kernel
  have hwatched : Arises { batchSize := 1 } .immediate (fun _ => True) (fun _ _ => True)
      ⟨watchedEngine, [], .returned default⟩ := by
    rw [perform_attach_of_readable hreadable] at hattached
    rw [watchedEngine, perform_attach_of_readable hreadable]
    exact .aside hattached ⟨_, _, _, _, _, rfl⟩
  have htelling : Arises { batchSize := 1 } .immediate (fun _ => True) (fun _ _ => True) telling :=
    .run (.perform hwatched trivial) _ 3
  have hasks : telling.stack.head?.any isAsk = true := by decide +kernel
  obtain ⟨k, below, hstack⟩ := exists_of_isAsk hasks
  refine .run ?_ _ 20
  rw [hstack]
  refine .reenter (r := telling.reply) ?_ trivial
  rw [← hstack]
  exact htelling

/-- Then an update waits in an idle engine, and a recompute in another scope makes it. -/
theorem recompute_escapes :
    ∃ settings e r c u, Arises settings .immediate (fun _ => True) (fun _ _ => True) ⟨e, [], r⟩ ∧
      e.phase = .idle ∧ e.Unchanged ∧
      Visits (among fun _ _ => .returned default) (after [] (e.recompute (some "s"))) c ∧
      updates c = some u ∧ u.evaluated? = some "q" ∧
      ∃ n, e.registry.find? "q" = some n ∧ inScope n.scope (some "s") = false := by
  have hstack : stopped.stack = [] := List.isEmpty_iff.mp (by decide +kernel)
  have harises : Arises { batchSize := 1 } .immediate (fun _ => True) (fun _ _ => True)
      ⟨stopped.state, [], stopped.reply⟩ := hstack ▸ arises_stopped
  have hevaluated : (updates ((among fun _ _ => .returned default).run 1
      (after [] (stopped.state.recompute (some "s"))))).bind Update.evaluated? = some "q" := by
    decide +kernel
  have hscope : (stopped.state.registry.find? "q").any
      (fun n => !inScope n.scope (some "s")) = true := by decide +kernel
  obtain ⟨u, hu, hq⟩ := Option.bind_eq_some_iff.mp hevaluated
  obtain ⟨n, hn, hout⟩ := (Option.any_eq_true _ _).mp hscope
  exact ⟨_, _, _, _, u, harises, by decide +kernel, by decide +kernel, ⟨1, rfl⟩, hu, hq, n, hn,
    by simpa using hout⟩

end LiveForm.Engine
