import LiveForm.Proofs.Clock.Debouncer
import LiveForm.Proofs.Engine.Editing
import LiveForm.Proofs.Engine.Separate
import LiveForm.Proofs.Engine.Truthful

/-!
# Changes are watched

Where outputs read no outputs, and watchers and listeners only listen, nothing comes between a
change and the updates that it leads to: at each step every output is up to date, or waits, or reads
a field whose change rests or is about to be handled.
-/

namespace LiveForm.Engine

open Machine (after)

variable {settings : Settings} {mode : YieldMode} {e e' : Engine} {compute : Bool}
  {below : List (Activity Frame Ask)}

/-! ## The stack where nobody re-enters -/

/-- The change of an input, under its own key. -/
def OfInput (key change : Trigger) : Prop := ∃ v, key = .input v ∧ change = .input v

theorem unique_ofInput (key t t' : Trigger) (h : OfInput key t) (h' : OfInput key t') : t = t' := by
  obtain ⟨v, rfl, rfl⟩ := h
  obtain ⟨w, heq, rfl⟩ := h'
  exact heq

/-- The update that a frame is about to make. -/
def makes : Activity Frame Ask → List QueueEntry
  | .own (.process entry) => [entry]
  | _ => []

/-- The changes that a frame is about to handle. -/
def handles : Activity Frame Ask → List Trigger
  | .own (.handle t) => [t]
  | .own (.clock f) => f.works
  | _ => []

/-- A watcher or listener is being told something. -/
def isAsk : Activity Frame Ask → Bool
  | .ask _ => true
  | .own _ => false

theorem exists_of_isAsk {stack : List (Activity Frame Ask)} (h : stack.head?.any isAsk = true) :
    ∃ k below, stack = .ask k :: below := by
  match stack with
  | [] => cases h
  | .own f :: below => cases h
  | .ask k :: below => exact ⟨k, below, rfl⟩

/-- A watcher or listener has been told something. -/
def Tells : List (Activity Frame Ask) → Prop
  | .own (.watchers ..) :: _ | .own (.listeners ..) :: _ => True
  | _ => False

/-- What a frame sits on: timers fire below anything else, and whoever is asked is being told. -/
def Sits (below : List (Activity Frame Ask)) : Activity Frame Ask → Prop
  | .ask _ => Tells below
  | .own (.handle t) => (∃ v, t = .input v) ∧ ∀ f ∈ below, isClock f = true
  | .own (.clock f) => f.Keyed OfInput ∧ ∀ f ∈ below, isClock f = true
  | _ => True

/-- The stack where nobody re-enters: each frame sits well, and only that on top makes an update. -/
def Seated : List (Activity Frame Ask) → Prop
  | [] => True
  | f :: below => Sits below f ∧ below.flatMap makes = [] ∧ Seated below

theorem seated_nil : Seated [] := trivial

/-- Failures come only from operations that do not even begin, and from watchers and listeners. -/
structure Level (c : Running) : Prop where
  seated : Seated c.stack
  told : ∀ err, c.reply = .raised err → c.stack = [] ∨ Tells c.stack

theorem level_returned {stack : List (Activity Frame Ask)} (h : Seated stack) (r : Response) :
    Level ⟨e, stack, .returned r⟩ :=
  ⟨h, fun _ he => by cases he⟩

/-- Who is being told may be asked. -/
theorem Seated.telling {f : Frame} (h : Seated below) (hmakes : below.flatMap makes = [])
    (ht : Tells (.own f :: below)) (k : Ask) : Seated (.ask k :: .own f :: below) := by
  have hf : makes (.own f) = [] ∧ Sits below (.own f) := by
    cases f with
    | watchers id old new rest => exact ⟨rfl, trivial⟩
    | listeners changed rest => exact ⟨rfl, trivial⟩
    | _ => exact ht.elim
  refine ⟨ht, ?_, hf.2, hmakes, h⟩
  rw [List.flatMap_cons, hf.1, hmakes]
  rfl

/-- The frames of the debouncer in the engine. -/
def clockFrames (fs : List (Activity (Debouncer.Frame Trigger Trigger) Trigger)) :
    List (Activity Frame Ask) :=
  fs.map (Activity.elim (fun f => .own (.clock f)) fun t => .own (.handle t))

theorem makes_clockFrames (fs : List (Activity (Debouncer.Frame Trigger Trigger) Trigger)) :
    (clockFrames fs).flatMap makes = [] := by
  refine List.flatMap_eq_nil_iff.mpr fun f hf => ?_
  obtain ⟨g, -, rfl⟩ := List.mem_map.mp hf
  cases g <;> rfl

theorem handles_clockFrames (fs : List (Activity (Debouncer.Frame Trigger Trigger) Trigger)) :
    (clockFrames fs).flatMap handles = fs.flatMap Debouncer.worksOf := by
  rw [clockFrames, List.flatMap_map]
  congr 1
  funext f
  cases f <;> rfl

theorem isClock_clockFrames {fs : List (Activity (Debouncer.Frame Trigger Trigger) Trigger)}
    {f : Activity Frame Ask} (hf : f ∈ clockFrames fs) : isClock f = true := by
  obtain ⟨g, -, rfl⟩ := List.mem_map.mp hf
  cases g <;> rfl

/-- The frames of the scheduler in the engine. -/
def queueFrames (fs : List (Activity Scheduler.Frame Scheduler.Ask)) : List (Activity Frame Ask) :=
  fs.map (Activity.elim (fun f => .own (.queue f)) fun
    | .process entry => .own (.process entry)
    | .batchDone _ => .own .batchDone
    | .idle => .own .complete)

theorem makes_queueFrames (fs : List (Activity Scheduler.Frame Scheduler.Ask)) :
    (queueFrames fs).flatMap makes = fs.flatMap Scheduler.asked := by
  rw [queueFrames, List.flatMap_map]
  congr 1
  funext f
  match f with
  | .own f => rfl
  | .ask (.process entry) => rfl
  | .ask (.batchDone batch) => rfl
  | .ask .idle => rfl

/-- These frames handle no changes, and sit on anything. -/
theorem sits_queueFrames {fs : List (Activity Scheduler.Frame Scheduler.Ask)}
    {f : Activity Frame Ask} (hf : f ∈ queueFrames fs) :
    handles f = [] ∧ ∀ below, Sits below f := by
  obtain ⟨g, -, rfl⟩ := List.mem_map.mp hf
  match g with
  | .own f => exact ⟨rfl, fun _ => trivial⟩
  | .ask (.process entry) => exact ⟨rfl, fun _ => trivial⟩
  | .ask (.batchDone batch) => exact ⟨rfl, fun _ => trivial⟩
  | .ask .idle => exact ⟨rfl, fun _ => trivial⟩

/-- Frames that sit on anything may be put on a stack if only the first one makes an update. -/
theorem Seated.push (h : Seated below) (hmakes : below.flatMap makes = [])
    {fs : List (Activity Frame Ask)} (sits : ∀ f ∈ fs, ∀ below, Sits below f)
    (first : fs.tail.flatMap makes = []) : Seated (fs ++ below) := by
  have hnone : ∀ fs : List (Activity Frame Ask), fs.flatMap makes = [] →
      (fs ++ below).flatMap makes = [] := fun fs hfs => by
    rw [List.flatMap_append, hfs, hmakes]
    rfl
  have hall : ∀ fs : List (Activity Frame Ask), (∀ f ∈ fs, ∀ below, Sits below f) →
      fs.flatMap makes = [] → Seated (fs ++ below) := by
    intro fs
    induction fs with
    | nil => exact fun _ _ => h
    | cons f fs ih =>
      intro hsits hfs
      rw [List.flatMap_cons, List.append_eq_nil_iff] at hfs
      exact ⟨hsits f List.mem_cons_self _, hnone fs hfs.2,
        ih (fun g hg => hsits g (List.mem_cons_of_mem _ hg)) hfs.2⟩
  cases fs with
  | nil => exact h
  | cons f fs =>
    exact ⟨sits f List.mem_cons_self _, hnone fs first,
      hall fs (fun g hg => sits g (List.mem_cons_of_mem _ hg)) first⟩

/-- Where there are only timers below, work may be done that belongs to its key. -/
theorem seated_clockFrames {fs : List (Activity (Debouncer.Frame Trigger Trigger) Trigger)}
    (frames : ∀ f, Activity.own f ∈ fs → f.Keyed OfInput)
    (asks : ∀ t, Activity.ask t ∈ fs → ∃ key, OfInput key t)
    (hclock : ∀ f ∈ below, isClock f = true) (hmakes : below.flatMap makes = [])
    (h : Seated below) : Seated (clockFrames fs ++ below) := by
  induction fs with
  | nil => exact h
  | cons f fs ih =>
    have hseated := ih (fun g hg => frames g (List.mem_cons_of_mem _ hg))
      fun t ht => asks t (List.mem_cons_of_mem _ ht)
    have hnone : (clockFrames fs ++ below).flatMap makes = [] := by
      rw [List.flatMap_append, makes_clockFrames, hmakes, List.append_nil]
    have hall : ∀ g ∈ clockFrames fs ++ below, isClock g = true := fun g hg =>
      (List.mem_append.mp hg).elim isClock_clockFrames (hclock g)
    cases f with
    | own f => exact ⟨⟨frames f List.mem_cons_self, hall⟩, hnone, hseated⟩
    | ask t =>
      obtain ⟨key, v, -, ht⟩ := asks t List.mem_cons_self
      exact ⟨⟨⟨v, ht⟩, hall⟩, hnone, hseated⟩

/-- A drain begins, or one is going on already. -/
theorem drain_cases (e : Engine) :
    ∃ phase draining, ∃ fs : List (Activity Frame Ask),
      (fs = [] ∨ fs = [.own (.queue (.begin true))]) ∧ ∀ below, after below e.drain =
        ⟨{ e with phase, scheduler := { e.scheduler with draining } }, fs ++ below,
          .returned default⟩ := by
  by_cases hd : e.scheduler.draining = true
  · have hdrain : e.drain = e.finish := by
      simp only [drain, Scheduler.drain, hd, if_true]
      rfl
    refine ⟨e.phase, e.scheduler.draining, [], Or.inl rfl, fun below => ?_⟩
    rw [hdrain]
    rfl
  · refine ⟨.evaluating, true, _, Or.inr rfl, fun below => ?_⟩
    simp only [drain, Scheduler.drain, hd, Bool.false_eq_true, if_false]
    rfl

/-! ## What is minded -/

/-- A node is up to date, or waits, or reads a field whose change rests or is to be handled. -/
def Minded (e : Engine) (stack : List (Activity Frame Ask)) (n : OutputNode) : Prop :=
  e.UpToDate n.id ∨ n.id ∈ (stack.flatMap makes ++ e.scheduler.line).map (·.node) ∨
    ∃ v, Trigger.input v ∈ stack.flatMap handles ++ e.debouncer.works ∧
      reads n.dependencies v = true

/-- An engine that listens to a form whose outputs read no outputs: all nodes are minded, or, if
nothing was computed at first, those that were evaluated since. -/
structure Watchful (settings : Settings) (compute : Bool) (c : Running) : Prop where
  apart : Apart settings c.state
  linked : c.state.Linked
  attached : c.state.attached = true
  bound : ∀ name ∈ c.state.tree.fields.map (·.1),
    c.state.bindings.any (·.1 == variableName name) = true
  announced : ∀ n ∈ c.state.announcing, n.id ∉ n.linked
  keyed : c.state.debouncer.Keyed OfInput
  untimed : c.state.debounces = false → c.state.debouncer.pending = []
  ready : Ready c.state (c.stack.flatMap makes ++ c.state.scheduler.line)
  level : Level c
  minded : ∀ n ∈ c.state.registry.nodes, compute = true ∨ n.evaluated = true →
    Minded c.state c.stack n

/-- All that is watched but the updates of the running cycle. -/
def outstanding (e : Engine) :=
  (e.holdings, e.attached, e.announcing, e.debounces, e.debouncer, e.scheduler)

/-- No cycle is broken off while an update is to be made. -/
theorem Steady.running_of_process {entry : QueueEntry} {r : Reply Response EngineError}
    (h : Steady ⟨e, .own (.process entry) :: below, r⟩) : e.halted = false := by
  cases h with
  | going balanced running failing => exact running
  | ending balanced ending =>
    obtain ⟨-, -, -, f, rest, hstack, hf⟩ := ending
    obtain ⟨rfl, -⟩ := List.cons.inj hstack
    rcases hf with hf | hf <;> cases hf
  | completing rest hstack => cases hstack

namespace Watchful

theorem ready_front (before : List (Activity Frame Ask)) {r : Reply Response EngineError}
    (h : Watchful settings compute ⟨e, before ++ below, r⟩) (hmakes : below.flatMap makes = []) :
    Ready e (before.flatMap makes ++ e.scheduler.line) := by
  have hready : Ready e ((before ++ below).flatMap makes ++ e.scheduler.line) := h.ready
  rwa [List.flatMap_append, hmakes, List.append_nil] at hready

/-- A move that changes no value keeps watch, if the updates that waited still do, and the changes
that were to be handled are, or else all nodes wait that read them. -/
theorem move (before fs : List (Activity Frame Ask)) {r r' : Reply Response EngineError}
    (h : Watchful settings compute ⟨e, before ++ below, r⟩) (hc : Coherent settings mode e)
    (hc' : Sound settings mode e') (hmakes : below.flatMap makes = [])
    (hholdings : e'.holdings = e.holdings) (hattached : e'.attached = e.attached)
    (hannouncing : ∀ n ∈ e'.announcing, n ∈ e.announcing)
    (keyed : e'.debouncer.Keyed OfInput)
    (untimed : e'.debounces = false → e'.debouncer.pending = [])
    (ready : Ready e' (fs.flatMap makes ++ e'.scheduler.line))
    (waiting : ∀ id ∈ (before.flatMap makes ++ e.scheduler.line).map (·.node),
      id ∈ (fs.flatMap makes ++ e'.scheduler.line).map (·.node))
    (handled : ∀ v, Trigger.input v ∈ before.flatMap handles ++ e.debouncer.works →
      Trigger.input v ∈ fs.flatMap handles ++ e'.debouncer.works ∨
        ∀ n ∈ e.registry.nodes, reads n.dependencies v = true →
          n.id ∈ (fs.flatMap makes ++ e'.scheduler.line).map (·.node))
    (level : Level ⟨e', fs ++ below, r'⟩) :
    Watchful settings compute ⟨e', fs ++ below, r'⟩ := by
  have hregistry : e'.registry = e.registry := congrArg (·.2.2.1) hholdings
  have hfields : e'.tree.fields = e.tree.fields := congrArg (·.2.1) hholdings
  have hbindings : e'.bindings = e.bindings := congrArg (·.2.2.2.1) hholdings
  have htasks : ∀ front : List (Activity Frame Ask),
      (front ++ below).flatMap makes = front.flatMap makes := fun front => by
    rw [List.flatMap_append, hmakes, List.append_nil]
  refine ⟨h.apart.congr ?_, linked_of_holdings hholdings h.linked, hattached.trans h.attached, ?_,
    fun n hn => h.announced n (hannouncing n hn), keyed, untimed, ?_, level,
    fun n hn hpromised => ?_⟩
  · show e'.registry.nodes.map _ = e.registry.nodes.map _
    rw [hregistry]
  · show ∀ name ∈ e'.tree.fields.map (·.1), e'.bindings.any _ = true
    rw [hfields, hbindings]
    exact h.bound
  · show Ready e' ((fs ++ below).flatMap makes ++ e'.scheduler.line)
    rw [htasks]
    exact ready
  · have hn' : n ∈ e.registry.nodes := hregistry ▸ hn
    rcases h.minded n hn' hpromised with hup | hwaits | ⟨v, hv, hread⟩
    · refine Or.inl (hup.congr hc.toSound hc' (find?_of_holdings hholdings _)
        (congrArg (·.2.2.2.2.1) hholdings) fun _ _ name _ => ?_)
      exact congrFun (resolve_of_holdings hholdings) name
    · refine Or.inr (Or.inl ?_)
      rw [htasks] at hwaits ⊢
      exact waiting n.id hwaits
    · refine Or.inr ?_
      rw [htasks]
      rw [List.flatMap_append, List.append_assoc] at hv
      -- The frames below are still to handle what they were to handle
      by_cases hbelow : Trigger.input v ∈ below.flatMap handles
      · refine Or.inr ⟨v, ?_, hread⟩
        rw [List.flatMap_append, List.append_assoc]
        exact List.mem_append_right _ (List.mem_append_left _ hbelow)
      · have hfront : Trigger.input v ∈ before.flatMap handles ++ e.debouncer.works := by
          rcases List.mem_append.mp hv with hv | hv
          · exact List.mem_append_left _ hv
          · exact List.mem_append_right _ ((List.mem_append.mp hv).resolve_left hbelow)
        rcases handled v hfront with hv | hall
        · refine Or.inr ⟨v, ?_, hread⟩
          rw [List.flatMap_append, List.append_assoc]
          rcases List.mem_append.mp hv with hv | hv
          · exact List.mem_append_left _ hv
          · exact List.mem_append_right _ (List.mem_append_right _ hv)
        · exact Or.inl (hall n hn' hread)

/-- A step that changes no value, and nothing that waits or rests. -/
theorem restack {stack stack' : List (Activity Frame Ask)} {r r' : Reply Response EngineError}
    (h : Watchful settings compute ⟨e, stack, r⟩) (hc : Coherent settings mode e)
    (hc' : Sound settings mode e') (hsame : e'.outstanding = e.outstanding)
    (hpasses : ∀ id ∈ e'.passes.map (·.1), id ∈ e.passes.map (·.1))
    (hmakes : stack'.flatMap makes = stack.flatMap makes)
    (hhandles : stack'.flatMap handles = stack.flatMap handles) (level : Level ⟨e', stack', r'⟩) :
    Watchful settings compute ⟨e', stack', r'⟩ := by
  simp only [outstanding, Prod.mk.injEq] at hsame
  obtain ⟨hholdings, hattached, hannouncing, hdebounces, hdebouncer, hscheduler⟩ := hsame
  have hregistry : e'.registry = e.registry := congrArg (·.2.2.1) hholdings
  have h₀ : Watchful settings compute ⟨e, stack ++ [], r⟩ := by rwa [List.append_nil]
  have hlevel : Level ⟨e', stack' ++ [], r'⟩ := by rwa [List.append_nil]
  have hmoved := h₀.move stack stack' hc hc' rfl hholdings hattached
    (fun n hn => hannouncing ▸ hn) (hdebouncer ▸ h.keyed)
    (fun hn => hdebouncer ▸ h.untimed (hdebounces ▸ hn)) ?_ ?_ ?_ hlevel
  · rwa [List.append_nil] at hmoved
  · rw [hmakes, hscheduler]
    exact h.ready.congr (by rw [hregistry]) hpasses
  · rw [hmakes, hscheduler]
    exact fun id hid => hid
  · rw [hhandles, hdebouncer]
    exact fun v hv => Or.inl hv

/-! ## Frames of the scheduler and of the debouncer -/

variable {r : Reply Response EngineError}

/-- A move of the scheduler. -/
theorem ofScheduler (before : List (Activity Frame Ask))
    (h : Watchful settings compute ⟨e, before ++ below, r⟩)
    (hc : Coherent settings mode e) (hseated : Seated below) (hmakes : below.flatMap makes = [])
    (hbefore : before.flatMap makes = []) (hhandles : before.flatMap handles = [])
    {m : Scheduler.Move EngineError} (hm : Scheduler.Keeps e.scheduler.line m)
    (hparameters : m.state.parameters = e.scheduler.parameters) :
    Watchful settings compute (after below (e.ofScheduler m)) := by
  have hc' := hc.toSound.congr (core_ofScheduler hparameters)
  have hready := h.ready_front before hmakes
  rw [hbefore, List.nil_append] at hready
  have hworks : ∀ v, Trigger.input v ∈ before.flatMap handles ++ e.debouncer.works →
      Trigger.input v ∈ e.debouncer.works := by
    rw [hhandles]
    exact fun v hv => hv
  cases hm with
  | @call s fs first kept =>
    refine h.move before (queueFrames fs) hc hc' hmakes rfl rfl (fun _ hn => hn) h.keyed h.untimed
      ?_ ?_ (fun v hv => Or.inl (List.mem_append_right _ (hworks v hv))) ?_
    · rw [makes_queueFrames]
      exact (hready.perm kept).congr rfl fun _ hid => hid
    · rw [makes_queueFrames, hbefore]
      exact fun id hid => (kept.map QueueEntry.node).mem_iff.mpr hid
    · refine level_returned (hseated.push hmakes (fun f hf => (sits_queueFrames hf).2) ?_) _
      rw [queueFrames, ← List.map_tail]
      exact (makes_queueFrames fs.tail).trans first
  | @reply s a kept =>
    refine h.move before [] hc hc' hmakes rfl rfl (fun _ hn => hn) h.keyed h.untimed
      ((hready.perm kept).congr rfl fun _ hid => hid) ?_ (fun v hv => Or.inl (hworks v hv))
      (level_returned hseated _)
    rw [hbefore]
    exact fun id hid => (kept.map QueueEntry.node).mem_iff.mpr hid

/-- A move of the debouncer. -/
theorem ofDebouncer (before : List (Activity Frame Ask))
    (h : Watchful settings compute ⟨e, before ++ below, r⟩)
    (hc : Coherent settings mode e) (hseated : Seated below) (hmakes : below.flatMap makes = [])
    (hclock : ∀ f ∈ below, isClock f = true) (hbefore : before.flatMap makes = [])
    {m : Debouncer.Move Trigger Trigger EngineError}
    (hm : Debouncer.Keeps OfInput (before.flatMap handles ++ e.debouncer.works) m)
    (hpending : ∀ p ∈ m.state.pending, p ∈ e.debouncer.pending) :
    Watchful settings compute (after below (e.ofDebouncer m)) := by
  have hc' := hc.toSound.congr (core_ofDebouncer e m)
  have hready := h.ready_front before hmakes
  rw [hbefore, List.nil_append] at hready
  have huntimed : e.debounces = false → m.state.pending = [] := fun hn =>
    List.eq_nil_iff_forall_not_mem.mpr fun p hp => by
      have hp' := hpending p hp
      rw [h.untimed hn] at hp'
      exact List.not_mem_nil hp'
  cases hm with
  | @call d fs keyed frames asks kept =>
    refine h.move before (clockFrames fs) hc hc' hmakes rfl rfl (fun _ hn => hn) keyed huntimed
      ?_ ?_ (fun v hv => Or.inl ?_)
      (level_returned (seated_clockFrames frames asks hclock hmakes hseated) _)
    · rw [makes_clockFrames]
      exact hready.congr rfl fun _ hid => hid
    · rw [makes_clockFrames, hbefore]
      exact fun id hid => hid
    · rw [handles_clockFrames]
      exact kept _ hv
  | @reply d a keyed kept =>
    refine h.move before [] hc hc' hmakes rfl rfl (fun _ hn => hn) keyed huntimed
      (hready.congr rfl fun _ hid => hid) ?_ (fun v hv => Or.inl (kept _ hv))
      (level_returned hseated _)
    rw [hbefore]
    exact fun id hid => hid

/-! ## Changes that are handled -/

/-- Nodes that are scheduled wait, and the changes are handled that only they read. -/
theorem schedule (before : List (Activity Frame Ask))
    (h : Watchful settings compute ⟨e, before ++ below, r⟩)
    (hc : Coherent settings mode e) (hseated : Seated below) (hmakes : below.flatMap makes = [])
    (hbefore : before.flatMap makes = []) (hflight : e.scheduler.inFlight = [])
    {ids : List String} (hids : ∀ id ∈ ids, id ∈ e.registry.ids) {source : Option String}
    (hsource : ∀ id ∈ ids, source ≠ some id) (priority : Priority) (scope : Option String)
    (handled : ∀ v, Trigger.input v ∈ before.flatMap handles → ∀ n ∈ e.registry.nodes,
      reads n.dependencies v = true → n.id ∈ ids) :
    Watchful settings compute (after below (e.schedule ids priority source scope).drain) ∧
      ∀ id ∈ ids, id ∈ (after below (e.schedule ids priority source
        scope).drain).state.scheduler.line.map (·.node) := by
  have hready := h.ready_front before hmakes
  rw [hbefore, List.nil_append] at hready
  obtain ⟨hready', hnodes⟩ := hready.schedule (h.apart.roomy hc) hflight hids hsource priority scope
  have hc₁ := hc.schedule ids priority source scope
  obtain ⟨scope', passes, ⟨queue, ns, heq⟩, -, -⟩ := queued_schedule e ids priority source scope
  have hholdings := holdings_schedule e ids priority source scope
  generalize e.schedule ids priority source scope = e₁ at *
  obtain ⟨phase, draining, fs, hfs, hafter⟩ := drain_cases e₁
  have hmakes' : fs.flatMap makes = [] := by
    rcases hfs with rfl | rfl <;> rfl
  have hc₂ : Sound settings mode
      { e₁ with phase, scheduler := { e₁.scheduler with draining } } := hc₁.toSound.congr rfl
  rw [hafter]
  refine ⟨?_, fun id hid => (hnodes id).mpr (Or.inl hid)⟩
  refine h.move before fs hc hc₂ hmakes (Eq.trans rfl hholdings) ?_ ?_ ?_ ?_ ?_ ?_ ?_
    (level_returned (hseated.push hmakes ?_ ?_) _)
  · show e₁.attached = e.attached
    rw [heq]
  · show ∀ n ∈ e₁.announcing, n ∈ e.announcing
    rw [heq]
    exact fun _ hn => hn
  · show e₁.debouncer.Keyed OfInput
    rw [heq]
    exact h.keyed
  · show e₁.debounces = false → e₁.debouncer.pending = []
    rw [heq]
    exact h.untimed
  · rw [hmakes']
    exact hready'.congr rfl fun _ hid => hid
  · rw [hbefore, hmakes']
    exact fun id hid => (hnodes id).mpr (Or.inr hid)
  · intro v hv
    rw [hmakes']
    rcases List.mem_append.mp hv with hv | hv
    · exact Or.inr fun n hn hread => (hnodes n.id).mpr (Or.inl (handled v hv n hn hread))
    · refine Or.inl (List.mem_append_right _ ?_)
      show _ ∈ e₁.debouncer.works
      rw [heq]
      exact hv
  · rcases hfs with rfl | rfl
    · exact fun f hf => absurd hf List.not_mem_nil
    · intro f hf below
      rw [List.mem_singleton.mp hf]
      trivial
  · rcases hfs with rfl | rfl <;> rfl

/-- A change is handled: the nodes wait that read the field. -/
theorem handle {v : String}
    (h : Watchful settings compute ⟨e, .own (.handle (.input v)) :: below, r⟩)
    (hc : Coherent settings mode e) (hflight : e.scheduler.inFlight = []) :
    Watchful settings compute (after below (e.handle (.input v))) := by
  obtain ⟨-, hmakes, hseated⟩ := h.level.seated
  refine (h.schedule [.own (.handle (.input v))] hc hseated hmakes rfl hflight
    (fun id hid => ?_) (fun id hid heq => ?_) .normal none fun w hw n hn hread => ?_).1
  · obtain ⟨n, hn, rfl, -⟩ := hc.mem_dependentsOf.mp hid
    exact List.mem_map_of_mem hn
  · obtain ⟨n, hn, rfl, hread⟩ := hc.mem_dependentsOf.mp hid
    split at heq
    · rw [Option.some.inj heq, h.apart.separate n hn n.id (List.mem_map_of_mem hn)] at hread
      cases hread
    · cases heq
  · cases List.mem_singleton.mp hw
    exact hc.mem_dependentsOf.mpr ⟨n, hn, rfl, hread⟩

/-! ## Updates -/

/-- The frames that an update leaves behind make no update, and sit on anything. -/
theorem after_process {entry : QueueEntry} {id : String}
    (h : e.process entry = e'.finish ∨ ∃ old v ws, e.process entry =
      .call e' [.own (.watchers id old v ws), .own (.propagate entry)]) :
    (e.process entry).state = e' ∧ ∃ fs : List (Activity Frame Ask),
      after below (e.process entry) = ⟨e', fs ++ below, .returned default⟩ ∧
        fs.flatMap makes = [] ∧ ∀ f ∈ fs, ∀ below, Sits below f := by
  rcases h with h | ⟨old, v, ws, h⟩
  · rw [h]
    exact ⟨rfl, [], rfl, rfl, fun f hf => absurd hf List.not_mem_nil⟩
  · rw [h]
    refine ⟨rfl, _, rfl, rfl, fun f hf below => ?_⟩
    rcases List.mem_cons.mp hf with rfl | hf
    · trivial
    · rw [List.mem_singleton.mp hf]
      trivial

/-- When its update was made a node waits no longer, and the others do as they did. -/
theorem minded_renews {entry : QueueEntry} {n m : OutputNode} {fs : List (Activity Frame Ask)}
    (h : Watchful settings compute ⟨e, .own (.process entry) :: below, r⟩)
    (hc : Coherent settings mode e) (hc' : Sound settings mode e')
    (hfound : e.registry.find? entry.node = some n) (hrenews : Renews e n e')
    (hm : m ∈ e'.registry.nodes) (hpromised : compute = true ∨ m.evaluated = true) :
    Minded e' (fs ++ below) m := by
  obtain ⟨-, hmakes, -⟩ := h.level.seated
  obtain ⟨hmem, hnid⟩ := Registry.mem_of_find? hfound
  have hdebouncer : e'.debouncer = e.debouncer := congrArg Layout.debouncer hrenews.layout
  by_cases hid : m.id = n.id
  · exact Or.inl (hid ▸ hrenews.upToDate)
  have hsame := hrenews.others m.id hid
  have hm' : m ∈ e.registry.nodes :=
    (Registry.mem_of_find? (hsame ▸ Registry.find?_of_mem hc'.ids hm)).1
  rcases h.minded m hm' hpromised with hup | hwaits | ⟨v, hv, hread⟩
  · have hrows : e'.rows = e.rows := congrArg Layout.rows hrenews.layout
    refine Or.inl (hup.congr hc.toSound hc' hsame hrows fun k hk name huses =>
      hrenews.resolve name ?_)
    rintro rfl
    exact h.apart.not_uses (Registry.mem_of_find? hk).1 (List.mem_map_of_mem hmem) huses
  · refine Or.inr (Or.inl ?_)
    have hwaits' : m.id ∈ (entry :: (below.flatMap makes ++ e.scheduler.line)).map (·.node) :=
      hwaits
    rw [hmakes] at hwaits'
    rw [hrenews.scheduler, List.map_append]
    exact List.mem_append_right _
      ((List.mem_cons.mp hwaits').resolve_left fun heq => hid (heq.trans hnid.symm))
  · refine Or.inr (Or.inr ⟨v, ?_, hread⟩)
    rw [hdebouncer, List.flatMap_append, List.append_assoc]
    exact List.mem_append_right _ hv

/-- An update is made: its node is up to date then. -/
theorem process {entry : QueueEntry}
    (h : Watchful settings compute ⟨e, .own (.process entry) :: below, r⟩)
    (hc : Coherent settings mode e) (hs : settings.InRange)
    (hmost : settings.historySize ≤ ConvergenceDetector.maxHistory) (running : e.halted = false)
    (calm : ∀ err, (after below (e.process entry)).reply ≠ .raised (.evaluation err)) :
    Watchful settings compute (after below (e.process entry)) := by
  obtain ⟨-, hmakes, hseated⟩ := h.level.seated
  have hready := h.ready_front [.own (.process entry)] hmakes
  obtain ⟨n, hfate, hfirst⟩ := h.apart.fate_eq hc hs running hready
  have hfound := (evaluates_of_fate hfate).found
  obtain ⟨hmem, hnid⟩ := Registry.mem_of_find? hfound
  have hc' := hc.process entry
  obtain ⟨e', hrenews, hprocess⟩ := h.apart.process hc hs hmost hfate hfirst calm
  obtain ⟨hstate, fs, hafter, hmakes', hsits⟩ := after_process hprocess
  rw [hstate] at hc'
  have hl := hrenews.layout
  have hdebouncer : e'.debouncer = e.debouncer := congrArg Layout.debouncer hl
  have hdebounces : e'.debounces = e.debounces := congrArg Layout.debounces hl
  have htail : fs.tail.flatMap makes = [] := by
    rw [List.flatMap_eq_nil_iff] at hmakes' ⊢
    exact fun f hf => hmakes' f (List.mem_of_mem_tail hf)
  rw [hafter]
  refine ⟨h.apart.congr (congrArg Layout.nodes hl), linked_of_layout hl h.linked,
    (congrArg Layout.attached hl).trans h.attached, ?_, fun m hm => ?_, hdebouncer ▸ h.keyed,
    fun hn => hdebouncer ▸ h.untimed (hdebounces ▸ hn), ?_,
    level_returned (hseated.push hmakes hsits htail) _,
    fun m hm => minded_renews h hc hc' hfound hrenews hm⟩
  · show ∀ name ∈ e'.layout.names, e'.layout.bindings.any (·.1 == variableName name) = true
    rw [hl]
    exact h.bound
  · rcases hrenews.announcing m hm with hm | ⟨hid, hlinked⟩
    · exact h.announced m hm
    · rw [hid, hlinked]
      exact hc.id_not_mem_linked hmem
  · show Ready e' ((fs ++ below).flatMap makes ++ e'.scheduler.line)
    rw [List.flatMap_append, hmakes', hmakes, hrenews.scheduler]
    exact hready.tail (ids_of_layout hl) fun id hid => hnid ▸ hrenews.passes id hid

/-- A change is passed on: no node is out of date because of it. -/
theorem propagate {entry : QueueEntry}
    (h : Watchful settings compute ⟨e, .own (.propagate entry) :: below, r⟩)
    (hc : Coherent settings mode e) :
    Watchful settings compute (after below (e.propagate entry)) := by
  obtain ⟨-, hmakes, hseated⟩ := h.level.seated
  cases hn : e.announcing with
  | nil =>
    have hpropagate : e.propagate entry = e.finish := by
      unfold Engine.propagate
      rw [hn]
    rw [hpropagate]
    exact h.restack hc hc.toSound rfl (fun _ hid => hid) rfl rfl (level_returned hseated _)
  | cons n announcing =>
    have hready := h.ready_front [.own (.propagate entry)] hmakes
    have hc₀ : Coherent settings mode { e with announcing } := hc.congr rfl
    have hready₀ : Ready { e with announcing } ({ e with announcing } : Engine).scheduler.line :=
      hready.congr rfl fun _ hid => hid
    obtain ⟨hready', hnodes⟩ := hready₀.passed (h.apart.roomy hc)
      (fun _ hid => hc.order_perm.mem_iff.mp hid) (h.announced n (hn ▸ List.mem_cons_self))
      (h.apart.successors_eq_nil hc n.id) entry.source
    have hqueued := queued_passed { e with announcing } n entry.source
    have hc' := hc₀.queued hqueued
    rw [propagate_eq entry (fun _ => hc.contains_of_mem_order) hn]
    obtain ⟨⟨queue, ns, heq⟩, -, -⟩ := hqueued
    generalize ({ e with announcing } : Engine).passed n entry.source = e' at *
    refine h.move [.own (.propagate entry)] [] hc hc'.toSound hmakes ?_ ?_ ?_ ?_ ?_
      hready' (fun id hid => hnodes id hid) (fun v hv => Or.inl ?_) (level_returned hseated _)
    · rw [heq]
      rfl
    · rw [heq]
    · rw [heq]
      exact fun m hm => hn ▸ List.mem_cons_of_mem _ hm
    · rw [heq]
      exact h.keyed
    · rw [heq]
      exact h.untimed
    · rw [heq]
      exact hv

/-! ## Going on -/

/-- The rest of the watchers are told. -/
theorem tellWatchers {id : String} {old new : Value} {rest : List Nat}
    (h : Watchful settings compute ⟨e, .own (.watchers id old new rest) :: below, r⟩)
    (hc : Coherent settings mode e) (hc' : Sound settings mode e')
    (hsame : e'.outstanding = e.outstanding) (hpasses : e'.passes = e.passes) :
    Watchful settings compute (after below (e'.tellWatchers id old new rest)) := by
  obtain ⟨-, hmakes, hseated⟩ := h.level.seated
  have hpasses' : ∀ id ∈ e'.passes.map (·.1), id ∈ e.passes.map (·.1) := fun _ hid => hpasses ▸ hid
  cases rest with
  | nil => exact h.restack hc hc' hsame hpasses' rfl rfl (level_returned hseated _)
  | cons w rest =>
    exact h.restack hc hc' hsame hpasses' rfl rfl
      (level_returned (hseated.telling (f := .watchers id old new rest) hmakes trivial _) _)

/-- The rest of the listeners are told. -/
theorem tellListeners {changed : List String} {rest : List Nat} {f : Frame}
    (h : Watchful settings compute ⟨e, .own f :: below, r⟩) (hc : Coherent settings mode e)
    (hc' : Sound settings mode e') (hsame : e'.outstanding = e.outstanding)
    (hpasses : ∀ id ∈ e'.passes.map (·.1), id ∈ e.passes.map (·.1))
    (hf : makes (.own f) = [] ∧ handles (.own f) = []) :
    Watchful settings compute (after below (e'.tellListeners changed rest)) := by
  obtain ⟨-, hmakes, hseated⟩ := h.level.seated
  have hmakes' : (.own f :: below : List (Activity Frame Ask)).flatMap makes =
      below.flatMap makes := by rw [List.flatMap_cons, hf.1, List.nil_append]
  have hhandles' : (.own f :: below : List (Activity Frame Ask)).flatMap handles =
      below.flatMap handles := by rw [List.flatMap_cons, hf.2, List.nil_append]
  cases rest with
  | nil =>
    exact h.restack hc hc' hsame hpasses hmakes'.symm hhandles'.symm (level_returned hseated _)
  | cons l rest =>
    exact h.restack hc hc' hsame hpasses hmakes'.symm hhandles'.symm
      (level_returned (hseated.telling (f := .listeners changed rest) hmakes trivial _) _)

/-- A frame goes on after an answer. -/
theorem resume {f : Frame} {a : Response}
    (h : Watchful settings compute ⟨e, .own f :: below, .returned a⟩)
    (hc : Coherent settings mode e) (steady : Steady ⟨e, .own f :: below, .returned a⟩)
    (hs : settings.InRange) (hmost : settings.historySize ≤ ConvergenceDetector.maxHistory)
    (calm : ∀ err, (after below (e.resume f)).reply ≠ .raised (.evaluation err)) :
    Watchful settings compute (after below (e.resume f)) := by
  obtain ⟨hsits, hmakes, hseated⟩ := h.level.seated
  have hb : f ≠ .complete → Balanced e.scheduler e.phase (.own f :: below) := fun hf =>
    steady.balanced fun rest hn => hf (Activity.own.inj (List.cons.inj hn).1)
  have hc' := hc.resume f
  cases f with
  | queue f =>
    refine h.ofScheduler [.own (.queue f)] hc hseated hmakes rfl rfl
      (Scheduler.keeps_resume (fun reports hf => ?_) ?_) (e.scheduler.parameters_resume f)
    · subst hf
      obtain ⟨-, hsettled⟩ : reports = true ∧ Settled below := (hb (by simp)).nested.1
      have hbetween := (hb (by simp)).between rfl rfl hsettled
      by_contra hn
      have hflight := (hb (by simp)).flight hn
      rw [List.countP_cons_of_neg (by simp [isBatch]), hbetween.countP_isBatch] at hflight
      cases hflight
    · have hnodup := (h.ready_front [.own (.queue f)] hmakes).nodup
      exact (((List.sublist_append_right e.scheduler.inFlight _).map QueueEntry.node).nodup
        hnodup :)
  | clock f =>
    have hkeeps := Debouncer.keeps_resume (ε := EngineError) unique_ofInput h.keyed hsits.1
    rw [← List.append_nil f.works] at hkeeps
    exact h.ofDebouncer [.own (.clock f)] hc hseated hmakes hsits.2 rfl hkeeps
      (Debouncer.mem_pending_resume f)
  | handle t =>
    obtain ⟨⟨v, rfl⟩, hclock⟩ := hsits
    refine h.handle hc ?_
    by_contra hn
    have hflight := (hb (by simp)).flight hn
    rw [List.countP_eq_zero.mpr fun f hf => ?_] at hflight
    · cases hflight
    · rcases List.mem_cons.mp hf with rfl | hf
      · exact Bool.false_ne_true
      · rw [(light_of_isClock (hclock f hf)).isBatch]
        exact Bool.false_ne_true
  | process entry => exact h.process hc hs hmost steady.running_of_process calm
  | batchDone => exact h.restack hc hc' rfl (fun _ hid => hid) rfl rfl (level_returned hseated _)
  | watchers id old new rest => exact h.tellWatchers hc hc.toSound rfl rfl
  | propagate entry => exact h.propagate hc
  | complete =>
    have hnone : ∀ id ∈ ([] : List (String × Nat)).map (·.1), id ∈ e.passes.map (·.1) :=
      fun _ hid => absurd hid List.not_mem_nil
    show Watchful settings compute (after below e.complete)
    unfold Engine.complete
    dsimp only
    split
    · exact h.restack hc (hc.toSound.congr rfl) rfl hnone rfl rfl (level_returned hseated _)
    · exact h.tellListeners hc (hc.toSound.congr rfl) rfl hnone ⟨rfl, rfl⟩
  | listeners changed rest => exact h.tellListeners hc hc.toSound rfl (fun _ hid => hid) ⟨rfl, rfl⟩

/-- A failure comes only to one who is being told. -/
theorem recover {f : Frame} {err : EngineError}
    (h : Watchful settings compute ⟨e, .own f :: below, .raised err⟩)
    (hc : Coherent settings mode e) :
    Watchful settings compute (after below (e.recover f err)) := by
  have htells : Tells (.own f :: below) := (h.level.told err rfl).resolve_left nofun
  cases f with
  | watchers id old new rest => exact h.tellWatchers hc (hc.toSound.congr rfl) rfl rfl
  | listeners changed rest =>
    exact h.tellListeners hc (hc.toSound.congr rfl) rfl (fun _ hid => hid) ⟨rfl, rfl⟩
  | _ => exact htells.elim

/-- Who was asked answers. -/
theorem answer {k : Ask} (h : Watchful settings compute ⟨e, .ask k :: below, r⟩)
    (hc : Coherent settings mode e) (r' : Reply Response EngineError) :
    Watchful settings compute ⟨e, below, r'⟩ := by
  obtain ⟨htells, -, hseated⟩ := h.level.seated
  exact h.restack hc hc.toSound rfl (fun _ hid => hid) rfl rfl ⟨hseated, fun _ _ => Or.inr htells⟩

end Watchful

end LiveForm.Engine
