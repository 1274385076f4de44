import LiveForm.Proofs.Schedule.Batches
import LiveForm.Proofs.Schedule.Handing

/-!
# After a failure

When the surroundings fail while they process an update, the error passes through the frames of the
scheduler, which gives up the batch on its way.  What is pending stays so, and can be drained again.
So it is when they fail as they are told that nothing waits any more.  When they fail as they are
told of a batch, the scheduler goes on draining for good.
-/

namespace LiveForm.Scheduler

open Machine (after Runs)

variable {ε : Type} {s : Scheduler} {below : List (Activity Frame Ask)}

/-! ## An error on its way -/

/-- An error passes through the frames of the scheduler, until the surroundings are in control. -/
def failed (s : Scheduler) : List (Activity Frame Ask) → Scheduler × List (Activity Frame Ask)
  | .own f :: below => failed (s.unwind f) below
  | stack => (s, stack)

/-- What each frame keeps that the error passes through is kept on the whole way. -/
theorem keeps_failed {P : Scheduler → List (Activity Frame Ask) → Prop}
    (passes : ∀ s f below, P s (.own f :: below) → P (s.unwind f) below)
    (below : List (Activity Frame Ask)) (h : P s below) :
    P (s.failed below).1 (s.failed below).2 := by
  induction below generalizing s with
  | nil => exact h
  | cons f below ih =>
    cases f with
    | ask k => exact h
    | own f => exact ih (passes s f below h)

theorem free_failed (s : Scheduler) (below : List (Activity Frame Ask)) :
    Free (s.failed below).2 := by
  induction below generalizing s with
  | nil => trivial
  | cons f below ih =>
    cases f with
    | ask k => trivial
    | own f => exact ih (s.unwind f)

/-- That is what happens when the surroundings answer with an error. -/
theorem Course.failed {c₀ : Running ε} {events : List (Scheduler × Event)} {k : Ask}
    {r : Reply Answer ε} (h : Course c₀ events ⟨s, .ask k :: below, r⟩) (err : ε) :
    ∃ more, Course c₀ (events ++ more) ⟨(s.failed below).1, (s.failed below).2, .raised err⟩ := by
  refine keeps_failed (P := fun s below =>
    ∃ more, Course c₀ (events ++ more) ⟨s, below, .raised err⟩) ?_ below ?_
  · rintro s f below ⟨more, hcourse⟩
    have hpassed := hcourse.tail (.unwind s f below err)
    rw [List.append_assoc] at hpassed
    exact ⟨_, hpassed⟩
  · exact ⟨_, h.tail (.answer s k below r (.raised err))⟩

theorem queue_failed (below : List (Activity Frame Ask)) (s : Scheduler) :
    (s.failed below).1.queue = s.queue :=
  keeps_failed (P := fun s' _ => s'.queue = s.queue)
    (fun s' f _ h => (queue_unwind s' f).trans h) below rfl

theorem parameters_failed (below : List (Activity Frame Ask)) (s : Scheduler) :
    (s.failed below).1.parameters = s.parameters :=
  keeps_failed (P := fun s' _ => s'.parameters = s.parameters)
    (fun s' f _ h => (parameters_unwind s' f).trans h) below rfl

theorem single_failed (below : List (Activity Frame Ask)) (h : Single s below) :
    Single (s.failed below).1 (s.failed below).2 :=
  keeps_failed (fun _ _ _ h => h.unwind) below h

/-! ## What it leaves behind -/

/-- Without a frame of its loop the yield point is not running. -/
theorem Single.unlooped {stack : List (Activity Frame Ask)} (h : Single s stack)
    (hl : stack.countP isLoop = 0) : s.yieldPoint.running = false := by
  have hloops := h.loops
  rw [hl] at hloops
  cases hr : s.yieldPoint.running with
  | false => rfl
  | true =>
    rw [hr] at hloops
    cases hloops

/-- No drain is going on, and nothing is left of one. -/
structure Settled (s : Scheduler) : Prop where
  draining : s.draining = false
  inFlight : s.inFlight = []
  waiting : s.yieldPoint.waiting = []

theorem Settled.unwind (h : Settled s) (f : Frame) : Settled (s.unwind f) := by
  cases f with
  | begin _ | next _ => exact h
  | batch _ _ => exact ⟨rfl, rfl, h.waiting⟩
  | yielding f =>
    cases f with
    | loop | ran | pump _ => exact ⟨h.draining, h.inFlight, h.waiting⟩

theorem Settled.failed (h : Settled s) (below : List (Activity Frame Ask)) :
    Settled (s.failed below).1 :=
  keeps_failed (P := fun s _ => Settled s) (fun _ f _ h => h.unwind f) below h

/-- A failure to process an update ends the drain. -/
theorem settled_of_process {e : QueueEntry} (h : Single s (.ask (.process e) :: below))
    (hseated : Seated (.ask (.process e) :: below)) : Settled (s.failed below).1 := by
  obtain ⟨⟨reports, taken, rest, rfl⟩, -⟩ := hseated
  have hbatch : Single s (.own (.batch reports taken) :: rest) := (single_cons rfl rfl).mp h
  have hunwound : Settled (s.unwind (.batch reports taken)) :=
    ⟨rfl, rfl, (hbatch.alone rfl).waiting⟩
  exact hunwound.failed rest

/-- The drain is over when the surroundings are told that nothing waits. -/
theorem settled_of_idle (h : Single s (.ask .idle :: below)) (hd : s.draining = false) :
    Settled (s.failed below).1 := by
  obtain ⟨hslices, hwaiting⟩ := h.idle hd
  have hsettled : Settled s := ⟨hd, h.inFlight hslices, hwaiting⟩
  exact hsettled.failed below

/-! ## Another drain -/

/-- What is pending in a settled scheduler is handed out by a drain; at a manual yield point the
later batches are run by hand. -/
theorem Settled.drains {μ : Type} {cb : Callbacks μ} (h : Settled s)
    (hrunning : s.yieldPoint.running = false) (hnodup : s.queue.entries.Nodup)
    (hsize : 0 < s.batchSize) (hquiet : cb.Quiet) (memory : μ) (reports : Bool) :
    ∃ first others s₁ s₂ memory₁ memory₂ r₁ r₂,
      Runs cb.machine asking (after [] (among memory (s.drain reports))) first
        ⟨(s₁, memory₁), [], r₁⟩ ∧
      Runs cb.machine asking (after [] (among memory₁ s₁.runAll)) others
        ⟨(s₂, memory₂), [], r₂⟩ ∧
      (first ++ others).filterMap handed? = s.queue.pending ∧
      (s.yieldPoint.mode = .immediate → others = []) := by
  obtain ⟨asks, s', memory', drains, hhanded, -⟩ :=
    hquiet.drains (s := { s with draining := true }) hnodup hsize reports memory
  obtain ⟨queue, batchSize, inFlight, draining, mode, waiting, running⟩ := s
  obtain ⟨hdraining, -, hwaiting⟩ := h
  cases hdraining
  cases hwaiting
  cases hrunning
  cases mode with
  | immediate =>
    have hruns := drains.runs rfl false (.returned default)
    refine ⟨asks, [], _, s'.withYield (looping false), memory', memory', .returned .done,
      .returned (.count 0), hruns, runs_step rfl (.refl _), ?_, fun _ => rfl⟩
    rw [List.append_nil]
    exact hhanded
  | manual =>
    obtain ⟨first, others, s₁, memory₁, total, rfl, hfirst, hothers⟩ :=
      drains.runs_by_hand rfl (.returned default)
    exact ⟨first, others, s₁, _, memory₁, memory', .returned .done, .returned (.count total),
      hfirst, hothers, hhanded, nofun⟩

theorem Happens.parameters {c c' : Running ε} {a : Event} (happens : Happens c a c') :
    c'.state.parameters = c.state.parameters := by
  cases happens with
  | @enqueue s stack r free now node priority source =>
    have hmax : (s.enqueue now node priority source).1.queue.maxQueue = s.queue.maxQueue :=
      UpdateQueue.enqueue_maxQueue
    exact congrArg (fun n => (s.yieldPoint.mode, s.batchSize, n)) hmax
  | takeBatch _ _ | clear _ | answer _ _ _ _ _ => rfl
  | drain free reports =>
    rw [Machine.state_after]
    exact parameters_drain _ reports
  | runNext free =>
    rw [Machine.state_after]
    exact parameters_ofYield _ (YieldPoint.mode_runNextThen _ _ rfl)
  | runAll free =>
    rw [Machine.state_after]
    exact parameters_ofYield _ rfl
  | resume s f below a =>
    rw [Machine.state_after]
    exact parameters_resume s f
  | unwind s f below err => exact parameters_unwind s f

theorem Course.parameters {c₀ c : Running ε} {events : List (Scheduler × Event)}
    (h : Course c₀ events c) : c.state.parameters = c₀.state.parameters := by
  induction h with
  | refl => rfl
  | tail _ step ih => exact step.parameters.trans ih

/-! ## Failures behind a batch -/

/-- Where no batch is going on an error does not end the drain. -/
theorem draining_failed (h : below.countP isSlice = 0) (s : Scheduler) :
    (s.failed below).1.draining = s.draining := by
  refine (keeps_failed (P := fun s' below => below.countP isSlice = 0 ∧ s'.draining = s.draining)
    ?_ below ⟨h, rfl⟩).2
  rintro s' f below ⟨hslices, hd⟩
  cases f with
  | begin _ | batch _ _ | next _ => simp [isSlice] at hslices
  | yielding f =>
    rw [List.countP_cons_of_neg (by simp [isSlice])] at hslices
    exact ⟨hslices, hd⟩

/-- When the surroundings fail as they are told of a batch, the drain is not over, though nobody
goes on with it: whoever drains again does nothing. -/
theorem drain_of_batchDone_failure {batchSize : Nat} {maxQueue : Int} {mode : YieldMode}
    {r₀ r : Reply Answer ε} {events : List (Scheduler × Event)} {batch : List QueueEntry}
    (course : Course ⟨create batchSize maxQueue mode, [], r₀⟩ events
      ⟨s, .ask (.batchDone batch) :: below, r⟩) (reports : Bool) :
    ((s.failed below).1.drain reports : Move ε) = .ret (s.failed below).1 .done := by
  have hsingle := course.single (single_create batchSize maxQueue mode)
  obtain ⟨⟨reports', rest, rfl⟩, -⟩ := course.seated trivial
  have hnext : Single s (.own (.next reports') :: rest) := (single_cons rfl rfl).mp hsingle
  obtain ⟨hslices, -, hdraining, -⟩ := hnext.alone rfl
  exact if_pos ((draining_failed hslices s).trans hdraining)

/-! ## Failures -/

/-- Whatever was done to a scheduler, when the surroundings fail as they process an update, or as
they are told that nothing waits while no drain is going on that they have begun themselves, the
error leaves the scheduler settled and what is pending as it is.  Unless a loop of the yield point
is still going on further out, another drain hands out all of that, in its order. -/
theorem settled_of_failure {batchSize : Nat} {maxQueue : Int} {mode : YieldMode}
    {r₀ r : Reply Answer ε} {events : List (Scheduler × Event)} {k : Ask} {s' : Scheduler}
    {rest : List (Activity Frame Ask)} (size : 0 < batchSize)
    (course : Course ⟨create batchSize maxQueue mode, [], r₀⟩ events ⟨s, .ask k :: below, r⟩)
    (asked : (∃ e, k = .process e) ∨ k = .idle ∧ s.draining = false)
    (fails : s.failed below = (s', rest)) (err : ε) :
    (∃ more, Course ⟨s, .ask k :: below, r⟩ more ⟨s', rest, .raised err⟩) ∧ Free rest ∧
    s'.draining = false ∧ s'.inFlight = [] ∧ s'.yieldPoint.waiting = [] ∧ s'.queue = s.queue ∧
    (rest.countP isLoop = 0 → ∀ {μ : Type} (cb : Callbacks μ) memory reports, cb.Quiet →
      ∃ first others s₁ s₂ memory₁ memory₂ r₁ r₂,
        Runs cb.machine asking (after [] (among memory (s'.drain reports))) first
          ⟨(s₁, memory₁), [], r₁⟩ ∧
        Runs cb.machine asking (after [] (among memory₁ s₁.runAll)) others
          ⟨(s₂, memory₂), [], r₂⟩ ∧
        (first ++ others).filterMap handed? = s.queue.pending ∧
        (mode = .immediate → others = [])) := by
  obtain ⟨rfl, rfl⟩ := Prod.mk.inj fails
  have hsingle := course.single (single_create batchSize maxQueue mode)
  have hsettled : Settled (s.failed below).1 := by
    rcases asked with ⟨e, rfl⟩ | ⟨rfl, hd⟩
    · exact settled_of_process hsingle (course.seated trivial)
    · exact settled_of_idle hsingle hd
  obtain ⟨more, hmore⟩ := Course.failed (.refl : Course ⟨s, .ask k :: below, r⟩ [] _) err
  refine ⟨⟨more, hmore⟩, free_failed s below, hsettled.draining, hsettled.inFlight,
    hsettled.waiting, queue_failed below s, fun hloops μ cb memory reports hquiet => ?_⟩
  have hparameters := (parameters_failed below s).trans course.parameters
  simp only [Scheduler.parameters, create, Prod.mk.injEq] at hparameters
  obtain ⟨hmode, hsize, -⟩ := hparameters
  have hbelow : Single s below := (single_cons rfl rfl).mp hsingle
  have hrunning := (single_failed below hbelow).unlooped hloops
  have hnodup : s.queue.entries.Nodup :=
    (course.agrees (Ledger.agrees_empty maxQueue)).nodes.of_map
  have hdrains := hsettled.drains hrunning (queue_failed below s ▸ hnodup) (hsize ▸ size) hquiet
    memory reports
  rw [queue_failed, hmode] at hdrains
  exact hdrains

/-- The updates of a crowded scheduler. -/
def earlier : QueueEntry := ⟨"a", .low, none, 0, 0⟩

def later : QueueEntry := ⟨"b", .low, none, 0, 1⟩

/-- The first of them is being processed. -/
def halfway : Running Unit := after [] (resume (.begin true) { crowded with draining := true })

theorem Course.at_stack {c₀ c : Running ε} {events : List (Scheduler × Event)}
    {stack : List (Activity Frame Ask)} (h : Course c₀ events c) (hstack : c.stack = stack) :
    Course c₀ events ⟨c.state, stack, c.reply⟩ := by
  subst hstack
  exact h

theorem course_halfway : ∃ events,
    Course ⟨create 1 10 .immediate, [], .returned .done⟩ events
      ⟨halfway.state, [.ask (.process earlier), .own (.batch true [earlier])], halfway.reply⟩ := by
  have hfree : Free [] := trivial
  have hstart : Course (⟨create 1 10 .immediate, [], .returned .done⟩ : Running Unit) [] _ := .refl
  have hdrain := ((hstart.tail (.enqueue hfree 0 "a" .low none)).tail
    (.enqueue hfree 0 "b" .low none)).tail (.drain hfree true)
  have hasks : Course _ _ halfway := hdrain.tail (.resume _ (.begin true) [] .done)
  exact ⟨_, hasks.at_stack (by decide +kernel)⟩

/-- The update that waits is handed out by another drain when the first one fails. -/
theorem settled_of_failure_halfway :
    halfway.state.failed [.own (.batch true [earlier])] =
      (halfway.state.unwind (.batch true [earlier]), []) ∧
    (halfway.state.unwind (.batch true [earlier])).queue.entries = [later] ∧
    ∃ first others s₁ s₂ memory₁ memory₂ r₁ r₂,
      Runs countingCallbacks.machine asking
        (after [] (among 0 ((halfway.state.unwind (.batch true [earlier])).drain true))) first
        ⟨(s₁, memory₁), [], r₁⟩ ∧
      Runs countingCallbacks.machine asking (after [] (among memory₁ s₁.runAll)) others
        ⟨(s₂, memory₂), [], r₂⟩ ∧
      (first ++ others).filterMap handed? = [later] := by
  obtain ⟨events, hcourse⟩ := course_halfway
  have hfails : halfway.state.failed [.own (.batch true [earlier])] =
      (halfway.state.unwind (.batch true [earlier]), []) := rfl
  obtain ⟨-, -, -, -, -, hqueue, hdrains⟩ := settled_of_failure (by decide) hcourse
    (.inl ⟨earlier, rfl⟩) hfails ()
  have hentries : halfway.state.queue.entries = [later] := by decide +kernel
  have hpending : halfway.state.queue.pending = [later] := by decide +kernel
  obtain ⟨first, others, s₁, s₂, memory₁, memory₂, r₁, r₂, hfirst, hothers, hhanded, -⟩ :=
    hdrains rfl countingCallbacks 0 true fun _ _ _ => rfl
  rw [hqueue]
  exact ⟨hfails, hentries, first, others, s₁, s₂, memory₁, memory₂, r₁, r₂, hfirst, hothers,
    hhanded.trans hpending⟩

/-- The surroundings are told of the first batch. -/
def told : Running Unit := after [] (halfway.state.resume (.batch true [earlier]))

/-- The surroundings were told that nothing waits, and have begun a drain by hand since, the first
update of which is being processed. -/
def begunAnew : Running Unit :=
  after [.ask .idle] (resume (.begin false)
    { crowded.withYield { mode := .manual } with draining := true })

/-- The first batch of that drain is done, and the other one is left for later. -/
def leftAnew : Running Unit :=
  after [.ask .idle] (begunAnew.state.resume (.batch false [earlier]))

theorem course_leftAnew : ∃ events,
    Course ⟨create 1 10 .manual, [], .returned .done⟩ events leftAnew := by
  have hfree : Free [] := trivial
  have hasked : Free [.ask .idle] := trivial
  have hstart : Course (⟨create 1 10 .manual, [], .returned .done⟩ : Running Unit) [] _ := .refl
  have hidle : Course (⟨create 1 10 .manual, [], .returned .done⟩ : Running Unit) _
      ⟨create 1 10 .manual, [.ask .idle], .returned .done⟩ :=
    (hstart.tail (.drain hfree true)).tail (.resume _ (.begin true) [] .done)
  have hdrain := ((hidle.tail (.enqueue hasked 0 "a" .low none)).tail
    (.enqueue hasked 0 "b" .low none)).tail (.drain hasked false)
  have hbegun : Course _ _ begunAnew := hdrain.tail (.resume _ (.begin false) [.ask .idle] .done)
  have hstack : begunAnew.stack =
      [.ask (.process earlier), .own (.batch false [earlier]), .ask .idle] := by
    decide +kernel
  have hanswered := hbegun.tail (.answers _ _ hstack (.returned .done))
  exact ⟨_, hanswered.tail (.resume _ _ _ _)⟩

/-- Not every failure is as harmless.  What the surroundings clear away before they fail to process
an update is gone, though it was pending and not in the batch: another drain does not hand it out.
When they fail as they are told of a batch, or as they are told that nothing waits and have begun a
drain since, the scheduler is still draining, and whoever drains again does nothing. -/
theorem failure_may_lose_or_last :
    (∃ events more s',
      Course (⟨create 1 10 .immediate, [], .returned .done⟩ : Running Unit) events
        ⟨halfway.state, [.ask (.process earlier), .own (.batch true [earlier])], halfway.reply⟩ ∧
      later ∈ halfway.state.queue.entries ∧ later ∉ [earlier] ∧
      Course (⟨halfway.state, [.ask (.process earlier), .own (.batch true [earlier])],
        halfway.reply⟩ : Running Unit) more ⟨s', [], .raised ()⟩ ∧
      more.map (·.2) = [.clear, .answer (.process earlier), .unwind (.batch true [earlier])] ∧
      s'.isPending "b" = false ∧
      ∃ asks c, Runs countingCallbacks.machine asking (after [] (among 0 (s'.drain true))) asks c ∧
        c.stack = [] ∧ asks.filterMap handed? = []) ∧
    (∃ events more s',
      Course (⟨create 1 10 .immediate, [], .returned .done⟩ : Running Unit) events told ∧
      told.stack = [.ask (.batchDone [earlier]), .own (.next true)] ∧
      Course told more ⟨s', [], .raised ()⟩ ∧
      more.map (·.2) = [.answer (.batchDone [earlier]), .unwind (.next true)] ∧
      s'.isPending "b" = true ∧ s'.draining = true ∧
      ∀ reports, (s'.drain reports : Move Unit) = .ret s' .done) ∧
    ∃ events more s',
      Course (⟨create 1 10 .manual, [], .returned .done⟩ : Running Unit) events leftAnew ∧
      leftAnew.stack = [.ask .idle] ∧
      Course leftAnew more ⟨s', [], .raised ()⟩ ∧ more.map (·.2) = [.answer .idle] ∧
      s'.isPending "b" = true ∧ s'.draining = true ∧
      ∀ reports, (s'.drain reports : Move Unit) = .ret s' .done := by
  obtain ⟨events, hhalfway⟩ := course_halfway
  refine ⟨?_, ?_, ?_⟩
  · have hfree : Free [.ask (.process earlier), .own (.batch true [earlier])] := trivial
    have hstart : Course (⟨halfway.state, [.ask (.process earlier), .own (.batch true [earlier])],
      halfway.reply⟩ : Running Unit) [] _ := .refl
    have hfails := ((hstart.tail (.clear hfree)).tail (.answer _ _ _ _ (.raised ()))).tail
      (.unwind _ _ _ _)
    exact ⟨events, _, _, hhalfway, by decide +kernel, by decide +kernel, hfails, rfl,
      by decide +kernel, _, _, Runs.ended (n := 20) (r := .returned .done) (by decide +kernel)
        (by decide +kernel), rfl, by decide +kernel⟩
  · have htold : Course _ _ told :=
      (hhalfway.tail (.answer _ _ _ _ (.returned .done))).tail (.resume _ _ _ _)
    have hstack : told.stack = [.ask (.batchDone [earlier]), .own (.next true)] := by
      decide +kernel
    have hstart : Course told [] _ := .refl
    have hfails := (hstart.tail (.answers _ _ hstack (.raised ()))).tail (.unwind _ _ _ _)
    have hd : (told.state.unwind (.next true)).draining = true := by decide +kernel
    have hfailed : told.state.failed [.own (.next true)] =
      (told.state.unwind (.next true), []) := rfl
    have hagain := drain_of_batchDone_failure (htold.at_stack hstack)
    simp only [hfailed] at hagain
    exact ⟨_, _, _, htold, hstack, hfails, rfl, by decide +kernel, hd, hagain⟩
  · obtain ⟨events, hleft⟩ := course_leftAnew
    have hstack : leftAnew.stack = [.ask .idle] := by decide +kernel
    have hstart : Course leftAnew [] _ := .refl
    have hfails := hstart.tail (.answers _ _ hstack (.raised ()))
    have hd : leftAnew.state.draining = true := by decide +kernel
    exact ⟨events, _, _, hleft, hstack, hfails, rfl, by decide +kernel, hd, fun _ => if_pos hd⟩

end LiveForm.Scheduler
