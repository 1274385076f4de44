import LiveForm.Proofs.Schedule.Scheduler

/-!
# Drains among callbacks

Surroundings that are deterministic: what they do to the scheduler when they are asked to process an
update depends on the update, on what they remember, and on what they see of the scheduler on the
way.  A drain among such callbacks goes from batch to batch (`Drains`), and what a batch does has
nothing to do with the yield point.
-/

namespace LiveForm.Scheduler

open Machine (after Runs)

/-! ## Callbacks -/

/-- What can be seen of a scheduler: its queue, what waits in the running batch, and whether it is
draining. -/
abbrev View := UpdateQueue × List QueueEntry × Bool

def view (s : Scheduler) : View := (s.queue, s.inFlight, s.draining)

/-- What a callback does to the scheduler, one thing after the other, each by what came of those
before it.  In the end it remembers something. -/
inductive Doing (μ : Type) where
  | done (memory : μ)
  | enqueue (now : Binary64) (node : String) (priority : Priority) (source : Option String)
    (next : Option QueueEntry → Doing μ)
  | takeBatch (limit : Option Int) (next : List QueueEntry → Doing μ)
  | clear (next : Doing μ)
  | drain (reports : Bool) (next : Doing μ)
  | look (next : View → Doing μ)

/-- Surroundings that remember something and do nothing to the scheduler but when they process an
update. -/
structure Callbacks (μ : Type) where
  process : QueueEntry → μ → Doing μ
  batchDone : View → List QueueEntry → μ → μ
  idle : View → μ → μ

/-- A frame of a drain, a question, or what a callback has still to do. -/
inductive Work (μ : Type) where
  | own (f : Frame)
  | ask (k : Ask)
  | doing (d : Doing μ)

variable {μ : Type}

/-- A move of the scheduler among callbacks. -/
def among (memory : μ) (m : Move Empty) : LiveForm.Move (Scheduler × μ) (Work μ) Answer Empty :=
  m.embed (·, memory) (Activity.elim .own .ask) id

/-- The next thing that a callback does. -/
def Doing.step (s : Scheduler) (memory : μ) :
    Doing μ → LiveForm.Move (Scheduler × μ) (Work μ) Answer Empty
  | .done memory' => .ret (s, memory') .done
  | .enqueue now node priority source next =>
    let (s, entry, _) := s.enqueue now node priority source
    .call (s, memory) [.doing (next entry)]
  | .takeBatch limit next =>
    let (batch, s) := s.takeBatch limit
    .call (s, memory) [.doing (next batch)]
  | .clear next => .call (s.clear, memory) [.doing next]
  | .drain reports next =>
    match among memory (s.drain reports) with
    | .call s frames => .call s (frames ++ [.doing next])
    | .reply s _ => .call s [.doing next]
  | .look next => .call (s, memory) [.doing (next s.view)]

/-- A scheduler among callbacks. -/
def Callbacks.machine (cb : Callbacks μ) : Machine (Scheduler × μ) (Work μ) Answer Empty
  | .own f, _, (s, memory) => among memory (s.resume f)
  | .ask (.process e), _, (s, memory) => .call (s, memory) [.doing (cb.process e memory)]
  | .ask (.batchDone batch), _, (s, memory) => .ret (s, cb.batchDone s.view batch memory) .done
  | .ask .idle, _, (s, memory) => .ret (s, cb.idle s.view memory) .done
  | .doing d, _, (s, memory) => d.step s memory

/-- What a scheduler is about to ask. -/
def asking (c : Config (Scheduler × μ) (Work μ) Answer Empty) : Option Ask :=
  match c.stack with
  | .ask k :: _ => some k
  | _ => none

/-! ## What a callback leaves -/

/-- The scheduler after what a callback does while it is draining, and what is remembered.  To
drain again does nothing then. -/
def Doing.perform : Doing μ → Scheduler → Scheduler × μ
  | .done memory, s => (s, memory)
  | .enqueue now node priority source next, s =>
    (next (s.enqueue now node priority source).2.1).perform (s.enqueue now node priority source).1
  | .takeBatch limit next, s => (next (s.takeBatch limit).1).perform (s.takeBatch limit).2
  | .clear next, s => next.perform s.clear
  | .drain _ next, s => next.perform s
  | .look next, s => (next s.view).perform s

/-- The scheduler with another yield point. -/
def withYield (s : Scheduler) (y : YieldPoint Bool) : Scheduler := { s with yieldPoint := y }

/-- What a callback cannot change. -/
structure Amid (s s' : Scheduler) : Prop where
  draining : s'.draining = s.draining
  batchSize : s'.batchSize = s.batchSize
  yieldPoint : s'.yieldPoint = s.yieldPoint
  inFlight : s'.inFlight.length ≤ s.inFlight.length

namespace Amid

variable {s s' s'' : Scheduler}

theorem refl (s : Scheduler) : Amid s s := ⟨rfl, rfl, rfl, Nat.le_refl _⟩

theorem trans (h : Amid s s') (h' : Amid s' s'') : Amid s s'' :=
  ⟨h'.draining.trans h.draining, h'.batchSize.trans h.batchSize, h'.yieldPoint.trans h.yieldPoint,
    Nat.le_trans h'.inFlight h.inFlight⟩

end Amid

theorem amid_perform (d : Doing μ) (s : Scheduler) : Amid s (d.perform s).1 := by
  induction d generalizing s with
  | done memory => exact .refl s
  | enqueue now node priority source next ih =>
    have hamid : Amid s (s.enqueue now node priority source).1 := ⟨rfl, rfl, rfl, Nat.le_refl _⟩
    exact hamid.trans (ih _ _)
  | takeBatch limit next ih =>
    have hamid : Amid s (s.takeBatch limit).2 := ⟨rfl, rfl, rfl, Nat.le_refl _⟩
    exact hamid.trans (ih _ _)
  | clear next ih =>
    have hamid : Amid s s.clear := ⟨rfl, rfl, rfl, Nat.zero_le _⟩
    exact hamid.trans (ih _)
  | drain reports next ih => exact ih s
  | look next ih => exact ih _ s

/-- A callback does the same at another yield point. -/
theorem perform_withYield (d : Doing μ) (s : Scheduler) (y : YieldPoint Bool) :
    d.perform (s.withYield y) = ((d.perform s).1.withYield y, (d.perform s).2) := by
  induction d generalizing s with
  | done memory => rfl
  | enqueue now node priority source next ih =>
    exact ih _ (s.enqueue now node priority source).1
  | takeBatch limit next ih => exact ih _ (s.takeBatch limit).2
  | clear next ih => exact ih s.clear
  | drain reports next ih => exact ih s
  | look next ih => exact ih _ s

variable {cb : Callbacks μ} {s s' s₁ : Scheduler} {memory memory' memory₁ : μ}
  {below : List (Work μ)} {reports : Bool}

/-- A step in which nothing is asked. -/
theorem runs_step {f : Work μ} {r : Reply Answer Empty} {asks : List Ask}
    {c : Config (Scheduler × μ) (Work μ) Answer Empty}
    (hf : asking ⟨(s, memory), f :: below, r⟩ = none)
    (h : Runs cb.machine asking (after below (cb.machine f r (s, memory))) asks c) :
    Runs cb.machine asking ⟨(s, memory), f :: below, r⟩ asks c :=
  Runs.head (List.cons_ne_nil _ _) hf h

/-- What a callback does is done, and nothing is asked meanwhile. -/
theorem runs_doing (cb : Callbacks μ) (d : Doing μ) (s : Scheduler) (hd : s.draining = true)
    (memory : μ) (below : List (Work μ)) (r : Reply Answer Empty) :
    Runs cb.machine asking ⟨(s, memory), .doing d :: below, r⟩ []
      ⟨d.perform s, below, .returned .done⟩ := by
  induction d generalizing s r with
  | done memory' => exact runs_step rfl (.refl _)
  | enqueue now node priority source next ih =>
    refine runs_step rfl ?_
    exact ih (s.enqueue now node priority source).2.1 (s.enqueue now node priority source).1 hd
      (.returned default)
  | takeBatch limit next ih =>
    exact runs_step rfl (ih (s.takeBatch limit).1 (s.takeBatch limit).2 hd (.returned default))
  | clear next ih => exact runs_step rfl (ih s.clear hd (.returned default))
  | drain reports next ih =>
    have hdrain : (s.drain reports : Move Empty) = .ret s .done := if_pos hd
    have hstep : Doing.step s memory (.drain reports next) = .call (s, memory) [.doing next] := by
      rw [Doing.step, hdrain]
      rfl
    refine runs_step rfl ?_
    show Runs _ _ (after below (Doing.step s memory (.drain reports next))) _ _
    rw [hstep]
    exact ih s hd (.returned default)
  | look next ih => exact runs_step rfl (ih s.view s hd (.returned default))

/-! ## Batches -/

/-- The updates of the running batch are handed out until none is left. -/
inductive Hands (cb : Callbacks μ) : Scheduler → μ → List QueueEntry → Scheduler → μ → Prop where
  | done {s : Scheduler} {memory : μ} (empty : s.inFlight = []) : Hands cb s memory [] s memory
  | next {s s₁ s' : Scheduler} {memory memory₁ memory' : μ} {e : QueueEntry}
    {rest es : List QueueEntry} (flight : s.inFlight = e :: rest)
    (performed : (cb.process e memory).perform { s with inFlight := rest } = (s₁, memory₁))
    (others : Hands cb s₁ memory₁ es s' memory') : Hands cb s memory (e :: es) s' memory'

/-- A callback may clear the batch away, but nothing comes to it. -/
theorem exists_hands (cb : Callbacks μ) (s : Scheduler) (memory : μ) :
    ∃ es s' memory', Hands cb s memory es s' memory' := by
  induction hn : s.inFlight.length using Nat.strongRecOn generalizing s memory with
  | ind n ih =>
    cases hflight : s.inFlight with
    | nil => exact ⟨[], s, memory, .done hflight⟩
    | cons e rest =>
      obtain ⟨-, -, -, hle⟩ := amid_perform (cb.process e memory) { s with inFlight := rest }
      have hlt : ((cb.process e memory).perform { s with inFlight := rest }).1.inFlight.length <
          n := by
        rw [← hn, hflight]
        exact Nat.lt_succ_of_le hle
      obtain ⟨es, s', memory', hands⟩ := ih _ hlt _ _ rfl
      exact ⟨e :: es, s', memory', .next hflight rfl hands⟩

theorem Hands.amid {es : List QueueEntry} (h : Hands cb s memory es s' memory') :
    Amid s s' ∧ s'.inFlight = [] := by
  induction h with
  | done empty => exact ⟨.refl _, empty⟩
  | @next s s₁ s' memory memory₁ memory' e rest es flight performed others ih =>
    have hamid := amid_perform (cb.process e memory) { s with inFlight := rest }
    rw [performed] at hamid
    have hrest : Amid s { s with inFlight := rest } :=
      ⟨rfl, rfl, rfl, by rw [flight]; exact Nat.le_succ _⟩
    exact ⟨(hrest.trans hamid).trans ih.1, ih.2⟩

/-- The same updates are handed out at another yield point. -/
theorem Hands.withYield {es : List QueueEntry} (h : Hands cb s memory es s' memory')
    (y : YieldPoint Bool) : Hands cb (s.withYield y) memory es (s'.withYield y) memory' := by
  induction h with
  | done empty => exact .done empty
  | @next s s₁ s' memory memory₁ memory' e rest es flight performed others ih =>
    refine .next flight ?_ ih
    have hsame := perform_withYield (cb.process e memory) { s with inFlight := rest } y
    rw [performed] at hsame
    exact hsame

theorem runs_hands {es : List QueueEntry} (h : Hands cb s memory es s' memory')
    (hd : s.draining = true) (reports : Bool) (taken : List QueueEntry) (below : List (Work μ)) :
    Runs cb.machine asking (after below (among memory (s.handOut reports taken)))
      (es.map .process) (after below (among memory' (s'.handOut reports taken))) := by
  induction h with
  | done empty => exact .refl _
  | @next s s₁ s' memory memory₁ memory' e rest es flight performed others ih =>
    have hamid := amid_perform (cb.process e memory) { s with inFlight := rest }
    rw [performed] at hamid
    have hasks : Runs cb.machine asking (after below (among memory (s.handOut reports taken)))
        [.process e] ⟨({ s with inFlight := rest }, memory),
          .doing (cb.process e memory) :: .own (.batch reports taken) :: below,
          .returned default⟩ := by
      unfold handOut
      rw [flight]
      exact Runs.step (List.cons_ne_nil _ _)
    have hdoes := runs_doing cb (cb.process e memory) { s with inFlight := rest } hd memory
      (.own (.batch reports taken) :: below) (.returned default)
    rw [performed] at hdoes
    exact hasks.trans (hdoes.trans (runs_step rfl (ih (hamid.draining.trans hd))))

/-- The scheduler with the updates of its next batch taken. -/
def started (s : Scheduler) : Scheduler :=
  { (s.takeBatch none).2 with inFlight := (s.takeBatch none).1 }

/-- What is asked behind a batch. -/
def closing (reports : Bool) (taken : List QueueEntry) : List Ask :=
  if reports && !taken.isEmpty then [.batchDone taken] else []

/-- What is remembered behind a batch. -/
def Callbacks.close (cb : Callbacks μ) (reports : Bool) (taken : List QueueEntry) (s : Scheduler)
    (memory : μ) : μ :=
  if reports && !taken.isEmpty then cb.batchDone s.view taken memory else memory

/-- Behind the last update of a batch the drain goes on. -/
theorem runs_closing (hflight : s.inFlight = []) (taken : List QueueEntry)
    (below : List (Work μ)) :
    Runs cb.machine asking (after below (among memory (s.handOut reports taken)))
      (closing reports taken)
      (after below (among (cb.close reports taken s memory) (s.goOn reports))) := by
  unfold handOut closing Callbacks.close
  rw [hflight]
  by_cases hasks : (reports && !taken.isEmpty) = true
  · simp only [if_pos hasks]
    have hanswers : Runs cb.machine asking
        ⟨(s, memory), .ask (.batchDone taken) :: .own (.next reports) :: below,
          .returned default⟩ [.batchDone taken]
        ⟨(s, cb.batchDone s.view taken memory), .own (.next reports) :: below, .returned .done⟩ :=
      Runs.step (List.cons_ne_nil _ _)
    exact hanswers.trans_nil (runs_step rfl (.refl _))
  · simp only [if_neg hasks]
    exact .refl _

/-- A batch is taken and handed out, and this is asked. -/
inductive Slice (cb : Callbacks μ) (reports : Bool) (s : Scheduler) (memory : μ) :
    List Ask → Scheduler → μ → Prop where
  | intro {s' : Scheduler} {memory' : μ} {es : List QueueEntry}
    (hands : Hands cb s.started memory es s' memory') :
    Slice cb reports s memory (es.map .process ++ closing reports s.started.inFlight) s'
      (cb.close reports s.started.inFlight s' memory')

theorem exists_slice (cb : Callbacks μ) (reports : Bool) (s : Scheduler) (memory : μ) :
    ∃ asks s' memory', Slice cb reports s memory asks s' memory' := by
  obtain ⟨es, s', memory', hands⟩ := exists_hands cb s.started memory
  exact ⟨_, s', _, .intro hands⟩

namespace Slice

variable {asks : List Ask}

theorem kept (h : Slice cb reports s memory asks s' memory') :
    s'.draining = s.draining ∧ s'.batchSize = s.batchSize ∧ s'.yieldPoint = s.yieldPoint ∧
      s'.inFlight = [] := by
  obtain ⟨hands⟩ := h
  obtain ⟨⟨hdraining, hsize, hyield, -⟩, hflight⟩ := hands.amid
  exact ⟨hdraining, hsize, hyield, hflight⟩

/-- A batch does the same at another yield point. -/
theorem withYield (h : Slice cb reports s memory asks s' memory') (y : YieldPoint Bool) :
    Slice cb reports (s.withYield y) memory asks (s'.withYield y) memory' := by
  obtain ⟨hands⟩ := h
  exact .intro (hands.withYield y)

theorem resumes (h : Slice cb reports s memory asks s' memory') (hd : s.draining = true)
    (below : List (Work μ)) :
    Runs cb.machine asking (after below (among memory (s.resume (.begin reports)))) asks
      (after below (among memory' (s'.goOn reports))) := by
  obtain ⟨hands⟩ := h
  obtain ⟨-, hflight⟩ := hands.amid
  have hhands := runs_hands hands hd reports s.started.inFlight below
  exact hhands.trans (runs_closing hflight s.started.inFlight below)

theorem runs (h : Slice cb reports s memory asks s' memory') (hd : s.draining = true)
    (below : List (Work μ)) (r : Reply Answer Empty) :
    Runs cb.machine asking ⟨(s, memory), .own (.begin reports) :: below, r⟩ asks
      (after below (among memory' (s'.goOn reports))) :=
  runs_step rfl (h.resumes hd below)

end Slice

/-! ## Drains -/

/-- What is asked when nothing waits any more. -/
def ending (reports : Bool) : List Ask := if reports then [.idle] else []

/-- What is remembered when nothing waits any more. -/
def Callbacks.finish (cb : Callbacks μ) (reports : Bool) (s : Scheduler) (memory : μ) : μ :=
  if reports then cb.idle s.view memory else memory

/-- Batch after batch is taken until nothing waits; this is asked on the way. -/
inductive Drains (cb : Callbacks μ) (reports : Bool) :
    Scheduler → μ → List Ask → Scheduler → μ → Prop where
  | last {s s₁ : Scheduler} {memory memory₁ : μ} {asks : List Ask}
    (slice : Slice cb reports s memory asks s₁ memory₁) (empty : s₁.queue.entries = []) :
    Drains cb reports s memory (asks ++ ending reports) { s₁ with draining := false }
      (cb.finish reports { s₁ with draining := false } memory₁)
  | more {s s₁ s' : Scheduler} {memory memory₁ memory' : μ} {asks asks' : List Ask}
    (slice : Slice cb reports s memory asks s₁ memory₁) (left : s₁.queue.entries ≠ [])
    (drains : Drains cb reports s₁ memory₁ asks' s' memory') :
    Drains cb reports s memory (asks ++ asks') s' memory'

/-- What waits is left to the yield point. -/
theorem goOn_of_left (h : s.queue.entries ≠ []) (reports : Bool) :
    (s.goOn reports : Move Empty) = s.ofYield (s.yieldPoint.defer reports) :=
  if_neg fun hempty => h (List.isEmpty_iff.mp hempty)

/-- Behind the last batch a drain is done. -/
theorem runs_last (cb : Callbacks μ) (hempty : s.queue.entries = []) (memory : μ) (reports : Bool)
    (below : List (Work μ)) :
    Runs cb.machine asking (after below (among memory (s.goOn reports))) (ending reports)
      ⟨({ s with draining := false }, cb.finish reports { s with draining := false } memory), below,
        .returned .done⟩ := by
  unfold goOn ending Callbacks.finish
  rw [if_pos (List.isEmpty_iff.mpr hempty)]
  dsimp only
  split
  · exact Runs.step (List.cons_ne_nil _ _)
  · exact .refl _

end LiveForm.Scheduler
