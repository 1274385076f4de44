import LiveForm.Proofs.Engine.Reachable
import LiveForm.Proofs.Engine.Termination

/-!
# Drains at a manual yield point

At a manual yield point each batch but the first one waits until it is run by hand.  No update
depends on that: a drain whose batches are run by hand takes the updates that it would take at once.
-/

namespace LiveForm.Engine

open Machine (after Runs Visits)

variable {settings : Settings} {mode : YieldMode} {e e' : Engine}
  {below : List (Activity Frame Ask)} {answer : Engine → Ask → Reply Response EngineError}

/-! ## Other yield points -/

/-- The engine with another yield point. -/
def withYield (e : Engine) (y : YieldPoint Bool) : Engine :=
  { e with scheduler := { e.scheduler with yieldPoint := y } }

/-- A yield point at which nothing waits. -/
def resting (mode : YieldMode) : YieldPoint Bool := { mode }

/-- A yield point whose loop is going on. -/
def spinning : YieldPoint Bool := { mode := .immediate, running := true }

theorem Coherent.withYield (h : Coherent settings mode e) (y : YieldPoint Bool) :
    Coherent settings y.mode (e.withYield y) :=
  { h with ofMode := rfl }

theorem Quiet.withYield (h : e.Quiet) (mode : YieldMode) : (e.withYield (resting mode)).Quiet :=
  ⟨h.queue, h.flight, h.drained, rfl, rfl, h.running⟩

theorem Quiet.yieldPoint (h : e.Quiet) (hc : Coherent settings mode e) :
    e.scheduler.yieldPoint = resting mode := by
  have hmode := hc.ofMode
  have hwaiting := h.waiting
  have hunlooped := h.unlooped
  generalize e.scheduler.yieldPoint = y at hmode hwaiting hunlooped
  obtain ⟨mode', waiting, running⟩ := y
  cases hmode
  cases hwaiting
  cases hunlooped
  rfl

theorem withYield_self {y : YieldPoint Bool} (h : e.scheduler.yieldPoint = y) :
    e.withYield y = e := by
  rw [withYield, ← h]

theorem schedule_withYield (e : Engine) (y : YieldPoint Bool) (ids : List String)
    (priority : Priority) (source scope : Option String) :
    (e.withYield y).schedule ids priority source scope =
      (e.schedule ids priority source scope).withYield y := by
  let enlist (e : Engine) (id : String) : Engine :=
    { e with passes := e.passes.filter (·.1 != id) }.enqueue id priority source
  have h : ∀ e : Engine, ids.foldl enlist (e.withYield y) = (ids.foldl enlist e).withYield y :=
    fun e => List.foldl_hom (fun e : Engine => e.withYield y) fun _ _ => rfl
  exact h { e with
    scope := if e.phase = .evaluating then (if e.scope = scope then scope else none) else scope }

theorem passOn_withYield (n : OutputNode) (source : Option String) (readers : List String)
    (e : Engine) (y : YieldPoint Bool) (peer : String) :
    passOn n source readers (e.withYield y) peer =
      (passOn n source readers e peer).withYield y := by
  have hhears : hears n source readers (e.withYield y) peer = hears n source readers e peer := rfl
  unfold passOn
  rw [hhears]
  split
  · rfl
  · rfl

theorem passed_withYield (e : Engine) (y : YieldPoint Bool) (n : OutputNode)
    (source : Option String) : (e.withYield y).passed n source = (e.passed n source).withYield y :=
  List.foldl_hom (fun e : Engine => e.withYield y)
    fun e peer => passOn_withYield n source _ e y peer

theorem Judged.withYield {n : OutputNode} (h : e.Judged n e') (y : YieldPoint Bool) :
    (e.withYield y).Judged n (e'.withYield y) := by
  obtain ⟨⟨ns, heq⟩, htolerances, hsize⟩ := h
  refine ⟨⟨ns, ?_⟩, htolerances, hsize⟩
  rw [heq]
  rfl

theorem Stored.withYield {n : OutputNode} {v : Value} (h : e.Stored n v e') (y : YieldPoint Bool) :
    (e.withYield y).Stored n v (e'.withYield y) := by
  obtain ⟨written, ns, rfl, hwritten⟩ := h
  exact ⟨written, ns, rfl, hwritten⟩

/-- What an update does is the same at another yield point. -/
theorem Updated.withYield {entry : QueueEntry} (h : Updated e entry e') (y : YieldPoint Bool) :
    Updated (e.withYield y) entry (e'.withYield y) := by
  have hfate : (e.withYield y).fate entry = e.fate entry := rfl
  cases h with
  | passedOver fate => exact .passedOver (hfate.trans fate)
  | brokenOff n fate => exact .brokenOff n (hfate.trans fate)
  | keptOut n v _ fate value out judged =>
    exact .keptOut n v _ (hfate.trans fate) value out (judged.withYield y)
  | accepted n v e₁ e₂ ns fate value new judged stored =>
    have hpassed := passed_withYield { e₂ with notices := ns, announcing := e.announcing } y
      { n with lastValue := v, evaluated := true } entry.source
    rw [← hpassed]
    exact .accepted n v (e₁.withYield y) (e₂.withYield y) ns (hfate.trans fate) value new
      (judged.withYield y) (stored.withYield y)

theorem Slice.withYield {us : List Update} {e₁ : Engine} (h : Slice e us e₁) (y : YieldPoint Bool) :
    ∃ vs, Slice (e.withYield y) vs (e₁.withYield y) := by
  induction h with
  | done flight => exact ⟨[], .done flight⟩
  | update flight updated _ ih =>
    obtain ⟨vs, hvs⟩ := ih
    exact ⟨_, .update flight (updated.withYield y) hvs⟩

/-! ## Running batches by hand -/

/-- A manual yield point leaves the next batch for later. -/
theorem goOn_eq_of_manual (hy : e.scheduler.yieldPoint = resting .manual)
    (hq : e.scheduler.queue.entries ≠ []) :
    e.ofScheduler (e.scheduler.goOn true) =
      (e.withYield { mode := .manual, waiting := [true] }).finish := by
  unfold Scheduler.goOn
  rw [if_neg (by simpa using hq), hy]
  rfl

/-- Where nothing waits there is nothing to be run by hand. -/
theorem runs_pump_of_resting (hy : e.scheduler.yieldPoint = resting .manual) (count : Nat) :
    Runs (among answer) updates
      ⟨e, .own (.queue (.yielding (.pump count))) :: below, .returned default⟩ []
      ⟨e, below, .returned (.plain (.count count))⟩ := by
  refine runs_own rfl ?_
  show Runs _ _ (after below (ofScheduler e (Scheduler.ofYield e.scheduler
    (e.scheduler.yieldPoint.resume (.pump count))))) _ _
  rw [hy]
  show Runs _ _ ⟨e.withYield (resting .manual), _, _⟩ _ _
  rw [withYield_self hy]
  exact .refl _

theorem yieldPoint_finished (hy : e.scheduler.yieldPoint = resting .manual) (ns : List Notice) :
    (e.finished ns).scheduler.yieldPoint = resting .manual := by
  show { e.scheduler.yieldPoint with running := false } = _
  rw [hy]
  rfl

/-- The batches that are run by hand are those of a drain. -/
theorem runs_pump (hs : settings.InRange)
    (hmost : settings.historySize ≤ ConvergenceDetector.maxHistory)
    (below : List (Activity Frame Ask)) (e : Engine) (hc : Coherent settings .manual e)
    (hu : Underway settings (e.withYield spinning)) (hf : e.scheduler.inFlight = [])
    (hq : e.scheduler.queue.entries ≠ [])
    (hy : e.scheduler.yieldPoint = { mode := .manual, waiting := [true] }) (count : Nat)
    (calm : Calm answer
      ⟨e, .own (.queue (.yielding (.pump count))) :: below, .returned default⟩) :
    ∃ us vs, ∃ e' : Engine, ∃ ns count', Drains (e.withYield spinning) us (e'.withYield spinning) ∧
      Runs (among answer) updates
        ⟨e, .own (.queue (.yielding (.pump count))) :: below, .returned default⟩ vs
        ⟨e'.finished ns, below, .returned (.plain (.count count'))⟩ := by
  -- The batch that waits is taken and processed
  have hbegin : Runs (among answer) updates
      ⟨e, .own (.queue (.yielding (.pump count))) :: below, .returned default⟩ []
      ((e.withYield (resting .manual)).taken.handing (e.scheduler.takeBatch none).1
        (.own (.queue (.yielding (.pump (count + 1)))) :: below)) := by
    refine runs_own rfl ?_
    show Runs _ _ (after below (ofScheduler e (Scheduler.ofYield e.scheduler
      (e.scheduler.yieldPoint.resume (.pump count))))) _ _
    rw [hy]
    exact runs_own rfl (.refl _)
  obtain ⟨us, e₁, hslice, hr⟩ := runs_slice hmost _ (e.withYield (resting .manual)).taken
    ((hc.withYield (resting .manual)).congr rfl) _ (calm.runs hbegin)
  have hy₁ : e₁.scheduler.yieldPoint = resting .manual := hslice.yieldPoint
  have hr₁ := hbegin.trans hr
  obtain ⟨us', hslice'⟩ := hslice.withYield spinning
  have hu₁ : Underway settings (e₁.withYield spinning) := hslice'.underway hu.looped.taken
  have hflight : e.taken.scheduler.inFlight ≠ [] := hu.flight_taken hs hq
  have hload : e.taken.load = e.load := hu.load_taken hf
  by_cases hq₁ : e₁.scheduler.queue.entries = []
  · obtain ⟨ns, hfinish⟩ := runs_finish (.own (.queue (.yielding (.pump (count + 1)))) :: below)
      answer (e := e₁) (by rw [hy₁]; rfl) hq₁
    rw [hy₁] at hfinish
    have hdone : Drains (e₁.withYield spinning) [] (e₁.withYield spinning) :=
      .done hq₁ hslice'.flight
    exact ⟨_, _, e₁, ns, count + 1, .batch hf hq (hslice'.drains hdone),
      hr₁.trans (hfinish.trans (runs_pump_of_resting (yieldPoint_finished hy₁ ns) (count + 1)))⟩
  -- The next batch waits in its turn
  · rw [goOn_eq_of_manual hy₁ hq₁] at hr₁
    have hc₁ := (hslice.coherent ((hc.withYield (resting .manual)).congr rfl)).withYield
      { mode := .manual, waiting := [true] }
    obtain ⟨vs, ws, e', ns, count', hd, hrest⟩ := runs_pump hs hmost below
      (e₁.withYield { mode := .manual, waiting := [true] }) hc₁ hu₁ hslice.flight hq₁ rfl
      (count + 1) (calm.runs hr₁)
    exact ⟨_, _, e', ns, count', .batch hf hq (hslice'.drains hd), hr₁.trans hrest⟩
termination_by (e.budget, e.load)
decreasing_by
  rcases hslice.measure hflight with hlt | ⟨heq, hlt⟩
  · exact Prod.Lex.left _ _ hlt
  · have hbudget : (e₁.withYield { mode := .manual, waiting := [true] }).budget = e.budget := heq
    rw [hbudget]
    exact Prod.Lex.right _ (Nat.lt_of_lt_of_eq hlt hload)

theorem perform_runAll (hm : e.scheduler.yieldPoint.mode = .manual) :
    e.perform .runAll = .call e [.own (.queue (.yielding (.pump 0)))] := by
  show e.pump e.scheduler.runAll = _
  unfold pump
  rw [hm]
  rfl

/-- From a quiet engine a cycle comes to its end when the batches that wait are run by hand. -/
theorem runs_by_hand (hs : settings.InRange)
    (hmost : settings.historySize ≤ ConvergenceDetector.maxHistory)
    (hc : Coherent settings .manual e) (hq : e.Quiet) {ids : List String} {priority : Priority}
    {source scope : Option String}
    (calm : Calm answer (after [] (e.schedule ids priority source scope).drain))
    (calm' : ∀ e₁ r, Visits (among answer) (after [] (e.schedule ids priority source scope).drain)
      ⟨e₁, [], r⟩ → Calm answer (after [] (e₁.perform .runAll))) :
    ∃ us vs ws e₁, ∃ e' : Engine, ∃ ns count,
      Runs (among answer) updates (after [] (e.schedule ids priority source scope).drain) us
        ⟨e₁, [], .returned default⟩ ∧
      Runs (among answer) updates (after [] (e₁.perform .runAll)) vs
        ⟨e'.finished ns, [], .returned (.plain (.count count))⟩ ∧
      Drains
        ((e.withYield (resting .immediate)).schedule ids priority source scope).begun.taken.looped
        ws (e'.withYield spinning) := by
  have hunderway := underway_schedule (hc.withYield (resting .immediate)) (hq.withYield .immediate)
    ids priority source scope
  have hc₁ := hc.schedule ids priority source scope
  obtain ⟨hscheduler, -, -⟩ := scheduler_schedule e ids priority source scope
  rw [schedule_withYield] at hunderway ⊢
  have hy : (e.schedule ids priority source scope).scheduler.yieldPoint = resting .manual := by
    rw [hscheduler]
    exact hq.yieldPoint hc
  generalize e.schedule ids priority source scope = e₁ at *
  have hbegin : Runs (among answer) updates (after [] e₁.drain) []
      (e₁.begun.taken.handing (e₁.begun.scheduler.takeBatch none).1 []) := by
    refine runs_begin ?_ ?_
    · rw [hscheduler]
      exact hq.drained
    · rw [hy]
      rfl
  obtain ⟨us, e₂, hslice, hr⟩ := runs_slice hmost [] e₁.begun.taken (hc₁.congr rfl) _
    (calm.runs hbegin)
  have hy₂ : e₂.scheduler.yieldPoint = resting .manual := hslice.yieldPoint.trans hy
  have hr₁ := hbegin.trans hr
  obtain ⟨us', hslice'⟩ := hslice.withYield spinning
  have hu₂ : Underway settings (e₂.withYield spinning) := hslice'.underway hunderway.taken.looped
  have hlevel : level e₁.begun.taken.scheduler.yieldPoint [] =
      level e₂.scheduler.yieldPoint [] := by
    rw [hslice.yieldPoint]
  rw [hlevel] at hr₁
  by_cases hq₂ : e₂.scheduler.queue.entries = []
  · obtain ⟨ns, hfinish⟩ := runs_finish [] answer (e := e₂) (by rw [hy₂]; rfl) hq₂
    have hpump : Runs (among answer) updates (after [] ((e₂.finished ns).perform .runAll)) []
        ⟨e₂.finished ns, [], .returned (.plain (.count 0))⟩ := by
      rw [perform_runAll (by rw [yieldPoint_finished hy₂]; rfl)]
      exact runs_pump_of_resting (yieldPoint_finished hy₂ ns) 0
    have hdone : Drains (e₂.withYield spinning) [] (e₂.withYield spinning) :=
      .done hq₂ hslice'.flight
    exact ⟨_, _, _, _, e₂, ns, 0, hr₁.trans hfinish, hpump, hslice'.drains hdone⟩
  · rw [goOn_eq_of_manual hy₂ hq₂, hy₂] at hr₁
    have hc₂ := (hslice.coherent (hc₁.congr rfl)).withYield { mode := .manual, waiting := [true] }
    have hcalm := calm' _ _ hr₁.visits
    rw [perform_runAll rfl] at hcalm
    obtain ⟨vs, ws, e', ns, count, hd, hpump⟩ := runs_pump hs hmost []
      (e₂.withYield { mode := .manual, waiting := [true] }) hc₂ hu₂ hslice.flight hq₂ rfl 0 hcalm
    refine ⟨_, ws, _, _, e', ns, count, hr₁, ?_, hslice'.drains hd⟩
    rw [perform_runAll rfl]
    exact hpump

end LiveForm.Engine
