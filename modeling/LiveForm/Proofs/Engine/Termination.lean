import LiveForm.Proofs.Engine.Draining
import LiveForm.Proofs.Settings
import Mathlib.Algebra.Order.BigOperators.Group.List
import Mathlib.Algebra.Order.Group.Nat

/-!
# Every drain ends

Each evaluation of a node uses up one of its passes, and each other update is one less that waits.
So a drain ends, and no node is evaluated more often than it has passes.
-/

namespace LiveForm.Engine

open Machine (after Runs)

variable {settings : Settings} {e e' : Engine} {base : List (Activity Frame Ask)}
  {answer : Engine → Ask → Reply Response EngineError}

/-! ## Passes -/

theorem passesOf_counted (e : Engine) (n : OutputNode) (id : String) :
    (e.counted n).passesOf id = if id = n.id then e.passesOf n.id + 1 else e.passesOf id := by
  unfold passesOf counted
  dsimp only
  rw [List.lookup_cons]
  by_cases h : id = n.id
  · rw [if_pos h, h, beq_self_eq_true]
    rfl
  · rw [if_neg h, beq_false_of_ne h, lookup_filter_ne _ h]

/-- A node that has had its pass has had it when another pass was counted. -/
theorem any_passes_counted {n : OutputNode} {id : String}
    (h : id = n.id ∨ e.passes.any (·.1 == id) = true) :
    (e.counted n).passes.any (·.1 == id) = true := by
  by_cases hid : id = n.id
  · exact List.any_eq_true.mpr ⟨_, List.mem_cons_self, beq_iff_eq.mpr hid.symm⟩
  · obtain ⟨p, hp, hpid⟩ := List.any_eq_true.mp (h.resolve_left hid)
    refine List.any_eq_true.mpr ⟨p, List.mem_cons_of_mem _ (List.mem_filter.mpr ⟨hp, ?_⟩), hpid⟩
    rw [beq_iff_eq.mp hpid]
    exact bne_iff_ne.mpr hid

/-! ## What is left to do -/

/-- The passes that a node is left with. -/
def passesLeft (e : Engine) (id : String) : Nat := e.settings.maxPasses.toNat - e.passesOf id

/-- How many evaluations the passes still allow for. -/
def budget (e : Engine) : Nat := (e.registry.ids.map e.passesLeft).foldr (· + ·) 0

/-- How many updates wait. -/
def load (e : Engine) : Nat := e.scheduler.queue.entries.length + e.scheduler.inFlight.length

theorem Evaluates.passesLeft {entry : QueueEntry} {n : OutputNode} (h : e.Evaluates entry n) :
    (e.counted n).passesLeft n.id + 1 = e.passesLeft n.id := by
  have hwithin := h.within
  have hpasses : (e.counted n).passesOf n.id = e.passesOf n.id + 1 := by
    rw [passesOf_counted, if_pos rfl]
  show e.settings.maxPasses.toNat - (e.counted n).passesOf n.id + 1 = _
  rw [hpasses, Engine.passesLeft]
  omega

theorem passesLeft_counted (e : Engine) (n : OutputNode) {id : String} (h : id ≠ n.id) :
    (e.counted n).passesLeft id = e.passesLeft id := by
  show e.settings.maxPasses.toNat - (e.counted n).passesOf id = _
  rw [passesOf_counted, if_neg h]
  rfl

/-- An evaluation uses up a pass. -/
theorem Evaluates.budget_lt {entry : QueueEntry} {n : OutputNode} (h : e.Evaluates entry n) :
    (e.counted n).budget < e.budget := by
  obtain ⟨hmem, -⟩ := Registry.mem_of_find? h.found
  have hleft := h.passesLeft
  have hle : ∀ id ∈ e.registry.ids, (e.counted n).passesLeft id ≤ e.passesLeft id := by
    intro id _
    by_cases hid : id = n.id
    · rw [hid]
      omega
    · rw [passesLeft_counted e n hid]
  -- Only the node that is evaluated has a pass less
  have hlt : (e.counted n).passesLeft n.id < e.passesLeft n.id := by omega
  exact List.sum_lt_sum _ _ hle ⟨n.id, List.mem_map_of_mem hmem, hlt⟩

theorem passesLeft_updated {entry : QueueEntry} (hu : Updated e entry e') {n : OutputNode}
    (hf : e.fate entry = .evaluated n) : e'.passesLeft = (e.counted n).passesLeft := by
  obtain ⟨hongoing, hpasses⟩ := hu.evaluated hf
  simp only [ongoing, Prod.mk.injEq] at hongoing
  funext id
  unfold passesLeft passesOf
  rw [hpasses, hongoing.2.1]
  rfl

/-- An update either uses up a pass or is one less that waits. -/
theorem Updated.measure {entry : QueueEntry} {rest : List QueueEntry}
    (hu : Updated (e.withFlight rest) entry e') (hf : e.scheduler.inFlight = entry :: rest) :
    e'.budget < e.budget ∨ e'.budget = e.budget ∧ e'.load < e.load := by
  have hload : (e.withFlight rest).load + 1 = e.load := by
    rw [load, load, hf, List.length_cons]
    rfl
  rcases hu.ends with ⟨-, rfl⟩ | ⟨n, -, rfl⟩ | ⟨n, hfate⟩
  · exact Or.inr ⟨rfl, by omega⟩
  · refine Or.inr ⟨rfl, ?_⟩
    show 0 < e.load
    omega
  · refine Or.inl ?_
    obtain ⟨hongoing, -⟩ := hu.evaluated hfate
    simp only [ongoing, Prod.mk.injEq] at hongoing
    have hlt := (evaluates_of_fate hfate).budget_lt
    rw [budget, passesLeft_updated hu hfate, hongoing.2.2.1]
    exact hlt

theorem Underway.load_taken (h : Underway settings e) (hf : e.scheduler.inFlight = []) :
    e.looped.taken.load = e.load := by
  have hperm := (UpdateQueue.take_perm h.nodup e.scheduler.batchSize).length_eq
  rw [List.length_append] at hperm
  have hload : e.load = e.scheduler.queue.entries.length := by
    rw [load, hf]
    rfl
  rw [hload, ← hperm, Nat.add_comm]
  rfl

theorem Underway.flight_taken (h : Underway settings e) (hs : settings.InRange)
    (hq : e.scheduler.queue.entries ≠ []) : e.looped.taken.scheduler.inFlight ≠ [] := by
  have hbatch := hs.counts .batchSize (by decide)
  have hpos : 0 < e.scheduler.batchSize := by
    rw [h.coherent.batchSize]
    exact Int.lt_toNat.mpr hbatch
  exact UpdateQueue.take_ne_nil hpos hq

/-! ## Batches -/

/-- These updates, the ones in flight, are processed one after another. -/
inductive Slice : Engine → List Update → Engine → Prop where
  | done {e : Engine} (flight : e.scheduler.inFlight = []) : Slice e [] e
  | update {e e₁ e₂ : Engine} {entry : QueueEntry} {rest : List QueueEntry} {us : List Update}
    (flight : e.scheduler.inFlight = entry :: rest) (updated : Updated (e.withFlight rest) entry e₁)
    (later : Slice e₁ us e₂) : Slice e (⟨e.withFlight rest, entry⟩ :: us) e₂

namespace Slice

variable {us vs : List Update} {e₁ e₂ : Engine}

theorem flight (h : Slice e us e₁) : e₁.scheduler.inFlight = [] := by
  induction h with
  | done flight => exact flight
  | update _ _ _ ih => exact ih

theorem eq_of_flight (h : Slice e us e₁) (hf : e.scheduler.inFlight = []) : e = e₁ := by
  cases h with
  | done => rfl
  | update flight =>
    rw [hf] at flight
    cases flight

theorem yieldPoint (h : Slice e us e₁) : e₁.scheduler.yieldPoint = e.scheduler.yieldPoint := by
  induction h with
  | done => rfl
  | update _ updated _ ih => exact ih.trans updated.yieldPoint

theorem coherent {mode : YieldMode} (h : Slice e us e₁) (hc : Coherent settings mode e) :
    Coherent settings mode e₁ := by
  induction h with
  | done => exact hc
  | @update e _ _ _ rest _ _ updated _ ih =>
    have hc₁ : Coherent settings mode (e.withFlight rest) := hc.congr rfl
    exact ih (hc₁.updated updated)

theorem underway (h : Slice e us e₁) (hu : Underway settings e) : Underway settings e₁ := by
  induction h with
  | done => exact hu
  | update flight updated _ ih => exact ih (hu.updated flight updated)

/-- A drain goes on behind a batch. -/
theorem drains (h : Slice e us e₁) (hd : Drains e₁ vs e₂) : Drains e (us ++ vs) e₂ := by
  induction h with
  | done => exact hd
  | update flight updated _ ih => exact .update flight updated (ih hd)

theorem measure_le (h : Slice e us e₁) :
    e₁.budget < e.budget ∨ e₁.budget = e.budget ∧ e₁.load ≤ e.load := by
  induction h with
  | done => exact Or.inr ⟨rfl, le_rfl⟩
  | update flight updated _ ih =>
    have hmeasure := updated.measure flight
    omega

/-- Where each node of a batch is to have its first pass, the whole batch is processed. -/
theorem map_entry (h : Slice e us e₁) (hmax : 1 ≤ e.settings.maxPasses)
    (hnodup : (e.scheduler.inFlight.map (·.node)).Nodup)
    (hfresh : ∀ x ∈ e.scheduler.inFlight, e.passesOf x.node = 0) :
    us.map (·.entry) = e.scheduler.inFlight := by
  induction h with
  | done flight => exact flight.symm
  | @update e e₁ e₂ entry rest us flight updated later ih =>
    rw [flight] at hnodup hfresh ⊢
    rw [List.map_cons, List.nodup_cons] at hnodup
    have hrest : ∀ x ∈ rest, (e.withFlight rest).passesOf x.node = 0 := fun x hx =>
      hfresh x (List.mem_cons_of_mem _ hx)
    rw [List.map_cons]
    rcases updated.ends with ⟨-, rfl⟩ | ⟨n, hf, -⟩ | ⟨n, hf⟩
    · exact congrArg _ (ih hmax hnodup.2 hrest)
    -- A first pass is within any limit
    · have hpasses : (e.withFlight rest).passesOf entry.node = 0 :=
        hfresh entry List.mem_cons_self
      refine absurd hf (fate_ne_brokenOff ?_ n)
      rw [hpasses]
      exact hmax
    · obtain ⟨hongoing, hpasses⟩ := updated.evaluated hf
      simp only [ongoing, Prod.mk.injEq] at hongoing
      obtain ⟨-, hsettings, -, hflight, -⟩ := hongoing
      have hflight' : e₁.scheduler.inFlight = rest := hflight
      have hid : n.id = entry.node := (Registry.mem_of_find? (evaluates_of_fate hf).found).2
      rw [hflight'] at ih
      refine congrArg _ (ih (hsettings ▸ hmax) hnodup.2 fun x hx => ?_)
      have hne : x.node ≠ n.id := by
        intro heq
        exact hnodup.1 (hid ▸ heq ▸ List.mem_map_of_mem hx)
      have hcounted : e₁.passesOf x.node = ((e.withFlight rest).counted n).passesOf x.node := by
        rw [passesOf, hpasses, passesOf]
      rw [hcounted, passesOf_counted, if_neg hne]
      exact hrest x hx

/-- A batch uses up passes, or there are fewer updates that wait. -/
theorem measure (h : Slice e us e₁) (hf : e.scheduler.inFlight ≠ []) :
    e₁.budget < e.budget ∨ e₁.budget = e.budget ∧ e₁.load < e.load := by
  cases h with
  | done flight => exact absurd flight hf
  | update flight updated later =>
    have hmeasure := updated.measure flight
    have hle := later.measure_le
    omega

end Slice

/-! ## Running through a drain -/

/-- The engine when a drain is over, with these notices. -/
def finished (e : Engine) (ns : List Notice) : Engine :=
  { e with
    scheduler := { e.scheduler with
      draining := false
      yieldPoint := { e.scheduler.yieldPoint with running := false } }
    changed := []
    passes := []
    scope := none
    halted := false
    phase := if e.rests then .queued else .idle
    notices := ns }

/-- What is below a drain: the loop of its yield point, if that runs. -/
def level (y : YieldPoint Bool) (base : List (Activity Frame Ask)) : List (Activity Frame Ask) :=
  if y.running then .own (.queue (.yielding .loop)) :: base else base

/-- The move of a drain that hands out the next update. -/
def handOut (e : Engine) (batch : List QueueEntry) : Move :=
  e.ofScheduler (e.scheduler.handOut true batch)

/-- The configuration in which a drain hands out the next update. -/
def handing (e : Engine) (batch : List QueueEntry) (base : List (Activity Frame Ask)) : Running :=
  after (level e.scheduler.yieldPoint base) (e.handOut batch)

/-- Where nothing is in flight any more a drain goes on behind its batch. -/
theorem runs_behind {below : List (Activity Frame Ask)} {batch : List QueueEntry}
    {us : List Update} {c : Running} (hf : e.scheduler.inFlight = [])
    (hr : Runs (among answer) updates (after below (e.ofScheduler (e.scheduler.goOn true))) us c) :
    Runs (among answer) updates (after below (e.handOut batch)) us c := by
  unfold handOut Scheduler.handOut
  rw [hf]
  dsimp only
  split
  · exact runs_own rfl (runs_own rfl hr)
  · exact hr

/-- Where entries wait the loop of the yield point begins the next batch. -/
theorem runs_next (h : Underway settings e) (hq : e.scheduler.queue.entries ≠ [])
    {us : List Update} {c : Running}
    (hr : Runs (among answer) updates
      (e.looped.taken.handing (e.scheduler.takeBatch none).1 base) us c) :
    Runs (among answer) updates
      (after (level e.scheduler.yieldPoint base) (e.ofScheduler (e.scheduler.goOn true))) us c := by
  -- Whether the loop is there already or is put there, it begins the batch that was left to it
  have hloop : Runs (among answer) updates
      ⟨{ e with scheduler := { e.scheduler with
        yieldPoint := { e.scheduler.yieldPoint with waiting := [true], running := true } } },
        .own (.queue (.yielding .loop)) :: base, .returned default⟩ us c := by
    have hlooped : e.looped = { e with scheduler := { e.scheduler with
        yieldPoint := { e.scheduler.yieldPoint with waiting := [], running := true } } } := by
      rw [looped, ← h.waiting]
    have hbegin : Runs (among answer) updates ⟨e.looped, .own (.queue (.begin true)) ::
        .own (.queue (.yielding .loop)) :: base, .returned default⟩ us c := runs_own rfl hr
    rw [hlooped] at hbegin
    exact runs_own rfl hbegin
  have hmode : e.scheduler.yieldPoint.mode = .immediate := h.coherent.ofMode
  have hgo : e.scheduler.goOn true = (e.scheduler.ofYield (e.scheduler.yieldPoint.defer true) :
      Scheduler.Move EngineError) := if_neg (by simpa using hq)
  rw [hgo, YieldPoint.defer_eq hmode h.waiting, level]
  split
  · exact hloop
  · exact hloop

variable (answer) in
/-- A drain that is over ends its cycle. -/
theorem runs_complete (below : List (Activity Frame Ask)) (e : Engine) :
    ∃ ns, Runs (among answer) updates (after below e.complete) []
      ⟨{ e.finished ns with scheduler := e.scheduler }, below, .returned default⟩ := by
  unfold complete
  dsimp only
  split
  · exact ⟨e.notices, .refl _⟩
  · obtain ⟨ns, hr⟩ := runs_listeners below answer e.changed e.listeners
      { e.finished e.notices with scheduler := e.scheduler }
    exact ⟨ns, hr⟩

variable (base answer) in
/-- Where nothing waits the drain is over. -/
theorem runs_finish (hw : e.scheduler.yieldPoint.waiting = [])
    (hq : e.scheduler.queue.entries = []) :
    ∃ ns, Runs (among answer) updates
      (after (level e.scheduler.yieldPoint base) (e.ofScheduler (e.scheduler.goOn true))) []
      ⟨e.finished ns, base, .returned default⟩ := by
  obtain ⟨ns, hr⟩ := runs_complete answer (level e.scheduler.yieldPoint base)
    { e with scheduler := { e.scheduler with draining := false } }
  have hgo : e.scheduler.goOn true = (.call { e.scheduler with draining := false }
      [.ask .idle] : Scheduler.Move EngineError) := if_pos (by rw [hq]; rfl)
  rw [hgo]
  refine ⟨ns, runs_own (f := .complete) rfl (hr.trans_nil ?_)⟩
  unfold level
  split
  · refine runs_own (f := .queue (.yielding .loop)) rfl ?_
    have hloop : e.scheduler.yieldPoint.resume .loop = (.ret { e.scheduler.yieldPoint with
        running := false } .done : YieldPoint.Move Bool EngineError) :=
      YieldPoint.resume_loop_eq hw
    show Runs _ _ (after base (ofScheduler _ (Scheduler.ofYield _
      (e.scheduler.yieldPoint.resume .loop)))) _ _
    rw [hloop]
    exact .refl _
  -- Without a loop there is nothing to be ended
  · next hrunning =>
    have hy : { e.scheduler.yieldPoint with running := false } = e.scheduler.yieldPoint := by
      rw [← Bool.not_eq_true _ |>.mp hrunning]
    unfold finished
    rw [hy]
    exact .refl _

/-- A batch runs through the updates that are in flight. -/
theorem runs_slice {mode : YieldMode}
    (hmost : settings.historySize ≤ ConvergenceDetector.maxHistory) (base : List (Activity Frame Ask)) (e : Engine) (hc : Coherent settings mode e)
    (batch : List QueueEntry) (calm : Calm answer (e.handing batch base)) :
    ∃ us e₁, Slice e us e₁ ∧ Runs (among answer) updates (e.handing batch base) us
      (after (level e.scheduler.yieldPoint base) (e₁.ofScheduler (e₁.scheduler.goOn true))) := by
  match hf : e.scheduler.inFlight with
  | [] => exact ⟨[], e, .done hf, runs_behind hf (.refl _)⟩
  | entry :: rest =>
    -- The next update is handed out; it uses up a pass, or is one less that waits
    have hhand : e.handing batch base = ⟨e.withFlight rest, .own (.process entry) ::
        .own (.queue (.batch true batch)) :: level e.scheduler.yieldPoint base,
        .returned default⟩ := by
      unfold handing handOut Scheduler.handOut
      rw [hf]
      rfl
    rw [hhand] at calm ⊢
    have hc₁ : Coherent settings mode (e.withFlight rest) := hc.congr rfl
    obtain ⟨e₁, hu, hr⟩ := runs_update hc₁ hmost calm
    have hback : Runs (among answer) updates ⟨e₁, .own (.queue (.batch true batch)) ::
        level e.scheduler.yieldPoint base, .returned default⟩ [] (e₁.handing batch base) := by
      refine runs_own rfl ?_
      unfold handing
      rw [hu.yieldPoint]
      exact .refl _
    have hr₁ := hr.trans hback
    have hmeasure := hu.measure hf
    obtain ⟨us, e₂, hslice, hr₂⟩ := runs_slice hmost base e₁ (hc₁.updated hu) batch (calm.runs hr₁)
    rw [hu.yieldPoint] at hr₂
    exact ⟨_, e₂, .update hf hu hslice, hr₁.trans hr₂⟩
termination_by (e.budget, e.load)
decreasing_by
  rcases hmeasure with hlt | ⟨heq, hlt⟩
  · exact Prod.Lex.left _ _ hlt
  · rw [heq]
    exact Prod.Lex.right _ hlt

/-- A drain runs through its updates to its end. -/
theorem runs_drain (hs : settings.InRange)
    (hmost : settings.historySize ≤ ConvergenceDetector.maxHistory)
    (base : List (Activity Frame Ask)) (e : Engine) (h : Underway settings e)
    (batch : List QueueEntry) (calm : Calm answer (e.handing batch base)) :
    ∃ us e' ns, Drains e us e' ∧ Underway settings e' ∧
      Runs (among answer) updates (e.handing batch base) us
        ⟨e'.finished ns, base, .returned default⟩ := by
  obtain ⟨us, e₁, hslice, hr⟩ := runs_slice hmost base e h.coherent batch calm
  have h₁ := hslice.underway h
  by_cases hq : e₁.scheduler.queue.entries = []
  · obtain ⟨ns, hr'⟩ := runs_finish base answer h₁.waiting hq
    rw [hslice.yieldPoint] at hr'
    have hd := hslice.drains (.done hq hslice.flight)
    rw [List.append_nil] at hd
    exact ⟨us, e₁, ns, hd, h₁, hr.trans_nil hr'⟩
  -- The next batch begins; as much waits as before, but some of it is in flight now
  · have hnext : Runs (among answer) updates
        (after (level e₁.scheduler.yieldPoint base) (e₁.ofScheduler (e₁.scheduler.goOn true))) []
        (e₁.looped.taken.handing (e₁.scheduler.takeBatch none).1 base) := runs_next h₁ hq (.refl _)
    rw [hslice.yieldPoint] at hnext
    have hr₁ := hr.trans_nil hnext
    have hload := h₁.load_taken hslice.flight
    have hflight := h₁.flight_taken hs hq
    obtain ⟨vs, e', ns, hd, h', hr₂⟩ :=
      runs_drain hs hmost base e₁.looped.taken h₁.looped.taken _ (calm.runs hr₁)
    exact ⟨us ++ vs, e', ns, hslice.drains (.batch hslice.flight hq hd), h', hr₁.trans hr₂⟩
termination_by (e.budget, e.load, if e.scheduler.inFlight = [] then 1 else 0)
decreasing_by
  have hbudget : e₁.looped.taken.budget = e₁.budget := rfl
  rw [hbudget, hload, if_neg hflight]
  by_cases hf : e.scheduler.inFlight = []
  · obtain rfl : e = e₁ := hslice.eq_of_flight hf
    rw [if_pos hf]
    exact Prod.Lex.right _ (Prod.Lex.right _ Nat.zero_lt_one)
  · rcases hslice.measure hf with hlt | ⟨heq, hlt⟩
    · exact Prod.Lex.left _ _ hlt
    · rw [heq]
      exact Prod.Lex.right _ (Prod.Lex.left _ _ hlt)

/-! ## What a drain comes to -/

theorem Drains.empty {us : List Update} (h : Drains e us e') :
    e'.scheduler.queue.entries = [] ∧ e'.scheduler.inFlight = [] := by
  induction h with
  | done queue flight => exact ⟨queue, flight⟩
  | update _ _ _ ih => exact ih
  | batch _ _ _ ih => exact ih

/-- No update begins behind the one that breaks the cycle off. -/
theorem Drains.running {us : List Update} (h : Drains e us e') (hu : Underway settings e) :
    ∀ u ∈ us, u.engine.halted = false := by
  induction h with
  | done => exact fun u hu => absurd hu List.not_mem_nil
  | update flight updated _ ih =>
    intro u hmem
    rcases List.mem_cons.mp hmem with rfl | hmem
    · exact hu.running flight
    · exact ih (hu.updated flight updated) u hmem
  | batch _ _ _ ih => exact ih hu.looped.taken

/-- A node is evaluated at most as often as it has passes left. -/
theorem Drains.count_evaluated {us : List Update} (h : Drains e us e') (id : String) :
    (us.filterMap Update.evaluated?).count id ≤ e.passesLeft id := by
  induction h with
  | done => exact Nat.zero_le _
  | @update e e₁ e₂ entry rest us flight updated _ ih =>
    rw [List.filterMap_cons]
    rcases updated.ends with ⟨hf, rfl⟩ | ⟨n, hf, rfl⟩ | ⟨n, hf⟩
    · rw [Update.evaluated?, hf]
      exact ih
    · rw [Update.evaluated?, hf]
      exact ih
    · rw [Update.evaluated?, hf]
      rw [passesLeft_updated updated hf] at ih
      dsimp only
      have hleft := (evaluates_of_fate hf).passesLeft
      rw [List.count_cons]
      by_cases hid : n.id = id
      · subst hid
        rw [if_pos (beq_self_eq_true _)]
        have hsame : (e.withFlight rest).passesLeft n.id = e.passesLeft n.id := rfl
        omega
      · rw [if_neg (by simpa using hid)]
        rw [passesLeft_counted _ _ (Ne.symm hid)] at ih
        exact ih
  | batch _ _ _ ih => exact ih

/-! ## Beginning a drain -/

/-- The engine when a drain has begun. -/
def begun (e : Engine) : Engine :=
  { e with phase := .evaluating, scheduler := { e.scheduler with draining := true } }

theorem underway_schedule_of_stalled (hc : Coherent settings .immediate e) (hs : e.Stalled)
    (hnodup : e.scheduler.queue.nodes.Nodup) (ids : List String) (priority : Priority)
    (source scope : Option String) :
    Underway settings (e.schedule ids priority source scope).begun := by
  obtain ⟨scope', passes, hqueued⟩ := queued_schedule e ids priority source scope
  obtain ⟨hscheduler, -, hhalted⟩ := scheduler_schedule e ids priority source scope
  refine ⟨(hc.schedule ids priority source scope).congr rfl, hqueued.nodup hnodup, rfl, ?_,
    fun hn => ?_⟩
  · show (e.schedule ids priority source scope).scheduler.yieldPoint.waiting = []
    rw [hscheduler]
    exact hs.waiting
  · rw [show (e.schedule ids priority source scope).halted = true from hn, hs.running] at hhalted
    cases hhalted

theorem Quiet.nodup (h : e.Quiet) : e.scheduler.queue.nodes.Nodup := by
  show (e.scheduler.queue.entries.map (·.node)).Nodup
  rw [h.queue]
  exact List.nodup_nil

theorem underway_schedule (hc : Coherent settings .immediate e) (hq : e.Quiet)
    (ids : List String) (priority : Priority) (source scope : Option String) :
    Underway settings (e.schedule ids priority source scope).begun :=
  underway_schedule_of_stalled hc hq.stalled hq.nodup ids priority source scope

/-- A drain that begins takes its first batch at once. -/
theorem runs_begin (hdraining : e.scheduler.draining = false)
    (hrunning : e.scheduler.yieldPoint.running = false) :
    Runs (among answer) updates (after base e.drain) []
      (e.begun.taken.handing (e.begun.scheduler.takeBatch none).1 base) := by
  have hdrain : e.drain = .call e.begun [.own (.queue (.begin true))] := by
    unfold drain Scheduler.drain
    simp only [hdraining, Bool.false_eq_true, if_false]
    rfl
  rw [hdrain]
  refine runs_own rfl ?_
  unfold handing level
  have hunlooped : e.begun.taken.scheduler.yieldPoint.running = false := hrunning
  rw [if_neg (by rw [hunlooped]; exact Bool.false_ne_true)]
  exact .refl _

/-- Where no drain is going on a whole cycle runs to its end, with the updates that waited. -/
theorem runs_cycle_of_stalled (hs : settings.InRange)
    (hmost : settings.historySize ≤ ConvergenceDetector.maxHistory)
    (hc : Coherent settings .immediate e) (hstalled : e.Stalled)
    (hnodup : e.scheduler.queue.nodes.Nodup) {ids : List String} {priority : Priority}
    {source scope : Option String}
    (calm : Calm answer (after base (e.schedule ids priority source scope).drain)) :
    ∃ us e' ns, Drains (e.schedule ids priority source scope).begun.taken us e' ∧
      Underway settings e' ∧
      Runs (among answer) updates (after base (e.schedule ids priority source scope).drain) us
        ⟨e'.finished ns, base, .returned default⟩ := by
  have hunderway := underway_schedule_of_stalled hc hstalled hnodup ids priority source scope
  obtain ⟨hscheduler, -, -⟩ := scheduler_schedule e ids priority source scope
  generalize e.schedule ids priority source scope = e₁ at *
  have hbegin : Runs (among answer) updates (after base e₁.drain) []
      (e₁.begun.taken.handing (e₁.begun.scheduler.takeBatch none).1 base) := by
    refine runs_begin ?_ ?_
    · rw [hscheduler]
      exact hstalled.drained
    · rw [hscheduler]
      exact hstalled.unlooped
  obtain ⟨us, e', ns, hd, hu, hr⟩ := runs_drain hs hmost base _ hunderway.taken _ (calm.runs hbegin)
  exact ⟨us, e', ns, hd, hu, hbegin.trans hr⟩

/-- From a quiet engine a whole cycle runs to its end. -/
theorem runs_cycle (hs : settings.InRange)
    (hmost : settings.historySize ≤ ConvergenceDetector.maxHistory)
    (hc : Coherent settings .immediate e) (hq : e.Quiet) {ids : List String} {priority : Priority}
    {source scope : Option String}
    (calm : Calm answer (after base (e.schedule ids priority source scope).drain)) :
    ∃ us e' ns, Drains (e.schedule ids priority source scope).begun.taken us e' ∧
      Underway settings e' ∧
      Runs (among answer) updates (after base (e.schedule ids priority source scope).drain) us
        ⟨e'.finished ns, base, .returned default⟩ :=
  runs_cycle_of_stalled hs hmost hc hq.stalled hq.nodup calm

theorem Drains.quiet {us : List Update} (h : Drains e us e') (hu : Underway settings e')
    (ns : List Notice) : (e'.finished ns).Quiet :=
  ⟨h.empty.1, h.empty.2, rfl, hu.waiting, rfl, rfl⟩

end LiveForm.Engine
