import LiveForm.Proofs.Schedule.Callbacks

/-!
# Drains at both kinds of yield point

An immediate yield point runs the batches of a drain one behind the other in a loop; a manual one
leaves each for later, until it is asked to run them all.  Both ask the same questions in the same
order and come to the same end.  When the callbacks leave the scheduler alone the updates are handed
out that were pending, in their order.
-/

namespace LiveForm.Scheduler

open Machine (after Runs)

variable {μ : Type} {cb : Callbacks μ} {s s' s₁ : Scheduler} {memory memory' memory₁ : μ}
  {reports : Bool} {asks : List Ask}

/-! ## An immediate yield point -/

/-- An immediate yield point at which nothing waits. -/
def looping (running : Bool) : YieldPoint Bool := { mode := .immediate, running }

/-- The frames of its loop. -/
def loops (running : Bool) : List (Work μ) := if running then [.own (.yielding .loop)] else []

/-- The loop runs the next batch. -/
theorem runs_again (cb : Callbacks μ) (hleft : s.queue.entries ≠ []) (running reports : Bool)
    (memory : μ) :
    Runs cb.machine asking
      (after (loops running) (among memory ((s.withYield (looping running)).goOn reports))) []
      ⟨(s.withYield (looping true), memory), .own (.begin reports) :: loops true,
        .returned default⟩ := by
  rw [goOn_of_left (s := s.withYield (looping running)) hleft]
  cases running with
  | false => exact runs_step rfl (.refl _)
  | true => exact runs_step rfl (.refl _)

/-- Behind the last batch the loop is over. -/
theorem runs_over (s : Scheduler) (running : Bool) (memory : μ) :
    Runs cb.machine asking ⟨(s.withYield (looping running), memory), loops running, .returned .done⟩
      [] ⟨(s.withYield (looping false), memory), [], .returned .done⟩ := by
  cases running with
  | false => exact .refl _
  | true => exact runs_step rfl (.refl _)

namespace Drains

/-- An immediate yield point lets a drain come to its end. -/
theorem runs (h : Drains cb reports s memory asks s' memory') (hd : s.draining = true)
    (running : Bool) (r : Reply Answer Empty) :
    Runs cb.machine asking
      ⟨(s.withYield (looping running), memory), .own (.begin reports) :: loops running, r⟩ asks
      ⟨(s'.withYield (looping false), memory'), [], .returned .done⟩ := by
  induction h generalizing running r with
  | @last s s₁ memory memory₁ asks slice empty =>
    have hbatch := (slice.withYield (looping running)).runs hd (loops running) r
    have hlast := runs_last cb (s := s₁.withYield (looping running)) empty memory₁ reports
      (loops running)
    exact hbatch.trans (hlast.trans_nil (runs_over { s₁ with draining := false } running _))
  | @more s s₁ s' memory memory₁ memory' asks asks' slice left drains ih =>
    have hbatch := (slice.withYield (looping running)).runs hd (loops running) r
    have hd₁ : s₁.draining = true := slice.kept.1.trans hd
    have hagain := runs_again cb left running reports memory₁
    exact hbatch.trans (hagain.trans (ih hd₁ true _))

end Drains

/-- What comes to its end at an immediate yield point is a drain. -/
theorem exists_drains (cb : Callbacks μ) {n : Nat} (hd : s.draining = true) (running : Bool)
    (r : Reply Answer Empty)
    (hend : (cb.machine.run n ⟨(s.withYield (looping running), memory),
      .own (.begin reports) :: loops running, r⟩).stack = []) :
    ∃ asks s' memory', Drains cb reports s memory asks s' memory' := by
  induction n using Nat.strongRecOn generalizing s memory running r with
  | ind n ih =>
    obtain ⟨asks, s₁, memory₁, slice⟩ := exists_slice cb reports s memory
    by_cases hempty : s₁.queue.entries = []
    · exact ⟨_, _, _, .last slice hempty⟩
    · have hbatch := (slice.withYield (looping running)).resumes hd (loops running)
      have hagain := hbatch.trans (runs_again cb hempty running reports memory₁)
      obtain _ | n := n
      · cases hend
      · rw [Machine.run_succ (List.cons_ne_nil _ _)] at hend
        obtain ⟨k, hk, hrest⟩ := hagain.remaining hend
        have hd₁ : s₁.draining = true := slice.kept.1.trans hd
        obtain ⟨asks', s', memory', drains⟩ := ih k (Nat.lt_succ_of_le hk) hd₁ true _ hrest
        exact ⟨_, s', memory', .more slice hempty drains⟩

/-! ## A manual yield point -/

/-- A manual yield point and what waits there. -/
def byHand (waiting : List Bool) : YieldPoint Bool := { mode := .manual, waiting }

/-- The next batch is left for later. -/
theorem runs_later (cb : Callbacks μ) (hleft : s.queue.entries ≠ []) (reports : Bool) (memory : μ)
    (below : List (Work μ)) :
    Runs cb.machine asking (after below (among memory ((s.withYield (byHand [])).goOn reports))) []
      ⟨(s.withYield (byHand [reports]), memory), below, .returned .done⟩ := by
  rw [goOn_of_left (s := s.withYield (byHand [])) hleft]
  exact .refl _

namespace Drains

/-- The batches are run one behind the other. -/
theorem runs_pump (h : Drains cb reports s memory asks s' memory') (hd : s.draining = true)
    (count : Nat) (r : Reply Answer Empty) :
    ∃ total, Runs cb.machine asking
      ⟨(s.withYield (byHand []), memory), [.own (.begin reports), .own (.yielding (.pump count))],
        r⟩ asks
      ⟨(s'.withYield (byHand []), memory'), [], .returned (.count total)⟩ := by
  induction h generalizing count r with
  | @last s s₁ memory memory₁ asks slice empty =>
    have hbatch := (slice.withYield (byHand [])).runs hd [.own (.yielding (.pump count))] r
    have hlast := runs_last cb (s := s₁.withYield (byHand [])) empty memory₁ reports
      [.own (.yielding (.pump count))]
    exact ⟨count, hbatch.trans (hlast.trans_nil (runs_step rfl (.refl _)))⟩
  | @more s s₁ s' memory memory₁ memory' asks asks' slice left drains ih =>
    have hbatch := (slice.withYield (byHand [])).runs hd [.own (.yielding (.pump count))] r
    have hlater := runs_later cb left reports memory₁ [.own (.yielding (.pump count))]
    obtain ⟨total, hrest⟩ := ih (slice.kept.1.trans hd) (count + 1) (.returned default)
    exact ⟨total, hbatch.trans (hlater.trans (runs_step rfl hrest))⟩

/-- The first batch is run at once, and the others when all that waits is run. -/
theorem runs_by_hand (h : Drains cb reports s memory asks s' memory') (hd : s.draining = true)
    (r : Reply Answer Empty) :
    ∃ first rest s₁ memory₁ total, first ++ rest = asks ∧
      Runs cb.machine asking ⟨(s.withYield (byHand []), memory), [.own (.begin reports)], r⟩ first
        ⟨(s₁, memory₁), [], .returned .done⟩ ∧
      Runs cb.machine asking (after [] (among memory₁ s₁.runAll)) rest
        ⟨(s'.withYield (byHand []), memory'), [], .returned (.count total)⟩ := by
  cases h with
  | @last _ s₁ _ memory₁ asks slice empty =>
    have hbatch := (slice.withYield (byHand [])).runs hd [] r
    have hlast := runs_last cb (s := s₁.withYield (byHand [])) empty memory₁ reports
      []
    exact ⟨_, [], _, _, 0, List.append_nil _, hbatch.trans hlast, runs_step rfl (.refl _)⟩
  | @more _ s₁ _ _ memory₁ _ asks asks' slice left drains =>
    have hbatch := (slice.withYield (byHand [])).runs hd [] r
    have hlater := runs_later cb left reports memory₁ []
    obtain ⟨total, hrest⟩ := drains.runs_pump (slice.kept.1.trans hd) 1 (.returned default)
    exact ⟨asks, asks', _, memory₁, total, rfl, hbatch.trans_nil hlater, runs_step rfl hrest⟩

end Drains

/-! ## Callbacks that leave the scheduler alone -/

/-- To process an update does nothing to the scheduler. -/
def Callbacks.Quiet (cb : Callbacks μ) : Prop :=
  ∀ e memory s, ((cb.process e memory).perform s).1 = s

/-- The update that is to be processed. -/
def handed? : Ask → Option QueueEntry
  | .process e => some e
  | _ => none

theorem filterMap_handed? (es taken : List QueueEntry) (reports : Bool) :
    (es.map Ask.process ++ closing reports taken).filterMap handed? = es := by
  have hclosing : (closing reports taken).filterMap handed? = [] := by
    unfold closing
    split
    · rfl
    · rfl
  rw [List.filterMap_append, hclosing, List.append_nil, List.filterMap_map]
  exact List.filterMap_some

theorem count_idle (es taken : List QueueEntry) (reports : Bool) :
    (es.map Ask.process ++ closing reports taken).count .idle = 0 := by
  refine List.count_eq_zero.mpr fun hmem => ?_
  unfold closing at hmem
  rcases List.mem_append.mp hmem with hmem | hmem
  · obtain ⟨e, -, he⟩ := List.mem_map.mp hmem
    cases he
  · split at hmem
    · cases List.mem_singleton.mp hmem
    · cases hmem

namespace Callbacks.Quiet

/-- The whole batch is handed out. -/
theorem hands (h : cb.Quiet) (s : Scheduler) (memory : μ) :
    ∃ memory', Hands cb s memory s.inFlight { s with inFlight := [] } memory' := by
  obtain ⟨queue, batchSize, inFlight, draining, yieldPoint⟩ := s
  induction inFlight generalizing memory with
  | nil => exact ⟨memory, .done rfl⟩
  | cons e rest ih =>
    obtain ⟨memory', hrest⟩ := ih _
    exact ⟨memory', .next rfl (Prod.ext (h e memory _) rfl) hrest⟩

/-- The drain comes to its end when all that was pending was handed out, in its order. -/
theorem drains (h : cb.Quiet) (hnodup : s.queue.entries.Nodup) (hsize : 0 < s.batchSize)
    (reports : Bool) (memory : μ) :
    ∃ asks s' memory', Drains cb reports s memory asks s' memory' ∧
      asks.filterMap handed? = s.queue.pending ∧ asks.count .idle = reports.toNat ∧
      (reports = true → asks.getLast? = some .idle) := by
  induction hn : s.queue.entries.length using Nat.strongRecOn generalizing s memory with
  | ind n ih =>
    obtain ⟨memory₁, hhands⟩ := h.hands s.started memory
    have hslice : Slice cb reports s memory _ { s.started with inFlight := [] } _ := .intro hhands
    have htaken : s.started.inFlight ++ s.started.queue.pending = s.queue.pending :=
      UpdateQueue.pending_take hnodup (s.batchSize : Int)
    by_cases hempty : s.started.queue.entries = []
    · -- Nothing is left behind the batch
      have hpending : s.started.queue.pending = [] := by
        rw [UpdateQueue.pending, hempty]
        rfl
      rw [hpending, List.append_nil] at htaken
      refine ⟨_, _, _, .last hslice hempty, ?_, ?_, ?_⟩
      · have hending : (ending reports).filterMap handed? = [] := by cases reports <;> rfl
        rw [List.filterMap_append, filterMap_handed?, hending, List.append_nil, htaken]
      · have hending : (ending reports).count .idle = reports.toNat := by cases reports <;> rfl
        rw [List.count_append, count_idle, hending, Nat.zero_add]
      · rintro rfl
        exact List.getLast?_concat
    · have hleft : s.queue.entries ≠ [] := fun hnil => hempty (takeBatch_of_empty hnil).1
      have hne : s.started.inFlight ≠ [] := UpdateQueue.take_ne_nil hsize hleft
      have hlength := congrArg List.length htaken
      rw [List.length_append, (UpdateQueue.pending_perm _).length_eq,
        (UpdateQueue.pending_perm _).length_eq] at hlength
      have hpos := List.length_pos_iff.mpr hne
      obtain ⟨asks, s', memory', hdrains, hhanded, hidle, hlast⟩ :=
        ih s.started.queue.entries.length (by omega) (s := { s.started with inFlight := [] })
          (hnodup.filter _) hsize _ rfl
      refine ⟨_, s', memory', .more hslice hempty hdrains, ?_, ?_, fun hreports => ?_⟩
      · rw [List.filterMap_append, filterMap_handed?, hhanded]
        exact htaken
      · rw [List.count_append, count_idle, hidle, Nat.zero_add]
      · rw [List.getLast?_append, hlast hreports]
        rfl

end Callbacks.Quiet

/-! ## Both kinds of yield point -/

/-- A drain begins at a yield point of some kind where nothing waits. -/
def beginning (mode : YieldMode) (s : Scheduler) (memory : μ) (reports : Bool) :
    Config (Scheduler × μ) (Work μ) Answer Empty :=
  after [] (among memory ((s.withYield { mode }).drain reports))

theorem drain_of_draining (hd : s.draining = true) (mode : YieldMode) (reports : Bool) :
    ((s.withYield { mode }).drain reports : Move Empty) = .ret (s.withYield { mode }) .done :=
  if_pos hd

theorem drain_of_not_draining (hd : ¬ s.draining = true) (mode : YieldMode) (reports : Bool) :
    ((s.withYield { mode }).drain reports : Move Empty) =
      .call { s.withYield { mode } with draining := true } [.own (.begin reports)] :=
  if_neg hd

/-- A drain that comes to its end at an immediate yield point does so in the same way by hand. -/
theorem runs_by_hand_of_runs {r : Reply Answer Empty}
    (h : Runs cb.machine asking (beginning .immediate s memory reports) asks
      ⟨(s', memory'), [], r⟩) :
    ∃ first rest s₁ memory₁ r₁ r₂, first ++ rest = asks ∧
      Runs cb.machine asking (beginning .manual s memory reports) first ⟨(s₁, memory₁), [], r₁⟩ ∧
      Runs cb.machine asking (after [] (among memory₁ s₁.runAll)) rest
        ⟨(s'.withYield { mode := .manual }, memory'), [], r₂⟩ ∧
      s'.yieldPoint = { mode := .immediate } := by
  unfold beginning at h ⊢
  by_cases hd : s.draining = true
  · -- A drain is going on already, and this one does nothing
    rw [drain_of_draining hd] at h ⊢
    obtain ⟨rfl, hc⟩ := h.unique (.refl _) rfl rfl
    cases hc
    exact ⟨[], [], s.withYield { mode := .manual }, memory, .returned .done, .returned (.count 0),
      rfl, .refl _, runs_step rfl (.refl _), rfl⟩
  · rw [drain_of_not_draining hd] at h ⊢
    obtain ⟨n, hn, -⟩ := id h
    obtain ⟨asks', s'', memory'', drains⟩ := exists_drains cb (n := n)
      (s := { s with draining := true }) rfl false _ (congrArg Config.stack hn)
    obtain ⟨rfl, hc⟩ := h.unique (drains.runs rfl false _) rfl rfl
    cases hc
    obtain ⟨first, rest, s₁, memory₁, total, hasks, hfirst, hrest⟩ :=
      drains.runs_by_hand rfl (.returned default)
    exact ⟨first, rest, s₁, memory₁, .returned .done, .returned (.count total), hasks, hfirst,
      hrest, rfl⟩

/-- The kind of yield point does not matter: when a drain comes to its end at an immediate one, the
same drain at a manual one that is then asked to run all that waits asks the same, and leaves the
scheduler and the callbacks as they are then.  Among callbacks that leave the scheduler alone it
comes to its end, hands out what was pending, in that order and each update once, and says once that
nothing waits any more, at the end. -/
theorem drain_at_any_yieldPoint (cb : Callbacks μ) (s : Scheduler) (memory : μ) (reports : Bool) :
    (∀ asks s' memory' r,
      Runs cb.machine asking (beginning .immediate s memory reports) asks ⟨(s', memory'), [], r⟩ →
      ∃ first rest s₁ memory₁ r₁ r₂, first ++ rest = asks ∧
        Runs cb.machine asking (beginning .manual s memory reports) first
          ⟨(s₁, memory₁), [], r₁⟩ ∧
        Runs cb.machine asking (after [] (among memory₁ s₁.runAll)) rest
          ⟨(s'.withYield { mode := .manual }, memory'), [], r₂⟩ ∧
        s'.yieldPoint = { mode := .immediate }) ∧
    (cb.Quiet → s.draining = false → s.queue.entries.Nodup → 0 < s.batchSize →
      ∃ asks s' memory' r,
        Runs cb.machine asking (beginning .immediate s memory reports) asks
          ⟨(s', memory'), [], r⟩ ∧
        asks.filterMap handed? = s.queue.pending ∧ s.queue.pending.Nodup ∧
        asks.count .idle = reports.toNat ∧ (reports = true → asks.getLast? = some .idle)) := by
  refine ⟨fun asks s' memory' r => runs_by_hand_of_runs, fun hquiet hd hnodup hsize => ?_⟩
  obtain ⟨asks, s', memory', drains, hhanded, hidle, hlast⟩ :=
    hquiet.drains (s := { s with draining := true }) hnodup hsize reports memory
  refine ⟨asks, s'.withYield { mode := .immediate }, memory', .returned .done, ?_, hhanded,
    (UpdateQueue.pending_perm s.queue).nodup_iff.mpr hnodup, hidle, hlast⟩
  rw [beginning, drain_of_not_draining (by simp [hd])]
  exact drains.runs rfl false (.returned default)

/-- Callbacks the first of which lets another node wait, looks at what it has done, and drains. -/
def busyCallbacks : Callbacks Nat where
  process _ n :=
    if n = 0 then
      .enqueue 0 "c" .high none fun _ => .look fun v => .drain true (.done v.1.nextSequence)
    else .done n
  batchDone _ _ n := n + 1
  idle _ n := n

/-- Callbacks that count the updates. -/
def countingCallbacks : Callbacks Nat where
  process _ n := .done (n + 1)
  batchDone _ _ n := n
  idle _ n := n

/-- A scheduler with two updates that takes one at a time. -/
def crowded : Scheduler :=
  (((create 1 10 .immediate).enqueue 0 "a" .low none).1.enqueue 0 "b" .low none).1

/-- The node that came last is handed out before those that wait, in a batch that is run later. -/
theorem drain_at_any_yieldPoint_crowded :
    (∃ first rest s₁ s₂ memory₁ memory₂ r₁ r₂,
      Runs busyCallbacks.machine asking (beginning .manual crowded 0 true) first
        ⟨(s₁, memory₁), [], r₁⟩ ∧
      Runs busyCallbacks.machine asking (after [] (among memory₁ s₁.runAll)) rest
        ⟨(s₂, memory₂), [], r₂⟩ ∧
      ((first ++ rest).filterMap handed?).map (·.node) = ["a", "c", "b"]) ∧
    ∃ asks s' memory' r,
      Runs countingCallbacks.machine asking (beginning .immediate crowded 0 true) asks
        ⟨(s', memory'), [], r⟩ ∧
      (asks.filterMap handed?).map (·.node) = ["a", "b"] ∧ asks.getLast? = some .idle := by
  have hruns : Runs busyCallbacks.machine asking (beginning .immediate crowded 0 true) _ _ :=
    Runs.ended (n := 40) (r := .returned .done) (by decide +kernel) (by decide +kernel)
  generalize (busyCallbacks.machine.run 40 (beginning .immediate crowded 0 true)).state = p at hruns
  obtain ⟨s', memory'⟩ := p
  obtain ⟨first, rest, s₁, memory₁, r₁, r₂, hasks, hfirst, hrest, -⟩ :=
    (drain_at_any_yieldPoint busyCallbacks crowded 0 true).1 _ _ _ _ hruns
  obtain ⟨asks, s', memory', r, hcounts, hhanded, -, -, hidle⟩ :=
    (drain_at_any_yieldPoint countingCallbacks crowded 0 true).2 (fun _ _ _ => rfl)
      (by decide +kernel) (by decide +kernel) (by decide +kernel)
  refine ⟨⟨first, rest, s₁, _, memory₁, _, r₁, r₂, hfirst, hrest, ?_⟩, asks, s', memory', r,
    hcounts, ?_, hidle rfl⟩
  · rw [hasks]
    decide +kernel
  · rw [hhanded]
    decide +kernel

end LiveForm.Scheduler
