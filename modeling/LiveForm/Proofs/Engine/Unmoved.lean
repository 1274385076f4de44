import LiveForm.Proofs.Engine.Cycles
import LiveForm.Proofs.Engine.Reading
import Mathlib.Algebra.GroupWithZero.Nat

/-!
# Drains that change nothing

Where every output repeats the value that it has, or where no value can be remembered, a drain
changes nothing: no value is stored, nothing is written, and nobody is told anything.  Each update
is then one less that waits, so that the drain also ends, whatever becomes of it.
-/

namespace LiveForm.Engine

open Machine (after state_after stack_after Runs Visits)

variable {settings : Settings} {mode : YieldMode} {e e' e₀ : Engine}
  {below : List (Activity Frame Ask)} {answer : Engine → Ask → Reply Response EngineError}

/-! ## What an update finds and leaves -/

/-- What an update may change or depends on. -/
def estate (e : Engine) :=
  (e.settings, e.tree, e.registry, e.bindings, e.rows, e.lastEdit, e.debouncer, e.changed, e.links)

/-- No update would accept a value: none can be remembered, or each output that is not skipped has
the value that is computed for it. -/
def Unmoved (e : Engine) : Prop :=
  e.detector.canRemember = false ∨ ∀ n ∈ e.registry.nodes, e.shouldSkip n = false →
    n.evaluated = true ∧ ∃ v, e.computed n = .ok v ∧
      e.detector.tolerances.converged v n.lastValue = true

theorem holdings_of_estate (h : e'.estate = e.estate) : e'.holdings = e.holdings := by
  simp only [estate, Prod.mk.injEq] at h
  obtain ⟨hsettings, htree, hregistry, hbindings, hrows, -, -, -, hlinks⟩ := h
  simp only [holdings, hsettings, htree, hregistry, hbindings, hrows, hlinks]

theorem Unmoved.congr (h : e.Unmoved) (hc : Sound settings mode e)
    (hc' : Sound settings mode e') (hs : e'.estate = e.estate) : e'.Unmoved := by
  have hresolve := resolve_of_holdings (holdings_of_estate hs)
  simp only [estate, Prod.mk.injEq] at hs
  obtain ⟨hsettings, htree, hregistry, -, hrows, hedit, hdebouncer, -⟩ := hs
  refine h.imp (fun hfull => ?_) fun hall n hn hskip => ?_
  · rw [ConvergenceDetector.canRemember, hc'.historySize, ← hc.historySize]
    exact hfull
  · rw [hregistry] at hn
    have hskip' : e.shouldSkip n = false := by
      unfold shouldSkip now at hskip ⊢
      rwa [htree, hedit, hdebouncer, hsettings] at hskip
    obtain ⟨hevaluated, v, hv, hconverged⟩ := hall n hn hskip'
    refine ⟨hevaluated, v, ?_, ?_⟩
    · rw [computed_congr hc hc' (hc.nodes n hn) hrows fun name _ => congrFun hresolve name]
      exact hv
    · rw [hc'.tolerances, ← hc.tolerances]
      exact hconverged

theorem estate_judged {n : OutputNode} (h : e.Judged n e') :
    e'.estate = e.estate ∧ e'.scheduler = e.scheduler :=
  ⟨h.unseen estate fun _ _ _ => rfl, h.unseen scheduler fun _ _ _ => rfl⟩

/-! ## How much is left to do -/

/-- What the work that waits counts for; each update that waits pays for the frames that handle it,
and for a batch of its own. -/
def Scheduler.burden (s : Scheduler) : Nat :=
  11 * s.queue.entries.length + 3 * s.inFlight.length + 3 * s.yieldPoint.waiting.length

/-- What a frame counts for. -/
def weight : Activity Frame Ask → Nat
  | .own (.queue (.begin _)) => 2
  | .own (.queue (.batch _ _)) => 7
  | .own (.queue (.next _)) => 5
  | .own (.process _) => 2
  | _ => 1

def remaining (c : Running) : Nat :=
  Scheduler.burden c.state.scheduler + (c.stack.map weight).sum

/-- A frame of a drain that asks nothing and passes nothing on. -/
def isMute : Activity Frame Ask → Bool
  | .own (.queue _) | .own (.process _) | .own .batchDone | .own .complete => true
  | _ => false

/-- A move that lessens what is left to do and puts only mute frames in the place of one of this
weight. -/
structure Lighter (s : Scheduler) (w : Nat) (m : Move) : Prop where
  mute : ∀ f ∈ m.frames, isMute f = true
  lt : Scheduler.burden m.state.scheduler + (m.frames.map weight).sum < Scheduler.burden s + w

/-- What a frame of a yield point counts for. -/
def yieldWeight : Activity YieldPoint.Frame Bool → Nat
  | .own _ => 1
  | .ask _ => 2

theorem lighter_ofYield {m : YieldPoint.Move Bool EngineError} {w : Nat}
    (h : 3 * m.state.waiting.length + (m.frames.map yieldWeight).sum <
      3 * e.scheduler.yieldPoint.waiting.length + w) :
    Lighter e.scheduler w (e.ofScheduler (e.scheduler.ofYield m)) := by
  unfold ofScheduler Scheduler.ofYield
  refine ⟨fun f hf => ?_, ?_⟩
  · rw [Move.frames_embed, Move.frames_embed, List.map_map] at hf
    obtain ⟨g, -, rfl⟩ := List.mem_map.mp hf
    cases g <;> rfl
  · rw [Move.frames_embed, Move.frames_embed, List.map_map, List.map_map, Move.state_embed,
      Move.state_embed, List.map_congr_left (g := yieldWeight) fun g _ => by cases g <;> rfl]
    simp only [Scheduler.burden]
    omega

theorem lighter_goOn_of_empty (hq : e.scheduler.queue.entries = []) (reports : Bool) :
    Lighter e.scheduler 2 (e.ofScheduler (e.scheduler.goOn reports)) := by
  unfold Scheduler.goOn
  rw [if_pos (by rw [hq]; rfl)]
  cases reports with
  | true => exact ⟨fun f hf => by rw [List.mem_singleton.mp hf]; rfl, Nat.lt_succ_self _⟩
  | false => exact ⟨fun f hf => absurd hf List.not_mem_nil, Nat.lt_add_of_pos_right (by decide)⟩

theorem lighter_goOn (reports : Bool) :
    Lighter e.scheduler 5 (e.ofScheduler (e.scheduler.goOn reports)) := by
  by_cases hq : e.scheduler.queue.entries = []
  · obtain ⟨hmute, hlt⟩ := lighter_goOn_of_empty hq reports
    exact ⟨hmute, by omega⟩
  · unfold Scheduler.goOn
    rw [if_neg (by simpa using hq)]
    refine lighter_ofYield ?_
    have hlength : (e.scheduler.yieldPoint.waiting ++ [reports]).length = _ := List.length_append
    rw [List.length_singleton] at hlength
    -- A continuation more waits, and perhaps a loop begins
    unfold YieldPoint.defer
    dsimp only
    split
    · show 3 * (e.scheduler.yieldPoint.waiting ++ [reports]).length + 0 < _
      omega
    · split
      · show 3 * (e.scheduler.yieldPoint.waiting ++ [reports]).length + 0 < _
        omega
      · show 3 * (e.scheduler.yieldPoint.waiting ++ [reports]).length + (1 + 0) < _
        omega

theorem lighter_handOut (reports : Bool) (taken : List QueueEntry) :
    Lighter e.scheduler 7 (e.ofScheduler (e.scheduler.handOut reports taken)) := by
  unfold Scheduler.handOut
  split
  · next entry rest hf =>
    refine ⟨fun f hmem => ?_, ?_⟩
    · rcases List.mem_cons.mp hmem with rfl | hmem
      · rfl
      · rw [List.mem_singleton.mp hmem]
        rfl
    · show 11 * e.scheduler.queue.entries.length + 3 * rest.length +
        3 * e.scheduler.yieldPoint.waiting.length + (2 + (7 + 0)) < _
      simp only [Scheduler.burden, hf, List.length_cons]
      omega
  · split
    · refine ⟨fun f hmem => ?_, ?_⟩
      · rcases List.mem_cons.mp hmem with rfl | hmem
        · rfl
        · rw [List.mem_singleton.mp hmem]
          rfl
      · show Scheduler.burden e.scheduler + (1 + (5 + 0)) < _
        omega
    · obtain ⟨hmute, hlt⟩ := lighter_goOn (e := e) reports
      exact ⟨hmute, by omega⟩

/-- A batch that is taken pays for itself. -/
theorem lighter_begin (hbatch : 0 < e.scheduler.batchSize)
    (hnodup : e.scheduler.queue.nodes.Nodup) (reports : Bool) :
    Lighter e.scheduler 2 (e.ofScheduler (e.scheduler.resume (.begin reports))) := by
  have hresume : e.ofScheduler (e.scheduler.resume (.begin reports)) =
      e.taken.ofScheduler (e.taken.scheduler.handOut reports (e.scheduler.takeBatch none).1) := rfl
  rw [hresume]
  by_cases hq : e.scheduler.queue.entries = []
  · obtain ⟨hqueue, hnone⟩ := Scheduler.takeBatch_of_empty hq
    have hhand : (e.taken.scheduler.handOut reports (e.scheduler.takeBatch none).1 :
        Scheduler.Move EngineError) = e.taken.scheduler.goOn reports := by
      unfold Scheduler.handOut
      rw [show e.taken.scheduler.inFlight = [] from hnone, hnone]
      cases reports <;> rfl
    have hburden : Scheduler.burden e.taken.scheduler ≤ Scheduler.burden e.scheduler := by
      show 11 * (e.scheduler.takeBatch none).2.queue.entries.length +
        3 * (e.scheduler.takeBatch none).1.length +
        3 * e.scheduler.yieldPoint.waiting.length ≤ _
      rw [hqueue, hnone, Scheduler.burden, List.length_nil]
      omega
    obtain ⟨hmute, hlt⟩ := lighter_goOn_of_empty (e := e.taken) hqueue reports
    rw [hhand]
    exact ⟨hmute, by omega⟩
  · have hperm := (UpdateQueue.take_perm hnodup e.scheduler.batchSize).length_eq
    have htaken := List.length_pos_iff.mpr (UpdateQueue.take_ne_nil hbatch hq)
    rw [List.length_append] at hperm
    have hburden : Scheduler.burden e.taken.scheduler + 5 ≤ Scheduler.burden e.scheduler := by
      show 11 * (e.scheduler.queue.take e.scheduler.batchSize).2.entries.length +
        3 * (e.scheduler.queue.take e.scheduler.batchSize).1.length +
        3 * e.scheduler.yieldPoint.waiting.length + 5 ≤ _
      rw [Scheduler.burden, ← hperm]
      omega
    obtain ⟨hmute, hlt⟩ := lighter_handOut (e := e.taken) reports (e.scheduler.takeBatch none).1
    exact ⟨hmute, by omega⟩

theorem lighter_yielding (f : YieldPoint.Frame) :
    Lighter e.scheduler 1 (e.ofScheduler (e.scheduler.resume (.yielding f))) := by
  refine lighter_ofYield ?_
  have hthen : ∀ (f : YieldPoint.Frame) (y : YieldPoint Bool) (a : Answer),
      y.waiting = e.scheduler.yieldPoint.waiting →
      3 * (e.scheduler.yieldPoint.runNextThen f (.ret y a :
          YieldPoint.Move Bool EngineError)).state.waiting.length +
        ((e.scheduler.yieldPoint.runNextThen f (.ret y a :
          YieldPoint.Move Bool EngineError)).frames.map yieldWeight).sum <
        3 * e.scheduler.yieldPoint.waiting.length + 1 := by
    intro f y a hy
    unfold YieldPoint.runNextThen
    split
    · show 3 * y.waiting.length + 0 < _
      rw [hy]
      exact Nat.lt_succ_self _
    · next k rest hw =>
      show 3 * rest.length + (2 + (1 + 0)) < _
      rw [hw, List.length_cons]
      omega
  cases f with
  | loop => exact hthen .loop { e.scheduler.yieldPoint with running := false } .done rfl
  | ran => exact Nat.lt_succ_self _
  | pump n => exact hthen (.pump (n + 1)) e.scheduler.yieldPoint (.count n) rfl

/-! ## Running through a drain -/

/-- The engine has this estate, in which nothing counts as changed, and what is on the stack is
mute. -/
structure Mute (settings : Settings) (mode : YieldMode) (e₀ : Engine) (c : Running) : Prop where
  sound : Sound settings mode c.state
  nodup : c.state.scheduler.queue.nodes.Nodup
  estate : c.state.estate = e₀.estate
  frames : ∀ f ∈ c.stack, isMute f = true

/-- What an update does where no value is accepted. -/
theorem process_unmoved (hu : e.Unmoved) (entry : QueueEntry) :
    ∃ e' r, e.process entry = .reply e' r ∧ e'.estate = e.estate ∧
      (e'.scheduler = e.scheduler ∨ e'.scheduler = e.scheduler.clear) := by
  rw [process_eq]
  cases hf : e.fate entry with
  | passedOver => exact ⟨e, _, rfl, rfl, Or.inl rfl⟩
  | brokenOff n => exact ⟨e.brokenOff n, _, rfl, rfl, Or.inr rfl⟩
  | evaluated n =>
    dsimp only
    have hjudged : ∀ {e'}, (e.counted n).Judged n e' →
        e'.estate = e.estate ∧ e'.scheduler = e.scheduler := estate_judged
    have hm := (e.counted n).evaluated_evaluateNode n entry
    generalize (e.counted n).evaluateNode n entry = m at hm
    cases hm with
    | failed err e' value judged =>
      exact ⟨e', _, rfl, (hjudged judged).1, Or.inl (hjudged judged).2⟩
    | tooLong v e' value full judged =>
      exact ⟨e', _, rfl, (hjudged judged).1, Or.inl (hjudged judged).2⟩
    | keptOut v e' value room out judged =>
      exact ⟨e', _, rfl, (hjudged judged).1, Or.inl (hjudged judged).2⟩
    | accepted v e' value room new judged =>
      -- The value would be one that the node does not have
      exfalso
      have hdetector : (e.counted n).detector.historySize = e.detector.historySize ∧
          (e.counted n).detector.tolerances = e.detector.tolerances := by
        unfold counted
        split
        · exact ⟨rfl, rfl⟩
        · exact ⟨rfl, rfl⟩
      rcases hu with hfull | hall
      · rw [ConvergenceDetector.canRemember, hdetector.1] at room
        rw [ConvergenceDetector.canRemember, room] at hfull
        cases hfull
      · obtain ⟨hmem, -⟩ := Registry.mem_of_find? (evaluates_of_fate hf).found
        obtain ⟨hevaluated, w, hw, hconverged⟩ := hall n hmem (evaluates_of_fate hf).free
        have hsame : (e.counted n).computed n = e.computed n := rfl
        rw [hsame, hw] at value
        cases value
        rw [accepts, hdetector.2, hconverged, hevaluated, Bool.and_self, Bool.not_true,
          Bool.and_false] at new
        cases new

theorem burden_clear_le (s : Scheduler) : Scheduler.burden s.clear ≤ Scheduler.burden s := by
  show 11 * 0 + 3 * 0 + 3 * s.yieldPoint.waiting.length ≤ Scheduler.burden s
  rw [Scheduler.burden]
  omega

namespace Mute

variable {c c' : Running}

/-- A mute frame is replaced by mute frames. -/
theorem after {e : Engine} {f : Activity Frame Ask} {r : Reply Response EngineError} {m : Move}
    (h : Mute settings mode e₀ ⟨e, f :: below, r⟩) (hc : Sound settings mode m.state)
    (hnodup : m.state.scheduler.queue.nodes.Nodup) (hestate : m.state.estate = e.estate) {w : Nat}
    (hm : Lighter e.scheduler w m) (hw : w ≤ weight f) :
    Mute settings mode e₀ (Machine.after below m) ∧
      remaining (Machine.after below m) < remaining ⟨e, f :: below, r⟩ := by
  refine ⟨⟨state_after below m ▸ hc, state_after below m ▸ hnodup, ?_, fun g hg => ?_⟩, ?_⟩
  · rw [state_after]
    exact hestate.trans h.estate
  · rw [stack_after] at hg
    rcases List.mem_append.mp hg with hg | hg
    · exact hm.mute g hg
    · exact h.frames g (List.mem_cons_of_mem _ hg)
  · have hlt := hm.lt
    rw [remaining, remaining, state_after, stack_after, List.map_append, List.sum_append,
      List.map_cons, List.sum_cons]
    dsimp only
    omega

/-- A frame that is done. -/
theorem done {e e' : Engine} {f : Activity Frame Ask} {r r' : Reply Response EngineError}
    (h : Mute settings mode e₀ ⟨e, f :: below, r⟩) (hc : Sound settings mode e')
    (hnodup : e'.scheduler.queue.nodes.Nodup) (hestate : e'.estate = e.estate)
    (hle : Scheduler.burden e'.scheduler ≤ Scheduler.burden e.scheduler) :
    Mute settings mode e₀ ⟨e', below, r'⟩ ∧
      remaining ⟨e', below, r'⟩ < remaining ⟨e, f :: below, r⟩ := by
  refine h.after (m := .reply e' r') hc hnodup hestate (w := 1)
    ⟨fun g hg => absurd hg List.not_mem_nil, Nat.lt_succ_of_le hle⟩ ?_
  unfold weight
  split <;> decide

theorem resume {e : Engine} {f : Frame} {r : Response}
    (h : Mute settings mode e₀ ⟨e, .own f :: below, .returned r⟩) (hs : settings.InRange)
    (hu : e.Unmoved) (hchanged : e.changed = []) :
    Mute settings mode e₀ (Machine.after below (e.resume f)) ∧
      remaining (Machine.after below (e.resume f)) <
        remaining ⟨e, .own f :: below, .returned r⟩ := by
  have hc := h.sound
  have hframe := h.frames _ List.mem_cons_self
  have hresume := hc.resume f
  cases f with
  | queue f =>
    have hestate : (e.resume (.queue f)).state.estate = e.estate := by
      show (e.ofScheduler _).state.estate = _
      rw [ofScheduler, Move.state_embed]
      rfl
    have hnodup : (e.resume (.queue f)).state.scheduler.queue.nodes.Nodup := by
      show (e.ofScheduler _).state.scheduler.queue.nodes.Nodup
      rw [ofScheduler, Move.state_embed]
      exact e.scheduler.nodup_resume f h.nodup
    cases f with
    | begin reports =>
      have hbatch : 0 < e.scheduler.batchSize := by
        rw [hc.batchSize]
        exact Int.lt_toNat.mpr (hs.counts .batchSize (by decide))
      exact h.after hresume hnodup hestate (lighter_begin hbatch h.nodup reports) le_rfl
    | batch reports taken =>
      exact h.after hresume hnodup hestate (lighter_handOut reports taken) le_rfl
    | next reports => exact h.after hresume hnodup hestate (lighter_goOn reports) le_rfl
    | yielding f => exact h.after hresume hnodup hestate (lighter_yielding f) le_rfl
  | process entry =>
    obtain ⟨e', r', heq, hestate, hscheduler⟩ := process_unmoved hu entry
    have heq' : e.resume (.process entry) = .reply e' r' := heq
    rw [heq'] at hresume ⊢
    refine h.done hresume ?_ hestate ?_
    · rcases hscheduler with hsame | hclear
      · rw [hsame]
        exact h.nodup
      · rw [hclear]
        exact List.nodup_nil
    · rcases hscheduler with hsame | hclear
      · rw [hsame]
      · rw [hclear]
        exact burden_clear_le e.scheduler
  | batchDone => exact h.done hresume h.nodup rfl le_rfl
  | complete =>
    -- There is nothing to tell the listeners
    have heq : e.resume .complete = finish { e with
        changed := []
        passes := []
        scope := none
        halted := false
        phase := if e.rests then .queued else .idle } := by
      show e.complete = _
      unfold complete
      rw [hchanged]
      rfl
    rw [heq] at hresume ⊢
    refine h.done hresume h.nodup ?_ le_rfl
    simp only [Engine.estate, hchanged]
  | clock f | handle t | watchers id old new rest | propagate entry | listeners changed rest =>
    cases hframe

theorem recover {e : Engine} {f : Frame} {err : EngineError}
    (h : Mute settings mode e₀ ⟨e, .own f :: below, .raised err⟩) :
    Mute settings mode e₀ (Machine.after below (e.recover f err)) ∧
      remaining (Machine.after below (e.recover f err)) <
        remaining ⟨e, .own f :: below, .raised err⟩ := by
  have hframe := h.frames _ List.mem_cons_self
  have hrecover := h.sound.congr (core_recover e f err)
  cases f with
  | queue f =>
    refine h.done hrecover ?_ rfl ?_
    · cases f <;> exact h.nodup
    · cases f with
      | batch reports taken =>
        show 11 * e.scheduler.queue.entries.length + 3 * 0 +
          3 * e.scheduler.yieldPoint.waiting.length ≤ _
        rw [Scheduler.burden]
        omega
      | yielding f => cases f <;> exact le_rfl
      | begin _ | next _ => exact le_rfl
  | process entry | batchDone | complete => exact h.done hrecover h.nodup rfl le_rfl
  | clock f | handle t | watchers id old new rest | propagate entry | listeners changed rest =>
    cases hframe

/-- The engine takes a step, and there is less left to do. -/
theorem step (h : Mute settings mode e₀ c)
    (answer : Engine → Ask → Reply Response EngineError) (hs : settings.InRange)
    (hc : Sound settings mode e₀) (hu : e₀.Unmoved) (hchanged : e₀.changed = [])
    (hstack : c.stack ≠ []) :
    Mute settings mode e₀ ((among answer).step c) ∧
      remaining ((among answer).step c) < remaining c := by
  obtain ⟨e, stack, r⟩ := c
  have hu' : e.Unmoved := hu.congr hc h.sound h.estate
  have hchanged' : e.changed = [] := by
    have hestate := h.estate
    simp only [Engine.estate, Prod.mk.injEq] at hestate
    rw [hestate.2.2.2.2.2.2.2.1, hchanged]
  match stack, r with
  | [], _ => exact absurd rfl hstack
  | .own f :: below, .returned r => exact h.resume hs hu' hchanged'
  | .own f :: below, .raised err => exact h.recover
  | .ask k :: below, _ => cases h.frames _ List.mem_cons_self

/-- Whatever the run comes to, nothing has changed. -/
theorem visits (h : Mute settings mode e₀ c) (hs : settings.InRange)
    (hc : Sound settings mode e₀) (hu : e₀.Unmoved) (hchanged : e₀.changed = [])
    (hv : Visits (among answer) c c') : Mute settings mode e₀ c' := by
  obtain ⟨n, rfl⟩ := hv
  exact Machine.run_keeps (fun hm hstack => (hm.step answer hs hc hu hchanged hstack).1) h n

/-- The run comes to an end. -/
theorem ends (h : Mute settings mode e₀ c)
    (answer : Engine → Ask → Reply Response EngineError) (hs : settings.InRange)
    (hc : Sound settings mode e₀) (hu : e₀.Unmoved) (hchanged : e₀.changed = []) :
    ∃ us e r, Runs (among answer) updates c us ⟨e, [], r⟩ := by
  induction hn : remaining c using Nat.strong_induction_on generalizing c with
  | _ n ih =>
    by_cases hstack : c.stack = []
    · obtain ⟨e, stack, r⟩ := c
      cases hstack
      exact ⟨[], e, r, .refl _⟩
    · obtain ⟨hnext, hlt⟩ := h.step answer hs hc hu hchanged hstack
      obtain ⟨us, e, r, hr⟩ := ih _ (hn ▸ hlt) hnext rfl
      exact ⟨_, e, r, (Machine.Runs.step hstack).trans hr⟩

end Mute

/-- While nothing is accepted the drain of a recompute leaves the estate as it was read. -/
theorem mute_recompute (hc : Sound settings mode e) (hnodup : e.scheduler.queue.nodes.Nodup)
    (scope : Option String) : Mute settings mode e.rescan.1 (after [] (e.recompute scope)) := by
  have hnodup₁ : e.rescan.1.scheduler.queue.nodes.Nodup := by
    rw [scheduler_rescan]
    exact hnodup
  have hrecompute := hc.recompute scope
  rcases recompute_cases e scope with ⟨err, heq⟩ | ⟨ids, heq⟩
  · rw [heq]
    exact ⟨hc.rescan, hnodup₁, rfl, fun f hf => absurd hf List.not_mem_nil⟩
  · rw [heq] at hrecompute ⊢
    obtain ⟨scope', passes, hqueued⟩ := queued_schedule e.rescan.1 ids .normal none scope
    obtain ⟨⟨queue, ns, heq⟩, -, hkeeps⟩ := hqueued
    have hnodup' := hkeeps hnodup₁
    rw [heq] at hrecompute hnodup' ⊢
    unfold drain Scheduler.drain at hrecompute ⊢
    by_cases hd : e.rescan.1.scheduler.draining = true
    · simp only [hd, if_true] at hrecompute ⊢
      exact ⟨hrecompute, hnodup', rfl, fun f hf => absurd hf List.not_mem_nil⟩
    · simp only [hd, Bool.false_eq_true, if_false] at hrecompute ⊢
      exact ⟨hrecompute, hnodup', rfl, fun f hf => by rw [List.mem_singleton.mp hf]; rfl⟩

/-! ## Where no value can be remembered -/

theorem changed_ofScheduler (e : Engine) (m : Scheduler.Move EngineError) :
    (e.ofScheduler m).state.changed = e.changed := by
  rw [ofScheduler, Move.state_embed]

theorem changed_ofDebouncer (e : Engine) (m : Debouncer.Move Trigger Trigger EngineError) :
    (e.ofDebouncer m).state.changed = e.changed := by
  rw [ofDebouncer, Move.state_embed]

theorem changed_schedule_drain (e : Engine) (ids : List String) (priority : Priority)
    (source scope : Option String) :
    (e.schedule ids priority source scope).drain.state.changed = e.changed := by
  obtain ⟨scope', passes, ⟨queue, ns, heq⟩, -, -⟩ := queued_schedule e ids priority source scope
  unfold drain
  dsimp only
  rw [changed_ofScheduler]
  split
  · rw [heq]
  · rw [heq]

theorem changed_handle (e : Engine) (t : Trigger) : (e.handle t).state.changed = e.changed := by
  rcases handle_cases e t with heq | ⟨e₁, ids, priority, source, rfl | rfl, heq⟩
  · rw [heq]
    exact changed_rescan e
  · rw [heq]
    exact changed_schedule_drain _ _ _ _ _
  · rw [heq]
    exact (changed_schedule_drain _ _ _ _ _).trans (changed_rescan e)

theorem changed_recompute (e : Engine) (scope : Option String) :
    (e.recompute scope).state.changed = e.changed := by
  rcases recompute_cases e scope with ⟨err, heq⟩ | ⟨ids, heq⟩
  · rw [heq]
    exact changed_rescan e
  · rw [heq]
    exact (changed_schedule_drain _ _ _ _ _).trans (changed_rescan e)

theorem changed_settle (e : Engine) (t : Trigger) (delay : Binary64) :
    (e.settle t delay).state.changed = e.changed := by
  unfold settle
  split
  · rfl
  · exact changed_handle e t

theorem changed_notifyInput (hw : e.writing = false) (name : String) (user : Bool) :
    (e.notifyInput name user).state.changed = e.changed := by
  have hbound : (e.bound name).changed = e.changed := by
    rcases bound_cases e name with h | ⟨rows, -, h⟩ | h <;> rw [h]
  rw [notifyInput_eq hw]
  split
  · exact hbound
  · rw [changed_settle, ← hbound]
    unfold edited
    split
    · rfl
    · rfl

theorem changed_changeTree (hw : e.writing = false) (change : Except TreeError FormTree)
    (event : TreeEvent) (notify : Bool) :
    (e.changeTree change event notify).state.changed = e.changed := by
  unfold changeTree
  split
  · rfl
  · next tree =>
    dsimp only
    split
    · unfold deliver
      split
      · split
        · exact changed_notifyInput (e := { e with tree }) hw _ _
        · exact changed_settle { e with tree } _ _
      · rfl
    · rfl

theorem changed_pump (e : Engine) (m : Scheduler.Move EngineError) :
    (e.pump m).state.changed = e.changed := by
  unfold pump
  split
  · exact changed_ofScheduler e m
  · rfl

/-- No operation begins with a change. -/
theorem changed_perform (hw : e.writing = false) (op : Operation) :
    (e.perform op).state.changed = e.changed := by
  cases op with
  | attach compute =>
    cases compute with
    | true => exact changed_recompute { e with attached := true } none
    | false =>
      obtain ⟨r, heq⟩ := reply_attach e
      rw [heq]
      exact changed_rescan { e with attached := true }
  | rescan =>
    obtain ⟨r, heq⟩ := reply_rescan e
    rw [heq]
    exact changed_rescan e
  | detach | focus name => rfl
  | recompute scope => exact changed_recompute e scope
  | notifyInput name user => exact changed_notifyInput hw name user
  | notifyLayout => exact changed_settle e _ _
  | flush =>
    unfold perform
    dsimp only
    split
    · exact changed_ofDebouncer e _
    · rfl
  | advance seconds => exact changed_ofDebouncer e _
  | runTimers => exact changed_ofDebouncer e _
  | runNext => exact changed_pump e _
  | runAll => exact changed_pump e _
  | addField name value scope notify => exact changed_changeTree hw _ .layout notify
  | addOutput spec value notify => exact changed_changeTree hw _ .layout notify
  | removeField name notify => exact changed_changeTree hw _ .layout notify
  | setValue name value user => exact changed_changeTree hw _ _ _
  | write name text => exact changed_changeTree hw (.ok _) (.input name false) _

/-- Where no value can be remembered a frame that goes on changes no node. -/
theorem unchanged_resume (hfull : e.detector.canRemember = false)
    (h : e.changed = []) (f : Frame) : (e.resume f).state.changed = [] := by
  cases f with
  | queue f => exact (changed_ofScheduler e _).trans h
  | clock f => exact (changed_ofDebouncer e _).trans h
  | handle t => exact (changed_handle e t).trans h
  | process entry =>
    obtain ⟨e', r, heq, hestate, -⟩ := process_unmoved (Or.inl hfull) entry
    simp only [estate, Prod.mk.injEq] at hestate
    show (e.process entry).state.changed = []
    rw [heq]
    exact hestate.2.2.2.2.2.2.2.1.trans h
  | batchDone => exact h
  | watchers id old new rest => exact (state_tellWatchers e id old new rest).symm ▸ h
  | propagate entry =>
    obtain ⟨e', r, heq, ⟨⟨queue, ns, rfl⟩, -, -⟩⟩ := propagate_reply e entry
    show (e.propagate entry).state.changed = []
    rw [heq]
    exact h
  | complete =>
    show e.complete.state.changed = []
    unfold complete
    dsimp only
    split
    · rfl
    · rw [state_tellListeners]
  | listeners changed rest => exact (state_tellListeners e changed rest).symm ▸ h

theorem changed_recover (e : Engine) (f : Frame) (err : EngineError) :
    (e.recover f err).state.changed = e.changed := by
  cases f with
  | watchers id old new rest =>
    rw [recover, state_tellWatchers]
    rfl
  | listeners changed rest =>
    rw [recover, state_tellListeners]
    rfl
  | queue f | clock f | handle t | process entry | batchDone | propagate entry | complete => rfl

/-- Where more values are to be remembered than can be, no node ever counts as changed. -/
theorem unchanged_of_reachable (hmost : ¬ settings.historySize ≤ ConvergenceDetector.maxHistory)
    {c : Running} (h : Reachable settings mode c) : c.state.changed = [] := by
  have hfull : ∀ {c : Running}, Reachable settings mode c →
      c.state.detector.canRemember = false := by
    intro c hc
    rw [ConvergenceDetector.canRemember, (steady_of_reachable hc).1.historySize]
    exact decide_eq_false fun hn => hmost (Int.toNat_le.mp hn)
  induction h with
  | create proper debounces => rfl
  | perform hreachable op ih =>
    have hc := (steady_of_reachable hreachable).1
    rw [state_after, changed_perform hc.writing]
    exact ih
  | @resume e f below r hreachable ih =>
    cases r with
    | returned r =>
      show (after below (e.resume f)).state.changed = []
      rw [state_after]
      exact unchanged_resume (hfull hreachable) ih f
    | raised err =>
      show (after below (e.recover f err)).state.changed = []
      rw [state_after, changed_recover]
      exact ih
  | reenter hreachable listening ih =>
    have hc := (steady_of_reachable hreachable).1
    rw [state_after, changed_perform hc.writing]
    exact ih
  | answer _ r' ih => exact ih
  | aside _ beside ih =>
    obtain ⟨ws, ls, k, ns, writes, rfl⟩ := beside
    exact ih

end LiveForm.Engine
