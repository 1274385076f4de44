import LiveForm.Proofs.Machine
import LiveForm.Proofs.Schedule.Queue
import LiveForm.Schedule.Scheduler
import Mathlib.Data.List.Perm.Subperm

/-!
# What the moves of the scheduler keep
-/

namespace LiveForm

/-- What a scheduler keeps: its parameters. -/
def Scheduler.parameters (s : Scheduler) := (s.yieldPoint.mode, s.batchSize, s.queue.maxQueue)

namespace YieldPoint

variable {κ ε : Type}

theorem mode_runNextThen (y : YieldPoint κ) (frame : Frame) {otherwise : Move κ ε}
    (ho : otherwise.state.mode = y.mode) :
    (y.runNextThen frame otherwise).state.mode = y.mode := by
  unfold runNextThen
  split
  · exact ho
  · rfl

/-- To run a continuation does not fail. -/
theorem runNextThen_ne_raised (y : YieldPoint κ) (frame : Frame) {otherwise : Move κ ε}
    (ho : ∀ y err, otherwise ≠ .reply y (.raised err)) :
    ∀ y' err, y.runNextThen frame otherwise ≠ .reply y' (.raised err) := by
  unfold runNextThen
  split
  · exact ho
  · intro y' err h
    cases h

theorem mode_defer (y : YieldPoint κ) (k : κ) :
    (y.defer k : Move κ ε).state.mode = y.mode := by
  unfold defer
  dsimp only
  split
  · rfl
  · split
    · rfl
    · rfl

theorem mode_resume (y : YieldPoint κ) (f : Frame) :
    (y.resume f : Move κ ε).state.mode = y.mode := by
  cases f with
  | loop => exact mode_runNextThen y _ rfl
  | ran => rfl
  | pump n => exact mode_runNextThen y _ rfl

theorem mode_unwind (y : YieldPoint κ) (f : Frame) : (y.unwind f).mode = y.mode := by
  cases f <;> rfl

/-- An immediate yield point at which nothing waits runs a continuation in its loop. -/
theorem defer_eq {y : YieldPoint κ} (hm : y.mode = .immediate) (hw : y.waiting = []) (k : κ) :
    (y.defer k : Move κ ε) =
      if y.running then .ret { y with waiting := [k], running := true } .done
      else .call { y with waiting := [k], running := true } [.own .loop] := by
  obtain ⟨mode, waiting, running⟩ := y
  cases hm
  cases hw
  cases running <;> rfl

/-- Where nothing waits the loop ends. -/
theorem resume_loop_eq {y : YieldPoint κ} (hw : y.waiting = []) :
    (y.resume .loop : Move κ ε) = .ret { y with running := false } .done := by
  obtain ⟨mode, waiting, running⟩ := y
  cases hw
  rfl

end YieldPoint

namespace Scheduler

/-- Nothing can be taken where nothing waits. -/
theorem takeBatch_of_empty {s : Scheduler} (h : s.queue.entries = []) :
    (s.takeBatch none).2.queue.entries = [] ∧ (s.takeBatch none).1 = [] := by
  unfold takeBatch UpdateQueue.take UpdateQueue.pending
  rw [h]
  have hfront := List.prefix_nil.mp (UpdateQueue.front_prefix (s.batchSize : Int) [])
  exact ⟨rfl, hfront⟩

/-- The entries that wait, those in the running batch first. -/
def line (s : Scheduler) : List QueueEntry := s.inFlight ++ s.queue.entries

theorem isPending_iff {s : Scheduler} {node : String} :
    s.isPending node = true ↔ node ∈ s.line.map (·.node) := by
  rw [isPending, Bool.or_eq_true, UpdateQueue.waits_iff, line, List.map_append, List.mem_append,
    UpdateQueue.nodes]
  simp [or_comm]

/-- A node of some that do not wait all has room in a queue that has room for all. -/
theorem length_lt_of_fresh {s : Scheduler} {ids : List String} {node : String}
    (hline : (s.line.map (·.node)).Nodup) (hids : ∀ id ∈ s.line.map (·.node), id ∈ ids)
    (hnode : node ∈ ids) (hfresh : node ∉ s.line.map (·.node)) :
    s.queue.entries.length < ids.length := by
  have hsub : (node :: s.line.map (·.node)).Subperm ids := by
    refine List.subperm_of_subset (List.nodup_cons.mpr ⟨hfresh, hline⟩) fun id hid => ?_
    rcases List.mem_cons.mp hid with rfl | hid
    · exact hnode
    · exact hids id hid
  have hlength := hsub.length_le
  rw [List.length_cons, List.length_map, line, List.length_append] at hlength
  omega

/-- Among nodes that all have room there is room for one more to be enqueued. -/
theorem length_withEntry_le {s : Scheduler} {ids : List String} {node : String}
    (hline : (s.line.map (·.node)).Nodup) (hids : ∀ id ∈ s.line.map (·.node), id ∈ ids)
    (hnode : node ∈ ids) (now : Binary64) (priority : Priority) (source : Option String) :
    (s.queue.withEntry now node priority source).length ≤ ids.length := by
  have hsublist : s.queue.nodes.Sublist (s.line.map (·.node)) :=
    (List.sublist_append_right s.inFlight s.queue.entries).map QueueEntry.node
  have hsub : (s.queue.nodes.filter (· != node) ++ [node]).Subperm ids := by
    refine List.subperm_of_subset ?_ fun id hid => ?_
    · refine List.nodup_append.mpr ⟨(hsublist.nodup hline).filter _, List.nodup_singleton _, ?_⟩
      rintro a ha b hb rfl
      rw [List.mem_singleton.mp hb] at ha
      simp at ha
    · rcases List.mem_append.mp hid with hid | hid
      · exact hids id (hsublist.subset (List.mem_of_mem_filter hid))
      · rw [List.mem_singleton.mp hid]
        exact hnode
  have hnodes : (s.queue.withEntry now node priority source).map (·.node) =
      s.queue.nodes.filter (· != node) ++ [node] := UpdateQueue.nodes_withEntry
  rw [← List.length_map (f := QueueEntry.node), hnodes]
  exact hsub.length_le

variable {ε : Type} (s : Scheduler)

theorem parameters_ofYield {m : YieldPoint.Move Bool ε} (h : m.state.mode = s.yieldPoint.mode) :
    (s.ofYield m).state.parameters = s.parameters := by
  rw [ofYield, Move.state_embed]
  simp only [parameters, h]

theorem parameters_goOn (reports : Bool) :
    (s.goOn reports : Move ε).state.parameters = s.parameters := by
  unfold goOn
  split
  · dsimp only
    split
    · rfl
    · rfl
  · exact s.parameters_ofYield (YieldPoint.mode_defer _ _)

theorem parameters_handOut (reports : Bool) (taken : List QueueEntry) :
    (s.handOut reports taken : Move ε).state.parameters = s.parameters := by
  unfold handOut
  split
  · rfl
  · split
    · rfl
    · exact s.parameters_goOn reports

theorem parameters_drain (reports : Bool) :
    (s.drain reports : Move ε).state.parameters = s.parameters := by
  unfold drain
  split
  · rfl
  · rfl

theorem parameters_resume (f : Frame) :
    (s.resume f : Move ε).state.parameters = s.parameters := by
  cases f with
  | begin reports => exact parameters_handOut _ _ _
  | batch reports taken => exact s.parameters_handOut reports taken
  | next reports => exact s.parameters_goOn reports
  | yielding f => exact s.parameters_ofYield (YieldPoint.mode_resume _ _)

theorem queue_ofYield (m : YieldPoint.Move Bool ε) : (s.ofYield m).state.queue = s.queue := by
  rw [ofYield, Move.state_embed]

theorem queue_goOn (reports : Bool) : (s.goOn reports : Move ε).state.queue = s.queue := by
  unfold goOn
  split
  · dsimp only
    split
    · rfl
    · rfl
  · exact s.queue_ofYield _

theorem queue_handOut (reports : Bool) (taken : List QueueEntry) :
    (s.handOut reports taken : Move ε).state.queue = s.queue := by
  unfold handOut
  split
  · rfl
  · split
    · rfl
    · exact s.queue_goOn reports

/-- Where no node waits twice none does when a frame went on. -/
theorem nodup_resume (f : Frame) (h : s.queue.nodes.Nodup) :
    (s.resume f : Move ε).state.queue.nodes.Nodup := by
  cases f with
  | begin reports =>
    have htaken : (s.takeBatch none).2.queue.nodes.Nodup :=
      (List.filter_sublist.map QueueEntry.node).nodup h
    exact (queue_handOut (ε := ε) { (s.takeBatch none).2 with inFlight := (s.takeBatch none).1 }
      reports (s.takeBatch none).1).symm ▸ htaken
  | batch reports taken => exact (s.queue_handOut (ε := ε) reports taken).symm ▸ h
  | next reports => exact (s.queue_goOn (ε := ε) reports).symm ▸ h
  | yielding f => exact (s.queue_ofYield (ε := ε) _).symm ▸ h

/-! ## No update is lost -/

/-- The updates that the surroundings are asked to process. -/
def asked : Activity Frame Ask → List QueueEntry
  | .ask (.process entry) => [entry]
  | _ => []

/-- A move that does not fail, after which these updates wait, or the first is to be processed. -/
inductive Keeps (before : List QueueEntry) : Move ε → Prop where
  | call {s : Scheduler} {fs : List (Activity Frame Ask)} (first : fs.tail.flatMap asked = [])
    (kept : (fs.flatMap asked ++ s.line).Perm before) : Keeps before (.call s fs)
  | reply {s : Scheduler} (a : Answer) (kept : s.line.Perm before) :
    Keeps before (.reply s (.returned a))

variable {s}

theorem keeps_ofYield {m : YieldPoint.Move Bool ε} (hm : ∀ y err, m ≠ .reply y (.raised err)) :
    Keeps s.line (s.ofYield m) := by
  match m with
  | .call y fs =>
    have hnone : ∀ fs : List (Activity YieldPoint.Frame Bool),
        (fs.map (Activity.elim (fun f => .own (.yielding f))
          fun reports => .own (.begin reports))).flatMap asked = [] := by
      refine fun fs => List.flatMap_eq_nil_iff.mpr fun f hf => ?_
      obtain ⟨g, -, rfl⟩ := List.mem_map.mp hf
      cases g <;> rfl
    refine .call ?_ ?_
    · rw [← List.map_tail]
      exact hnone fs.tail
    · rw [hnone]
      exact .refl _
  | .reply y (.returned a) => exact .reply a (.refl _)
  | .reply y (.raised err) => exact absurd rfl (hm y err)

theorem keeps_goOn (reports : Bool) : Keeps s.line (s.goOn reports : Move ε) := by
  unfold goOn
  split
  · dsimp only
    split
    · exact .call rfl (.refl _)
    · exact .reply _ (.refl _)
  · refine keeps_ofYield fun y err => ?_
    unfold YieldPoint.defer
    dsimp only
    split
    · nofun
    · split
      · nofun
      · nofun

theorem keeps_handOut (reports : Bool) (taken : List QueueEntry) :
    Keeps s.line (s.handOut reports taken : Move ε) := by
  unfold handOut
  split
  · next entry rest hflight =>
    have hline : s.line = entry :: (rest ++ s.queue.entries) := by
      rw [line, hflight, List.cons_append]
    exact .call rfl (hline ▸ .refl _)
  · split
    · exact .call rfl (.refl _)
    · exact keeps_goOn reports

/-- When a frame goes on the same updates wait, but for those that are to be processed. -/
theorem keeps_resume {f : Frame} (hf : ∀ reports, f = .begin reports → s.inFlight = [])
    (hn : s.queue.nodes.Nodup) : Keeps s.line (s.resume f : Move ε) := by
  cases f with
  | begin reports =>
    have hperm : ({ (s.takeBatch none).2 with inFlight := (s.takeBatch none).1 } :
        Scheduler).line.Perm s.line := by
      have htaken := UpdateQueue.take_perm hn (s.batchSize : Int)
      rw [line, line, hf reports rfl]
      exact htaken
    have hkeeps : Keeps _ (s.resume (.begin reports) : Move ε) := keeps_handOut
      (s := { (s.takeBatch none).2 with inFlight := (s.takeBatch none).1 }) reports
      (s.takeBatch none).1
    generalize (s.resume (.begin reports) : Move ε) = m at hkeeps ⊢
    cases hkeeps with
    | call first kept => exact .call first (kept.trans hperm)
    | reply a kept => exact .reply a (kept.trans hperm)
  | batch reports taken => exact keeps_handOut reports taken
  | next reports => exact keeps_goOn reports
  | yielding f =>
    refine keeps_ofYield ?_
    cases f with
    | ran =>
      intro y err hn
      cases hn
    | loop | pump n =>
      refine YieldPoint.runNextThen_ne_raised _ _ fun y err hn => ?_
      cases hn

variable (s)

theorem parameters_unwind (f : Frame) : (s.unwind f).parameters = s.parameters := by
  cases f with
  | begin _ | next _ | batch _ _ => rfl
  | yielding f => simp only [unwind, parameters, YieldPoint.mode_unwind]

end Scheduler

end LiveForm
