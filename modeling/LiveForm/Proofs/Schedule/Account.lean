import LiveForm.Proofs.Schedule.Batches
import Mathlib.Data.List.Nodup
import Mathlib.Data.List.Pairwise

/-!
# What becomes of every entry

An entry that was made waits, in the queue or in the running batch, or it is known what became of
it.  An `Account` says what became of the entries that wait no more.  Every event keeps what waits
and what is gone together a rearrangement of what was made (`Happens.covers`), so that no entry is
lost and none is processed twice, however the surroundings use the scheduler while it asks them
something.
-/

namespace LiveForm.Scheduler

open Machine (after)

variable {ε : Type}

/-! ## Accounts -/

/-- What became of an entry. -/
inductive Fate where
  /-- It waits in the queue. -/
  | pending
  /-- It waits in the running batch. -/
  | running
  /-- It was handed out to be processed. -/
  | processed
  /-- The surroundings took it. -/
  | taken
  /-- A later one of its node took its place. -/
  | replaced
  /-- There was no room for it. -/
  | dropped
  /-- The surroundings let go of it. -/
  | cleared
  /-- An update of its batch failed before. -/
  | discarded
  deriving DecidableEq

def Fate.all : List Fate :=
  [pending, running, processed, taken, replaced, dropped, cleared, discarded]

theorem Fate.mem_all (f : Fate) : f ∈ all := by
  cases f <;> decide

/-- What became of the entries that wait no more. -/
structure Account where
  /-- The surroundings have answered for them. -/
  answered : List QueueEntry := []
  taken : List QueueEntry := []
  /-- Each with the one that took its place. -/
  replaced : List (QueueEntry × QueueEntry) := []
  dropped : List QueueEntry := []
  cleared : List QueueEntry := []
  discarded : List QueueEntry := []

/-- The entries whose place a new one takes, each with that one. -/
def displaced (s : Scheduler) (e : QueueEntry) : List (QueueEntry × QueueEntry) :=
  (s.queue.entries.filter (·.node == e.node)).map fun old => (old, e)

/-- Writes an event down. -/
def Account.note (a : Account) : Scheduler × Event → Account
  | (s, .enqueue now node priority source) =>
    { a with
      replaced := a.replaced ++ (s.enqueue now node priority source).2.1.toList.flatMap s.displaced
      dropped := a.dropped ++ (s.enqueue now node priority source).2.2 }
  | (s, .takeBatch limit) => { a with taken := a.taken ++ (s.takeBatch limit).1 }
  | (s, .clear) => { a with cleared := a.cleared ++ s.line }
  | (s, .unwind (.batch _ _)) => { a with discarded := a.discarded ++ s.inFlight }
  | (_, .answer (.process e)) => { a with answered := a.answered ++ [e] }
  | _ => a

/-- The account of a course. -/
def account (events : List (Scheduler × Event)) : Account := events.foldl Account.note {}

namespace Account

/-- The entries that something became of.  Those are processed for which the surroundings have
answered, and the one that they are asked to process. -/
def share (a : Account) (c : Running ε) : Fate → List QueueEntry
  | .pending => c.state.queue.entries
  | .running => c.state.inFlight
  | .processed => a.answered ++ c.stack.flatMap asked
  | .taken => a.taken
  | .replaced => a.replaced.map (·.1)
  | .dropped => a.dropped
  | .cleared => a.cleared
  | .discarded => a.discarded

/-- How often an entry waits no more. -/
def gone (a : Account) (e : QueueEntry) : Nat :=
  a.answered.count e + a.taken.count e + (a.replaced.map (·.1)).count e + a.dropped.count e +
    a.cleared.count e + a.discarded.count e

/-- All that was made waits, is being processed, or is accounted for; and only a later entry of the
node takes the place of one, at no lower priority. -/
structure Covers (a : Account) (made : List QueueEntry) (c : Running ε) : Prop where
  total : ∀ e, made.count e =
    (c.stack.flatMap asked).count e + c.state.line.count e + a.gone e
  replaced : ∀ p ∈ a.replaced, p.2 ∈ made ∧ p.1.node = p.2.node ∧
    p.1.priority.rank ≤ p.2.priority.rank ∧ p.1.sequence < p.2.sequence

variable {a : Account} {made : List QueueEntry} {c : Running ε}

/-- Then the shares together are a rearrangement of what was made. -/
theorem Covers.perm (h : a.Covers made c) : (Fate.all.flatMap (a.share c)).Perm made := by
  refine List.perm_iff_count.mpr fun e => ?_
  rw [h.total e]
  simp only [Fate.all, share, gone, line, List.flatMap_cons, List.flatMap_nil, List.append_nil,
    List.count_append]
  omega

/-- So each entry is in one share, if none was made twice. -/
theorem Covers.existsUnique (h : a.Covers made c) (hmade : made.Nodup) {e : QueueEntry}
    (he : e ∈ made) : ∃! fate, e ∈ a.share c fate := by
  have hnodup : (Fate.all.flatMap (a.share c)).Nodup := h.perm.nodup_iff.mpr hmade
  obtain ⟨-, hdisjoint⟩ := List.nodup_flatMap.mp hnodup
  obtain ⟨fate, -, hfate⟩ := List.mem_flatMap.mp (h.perm.mem_iff.mpr he)
  refine ⟨fate, hfate, fun fate' hfate' => ?_⟩
  by_contra hne
  have hsymm : Std.Symm (Function.onFun List.Disjoint (a.share c)) :=
    ⟨fun _ _ hd _ h h' => hd h' h⟩
  exact hdisjoint.forall fate'.mem_all fate.mem_all hne hfate' hfate

theorem Covers.share (h : a.Covers made c) (hmade : made.Nodup) (fate : Fate) :
    (a.share c fate).Nodup ∧ ∀ e ∈ a.share c fate, e ∈ made := by
  have hnodup : (Fate.all.flatMap (a.share c)).Nodup := h.perm.nodup_iff.mpr hmade
  refine ⟨(List.nodup_flatMap.mp hnodup).1 fate fate.mem_all, fun e he => ?_⟩
  exact h.perm.mem_iff.mp (List.mem_flatMap.mpr ⟨fate, fate.mem_all, he⟩)

end Account

/-! ## Events -/

theorem map_displaced (s : Scheduler) (e : QueueEntry) :
    (s.displaced e).map (·.1) = s.queue.entries.filter (·.node == e.node) := by
  rw [displaced, List.map_map]
  exact List.map_id _

/-- A new entry is made unless its node waits at a higher priority. -/
theorem rank_le_of_enqueue {q : UpdateQueue} {now : Binary64} {node : String} {priority : Priority}
    {source : Option String} {e : QueueEntry}
    (h : (q.enqueue now node priority source).2.1 = some e) :
    ∀ old ∈ q.entries, old.node = node → old.priority.rank ≤ priority.rank := by
  intro old hold hnode
  by_contra hn
  rw [UpdateQueue.enqueue_of_covered hold hnode (Nat.lt_of_not_le hn)] at h
  cases h

/-- What is taken and what is left are what there was. -/
theorem takeBatch_perm {s : Scheduler} (hnodes : s.queue.nodes.Nodup) (limit : Option Int) :
    ((s.takeBatch limit).1 ++ (s.takeBatch limit).2.queue.entries).Perm s.queue.entries := by
  have htaken : (s.takeBatch limit).1 = (s.queue.take (s.batchLimit limit)).1 := by
    unfold takeBatch batchLimit
    split <;> simp_all
  rw [htaken, takeBatch_queue]
  exact UpdateQueue.take_perm hnodes _

/-- What was asked for and what waits are what they were before a move that keeps the updates. -/
theorem Keeps.count_after {before : List QueueEntry} {m : Move ε} (h : Keeps before m)
    (below : List (Activity Frame Ask)) (e : QueueEntry) :
    ((after below m).stack.flatMap asked).count e + (after below m).state.line.count e =
      (below.flatMap asked).count e + before.count e := by
  cases h with
  | @call s fs first kept =>
    have hcount := kept.count_eq e
    rw [List.count_append] at hcount
    simp only [after, List.flatMap_append, List.count_append]
    omega
  | reply a kept =>
    have hcount := kept.count_eq e
    simp only [after]
    omega

namespace Account

variable {a : Account} {made : List QueueEntry} {s : Scheduler}
  {stack below : List (Activity Frame Ask)} {r : Reply Answer ε}

/-- An entry that is made takes the place of the one of its node, and some may not fit. -/
theorem Covers.enqueue (h : a.Covers made ⟨s, stack, r⟩) (now : Binary64) (node : String)
    (priority : Priority) (source : Option String)
    (hbelow : ∀ e ∈ s.queue.entries, e.sequence < s.queue.nextSequence) :
    (a.note (s, .enqueue now node priority source)).Covers
      (made ++ (s.enqueue now node priority source).2.1.toList)
      ⟨(s.enqueue now node priority source).1, stack, r⟩ := by
  have hrank := @rank_le_of_enqueue s.queue now node priority source
  rcases s.queue.enqueue_cases now node priority source with hq | ⟨q, dropped, hq, hperm, -⟩
  · have hs : s.enqueue now node priority source = (s, none, []) := by
      rw [Scheduler.enqueue, hq]
    simp only [note, hs, Option.toList_none, List.flatMap_nil, List.append_nil]
    exact h
  · have hs : s.enqueue now node priority source = ({ s with queue := q },
        some ⟨node, priority, source, now, s.queue.nextSequence⟩, dropped) := by
      rw [Scheduler.enqueue, hq]
    rw [hq] at hrank
    simp only [note, hs, Option.toList_some, List.flatMap_cons, List.flatMap_nil, List.append_nil]
    constructor
    · intro e
      have htotal := h.total e
      have hsplit := (List.filter_append_perm (·.node == node) s.queue.entries).count_eq e
      have hkept : (q.entries ++ dropped).count e =
          ((s.queue.entries.filter fun e : QueueEntry => !(e.node == node)) ++ [_]).count e :=
        hperm.count_eq e
      simp only [gone, line, map_displaced, List.count_append, List.map_append]
        at htotal hsplit hkept ⊢
      omega
    · intro p hp
      rcases List.mem_append.mp hp with hp | hp
      · obtain ⟨hmem, hrest⟩ := h.replaced p hp
        exact ⟨List.mem_append_left _ hmem, hrest⟩
      · obtain ⟨old, hold, rfl⟩ := List.mem_map.mp hp
        obtain ⟨hold, hnode⟩ := List.mem_filter.mp hold
        have hnode := beq_iff_eq.mp hnode
        exact ⟨List.mem_append_right _ (List.mem_singleton_self _), hnode,
          hrank rfl old hold hnode, hbelow old hold⟩

theorem Covers.takeBatch (h : a.Covers made ⟨s, stack, r⟩) (hnodes : s.queue.nodes.Nodup)
    (limit : Option Int) :
    (a.note (s, .takeBatch limit)).Covers made ⟨(s.takeBatch limit).2, stack, r⟩ := by
  refine ⟨fun e => ?_, h.replaced⟩
  have htotal := h.total e
  have htaken := (takeBatch_perm hnodes limit).count_eq e
  have hflight : (s.takeBatch limit).2.inFlight = s.inFlight := rfl
  simp only [note, gone, line, hflight, List.count_append] at htotal htaken ⊢
  omega

theorem Covers.clear (h : a.Covers made ⟨s, stack, r⟩) :
    (a.note (s, .clear)).Covers made ⟨s.clear, stack, r⟩ := by
  refine ⟨fun e => ?_, h.replaced⟩
  have htotal := h.total e
  simp only [note, gone, line, Scheduler.clear, UpdateQueue.clear, List.count_append,
    List.count_nil] at htotal ⊢
  omega

/-- A move that keeps the updates needs no account. -/
theorem Covers.move {f : List (Activity Frame Ask)} {m : Move ε}
    (h : a.Covers made ⟨s, f ++ below, r⟩) (hf : f.flatMap asked = []) (hm : Keeps s.line m) :
    a.Covers made (after below m) := by
  refine ⟨fun e => ?_, h.replaced⟩
  have htotal := h.total e
  have hmove := hm.count_after below e
  rw [List.flatMap_append, hf, List.nil_append] at htotal
  dsimp only at htotal
  omega

theorem Covers.unwind {f : Frame} {err : ε} (h : a.Covers made ⟨s, .own f :: below, r⟩) :
    (a.note (s, .unwind f)).Covers made ⟨s.unwind f, below, .raised err⟩ := by
  refine ⟨fun e => ?_, ?_⟩
  · have htotal := h.total e
    cases f with
    | begin _ | next _ | yielding _ => exact htotal
    | batch reports taken =>
      simp only [note, gone, line, Scheduler.unwind, List.flatMap_cons, asked, List.nil_append,
        List.count_append] at htotal ⊢
      omega
  · cases f <;> exact h.replaced

theorem Covers.answer {k : Ask} (h : a.Covers made ⟨s, .ask k :: below, r⟩)
    (r' : Reply Answer ε) : (a.note (s, .answer k)).Covers made ⟨s, below, r'⟩ := by
  refine ⟨fun e => ?_, ?_⟩
  · have htotal := h.total e
    cases k with
    | batchDone _ | idle => exact htotal
    | process entry =>
      simp only [note, gone, List.flatMap_cons, asked, List.count_append] at htotal ⊢
      omega
  · cases k <;> exact h.replaced

end Account

theorem keeps_drain (s : Scheduler) (reports : Bool) : Keeps s.line (s.drain reports : Move ε) := by
  unfold drain
  split
  · exact .reply _ (.refl _)
  · exact .call rfl (.refl _)

/-- Every event keeps all that was made accounted for. -/
theorem Happens.covers {maxQueue : Int} {l : Ledger} {a : Account} {c c' : Running ε} {ev : Event}
    (happens : Happens c ev c') (hl : l.Agrees maxQueue c.state.queue)
    (hs : Single c.state c.stack) (h : a.Covers l.made c) :
    (a.note (c.state, ev)).Covers (l.note (c.state, ev)).made c' := by
  cases happens with
  | enqueue free now node priority source =>
    exact h.enqueue now node priority source fun e he => hl.sequence_lt (hl.mem_made he)
  | takeBatch free limit => exact h.takeBatch hl.nodes limit
  | clear free => exact h.clear
  | @drain s stack r free reports =>
    exact Account.Covers.move (f := []) h rfl (s.keeps_drain reports)
  | @runNext s stack r free =>
    refine Account.Covers.move (f := []) h rfl (keeps_ofYield ?_)
    exact YieldPoint.runNextThen_ne_raised _ _ (by rintro y err ⟨⟩)
  | runAll free => exact Account.Covers.move (f := []) h rfl (keeps_ofYield nofun)
  | resume s f below r =>
    have hkeeps : Keeps s.line (s.resume f : Move ε) :=
      keeps_resume (by rintro reports rfl; exact hs.inFlight_of_slice rfl rfl) hl.nodes
    cases f <;> exact Account.Covers.move (f := [_]) h rfl hkeeps
  | unwind s f below err => exact h.unwind
  | answer s k below r r' => exact h.answer r'

/-! ## Courses -/

/-- After any course of events all that was made is accounted for. -/
theorem Course.covers {batchSize : Nat} {maxQueue : Int} {mode : YieldMode} {r : Reply Answer ε}
    {events : List (Scheduler × Event)} {c : Running ε}
    (h : Course ⟨create batchSize maxQueue mode, [], r⟩ events c) :
    (account events).Covers (ledger events).made c := by
  induction h with
  | refl => exact ⟨fun _ => rfl, fun _ hp => absurd hp List.not_mem_nil⟩
  | tail h step ih =>
    rw [account, ledger, List.foldl_append, List.foldl_append]
    exact step.covers (h.agrees (Ledger.agrees_empty maxQueue))
      (h.single (single_create batchSize maxQueue mode)) ih

/-- Whatever is done to a scheduler, at any moment each entry that was made waits in the queue, or
waits in the running batch, or was handed out once to be processed, or was taken by hand, or gave
way to a later one of its node that is no lower in priority, or overflowed, or was cleared away, or
was discarded with the rest of a batch that failed, and only one of these.  When the surroundings
are told that nothing waits, nothing does. -/
theorem accounted_of_course {batchSize : Nat} {maxQueue : Int} {mode : YieldMode}
    {r : Reply Answer ε} {events : List (Scheduler × Event)} {c : Running ε}
    (h : Course ⟨create batchSize maxQueue mode, [], r⟩ events c) :
    (∀ e ∈ (ledger events).made, ∃! fate, e ∈ (account events).share c fate) ∧
    (∀ fate, ((account events).share c fate).Nodup ∧
      ∀ e ∈ (account events).share c fate, e ∈ (ledger events).made) ∧
    (∀ p ∈ (account events).replaced, p.2 ∈ (ledger events).made ∧ p.1.node = p.2.node ∧
      p.1.priority.rank ≤ p.2.priority.rank ∧ p.1.sequence < p.2.sequence) ∧
    ∀ ev c', Happens c ev c' → c.stack.count (.ask .idle) < c'.stack.count (.ask .idle) →
      c'.state.queue.entries = [] ∧ c'.state.inFlight = [] := by
  have hcovers := h.covers
  have hmade : (ledger events).made.Nodup := by
    have hl := h.agrees (Ledger.agrees_empty maxQueue)
    have hsequences : ((ledger events).made.map (·.sequence)).Nodup :=
      hl.sequences ▸ List.nodup_range
    exact hsequences.of_map
  exact ⟨fun e he => hcovers.existsUnique hmade he, hcovers.share hmade, hcovers.replaced,
    fun ev c' happens => happens.exhausted (h.single (single_create batchSize maxQueue mode))⟩

/-- An update that takes the place of another one fails, and one of its batch is discarded. -/
theorem accounted_of_course_failure : ∃ events, ∃ c : Running Unit,
    Course ⟨create 2 10 .immediate, [], .returned .done⟩ events c ∧
      (ledger events).made.map (·.node) = ["a", "a", "b"] ∧
      (account events).replaced.map (·.1.sequence) = [0] ∧
      (account events).answered.map (·.sequence) = [1] ∧
      (account events).discarded.map (·.sequence) = [2] ∧
      ∀ e ∈ (ledger events).made, ∃! fate, e ∈ (account events).share c fate := by
  have hfree : Free [] := trivial
  have hstart : Course (⟨create 2 10 .immediate, [], .returned .done⟩ : Running Unit) [] _ := .refl
  have hdrain := (((hstart.tail (.enqueue hfree 0 "a" .low none)).tail
    (.enqueue hfree 0 "a" .normal none)).tail (.enqueue hfree 0 "b" .low none)).tail
    (.drain hfree true)
  have hasks := hdrain.tail (.goesOn (f := .begin true) (a := .done) rfl rfl)
  -- The update of `a` is to be processed, and fails
  let first : QueueEntry := ⟨"a", .normal, none, 0, 1⟩
  let second : QueueEntry := ⟨"b", .low, none, 0, 2⟩
  have hfailed := hasks.tail (.answers (.process first) [.own (.batch true [first, second])]
    (by decide +kernel) (.raised ()))
  have hcourse := hfailed.tail (.unwind _ _ _ _)
  exact ⟨_, _, hcourse, by decide +kernel, by decide +kernel, by decide +kernel,
    by decide +kernel, (accounted_of_course hcourse).1⟩

end LiveForm.Scheduler
