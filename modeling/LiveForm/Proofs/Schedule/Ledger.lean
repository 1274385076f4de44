import LiveForm.Proofs.Schedule.Scheduler
import LiveForm.Proofs.Schedule.Slots

/-!
# What a scheduler keeps to

A scheduler among surroundings that do anything: they enqueue, take, clear and drain whenever they
are in control, that is from outside and whenever they are asked to process something or are told
that a batch or all is done, and they answer such a question with a result or with an error.  A
`Ledger` of what they did keeps the entries in slots, all that were made and all that overflowed.

Each event keeps the queue in agreement with the ledger (`Ledger.Agrees.note`), and so it is after
any course of events (`Course.agrees`).
-/

namespace LiveForm.Scheduler

open Machine (after state_after)

/-! ## Courses of events -/

/-- A scheduler in the middle of its work. -/
abbrev Running (ε : Type) := Config Scheduler (Activity Frame Ask) Answer ε

/-- Something that happens to a scheduler. -/
inductive Event where
  | enqueue (now : Binary64) (node : String) (priority : Priority) (source : Option String)
  | takeBatch (limit : Option Int)
  | clear
  | drain (reports : Bool)
  | runNext
  | runAll
  /-- A frame goes on. -/
  | resume (f : Frame)
  /-- An error passes through a frame. -/
  | unwind (f : Frame)
  /-- The surroundings answer. -/
  | answer (k : Ask)

/-- The surroundings are in control: nothing is left to do, or they are being asked. -/
def Free : List (Activity Frame Ask) → Prop
  | .own _ :: _ => False
  | _ => True

variable {ε : Type}

/-- One event: the surroundings do something or answer, or a frame of the scheduler goes on. -/
inductive Happens : Running ε → Event → Running ε → Prop where
  | enqueue {s : Scheduler} {stack : List (Activity Frame Ask)} {r : Reply Answer ε}
    (free : Free stack) (now : Binary64) (node : String) (priority : Priority)
    (source : Option String) :
    Happens ⟨s, stack, r⟩ (.enqueue now node priority source)
      ⟨(s.enqueue now node priority source).1, stack, r⟩
  | takeBatch {s : Scheduler} {stack : List (Activity Frame Ask)} {r : Reply Answer ε}
    (free : Free stack) (limit : Option Int) :
    Happens ⟨s, stack, r⟩ (.takeBatch limit) ⟨(s.takeBatch limit).2, stack, r⟩
  | clear {s : Scheduler} {stack : List (Activity Frame Ask)} {r : Reply Answer ε}
    (free : Free stack) : Happens ⟨s, stack, r⟩ .clear ⟨s.clear, stack, r⟩
  | drain {s : Scheduler} {stack : List (Activity Frame Ask)} {r : Reply Answer ε}
    (free : Free stack) (reports : Bool) :
    Happens ⟨s, stack, r⟩ (.drain reports) (after stack (s.drain reports))
  | runNext {s : Scheduler} {stack : List (Activity Frame Ask)} {r : Reply Answer ε}
    (free : Free stack) : Happens ⟨s, stack, r⟩ .runNext (after stack s.runNext)
  | runAll {s : Scheduler} {stack : List (Activity Frame Ask)} {r : Reply Answer ε}
    (free : Free stack) : Happens ⟨s, stack, r⟩ .runAll (after stack s.runAll)
  | resume (s : Scheduler) (f : Frame) (below : List (Activity Frame Ask)) (a : Answer) :
    Happens ⟨s, .own f :: below, .returned a⟩ (.resume f) (after below (s.resume f))
  | unwind (s : Scheduler) (f : Frame) (below : List (Activity Frame Ask)) (err : ε) :
    Happens ⟨s, .own f :: below, .raised err⟩ (.unwind f) ⟨s.unwind f, below, .raised err⟩
  | answer (s : Scheduler) (k : Ask) (below : List (Activity Frame Ask)) (r r' : Reply Answer ε) :
    Happens ⟨s, .ask k :: below, r⟩ (.answer k) ⟨s, below, r'⟩

/-- Any number of events, each with the scheduler to which it happened. -/
inductive Course (c₀ : Running ε) : List (Scheduler × Event) → Running ε → Prop where
  | refl : Course c₀ [] c₀
  | tail {events : List (Scheduler × Event)} {c c' : Running ε} {a : Event}
    (h : Course c₀ events c) (step : Happens c a c') :
    Course c₀ (events ++ [(c.state, a)]) c'

/-! ## Ledgers -/

/-- What was done with the entries of a queue. -/
structure Ledger where
  /-- The entries that wait, in slots. -/
  slots : SlotTable := []
  /-- The entries that were made. -/
  made : List QueueEntry := []
  /-- The entries that overflowed. -/
  lost : List QueueEntry := []

/-- How many entries a batch takes. -/
def batchLimit (s : Scheduler) : Option Int → Int
  | none | some 0 => s.batchSize
  | some n => n

/-- Writes an event down. -/
def Ledger.note (l : Ledger) : Scheduler × Event → Ledger
  | (s, .enqueue now node priority source) =>
    let (slots, overflow) := l.slots.enqueue s.queue.maxQueue
      ⟨node, priority, source, now, s.queue.nextSequence⟩
    { slots
      made := l.made ++ (s.enqueue now node priority source).2.1.toList
      lost := l.lost ++ overflow }
  | (s, .takeBatch limit) => { l with slots := l.slots.take (s.batchLimit limit) }
  | (s, .resume (.begin _)) => { l with slots := l.slots.take (s.batchLimit none) }
  | (_, .clear) => { l with slots := [] }
  | _ => l

/-- The ledger of a course. -/
def ledger (events : List (Scheduler × Event)) : Ledger := events.foldl Ledger.note {}

namespace Ledger

/-- The queue is as the ledger says. -/
structure Agrees (maxQueue : Int) (l : Ledger) (q : UpdateQueue) : Prop where
  nodes : q.nodes.Nodup
  slots : l.slots = .keyed q.entries
  sequences : l.made.map (·.sequence) = List.range q.nextSequence
  accounted : (q.entries ++ l.lost).Subperm l.made
  dropped : q.dropped = l.lost.length
  capacity : q.maxQueue = maxQueue
  room : 0 ≤ maxQueue → (q.entries.length : Int) ≤ maxQueue

variable {maxQueue : Int} {l : Ledger} {q : UpdateQueue}

theorem agrees_empty (maxQueue : Int) : Agrees maxQueue {} { maxQueue } where
  nodes := List.nodup_nil
  slots := rfl
  sequences := rfl
  accounted := List.Subperm.refl _
  dropped := rfl
  capacity := rfl
  room h := h

namespace Agrees

/-- What waits was made. -/
theorem mem_made (h : Agrees maxQueue l q) {e : QueueEntry} (he : e ∈ q.entries) : e ∈ l.made :=
  h.accounted.subset (List.mem_append_left _ he)

/-- The next number is above all that were given. -/
theorem sequence_lt (h : Agrees maxQueue l q) {e : QueueEntry} (he : e ∈ l.made) :
    e.sequence < q.nextSequence :=
  List.mem_range.mp (h.sequences ▸ List.mem_map_of_mem he)

/-- No number was given twice. -/
theorem nodup_sequences (h : Agrees maxQueue l q) : (l.made.map (·.sequence)).Nodup :=
  h.sequences ▸ List.nodup_range

open scoped List in
/-- With those dropped before, what waits and what is dropped now are the others, those, and the new
entry. -/
theorem accounted_perm {entries dropped others : List QueueEntry} {e : QueueEntry}
    (h : entries ++ dropped ~ others ++ [e]) (lost : List QueueEntry) :
    entries ++ (lost ++ dropped) ~ others ++ lost ++ [e] :=
  calc entries ++ (lost ++ dropped)
    _ ~ entries ++ (dropped ++ lost) := List.perm_append_comm.append_left entries
    _ = (entries ++ dropped) ++ lost := (List.append_assoc ..).symm
    _ ~ others ++ [e] ++ lost := h.append_right lost
    _ = others ++ ([e] ++ lost) := List.append_assoc ..
    _ ~ others ++ (lost ++ [e]) := List.perm_append_comm.append_left others
    _ = others ++ lost ++ [e] := (List.append_assoc ..).symm

/-- An entry that is made is written down, and so is what overflows. -/
theorem enqueue (h : Agrees maxQueue l q) (now : Binary64) (node : String) (priority : Priority)
    (source : Option String) :
    Agrees maxQueue
      { slots := .keyed (q.enqueue now node priority source).1.entries
        made := l.made ++ (q.enqueue now node priority source).2.1.toList
        lost := l.lost ++ (q.enqueue now node priority source).2.2 }
      (q.enqueue now node priority source).1 := by
  have hnodes : (q.enqueue now node priority source).1.nodes.Nodup :=
    UpdateQueue.nodup_enqueue h.nodes
  rcases q.enqueue_cases now node priority source with hq | ⟨q', dropped, hq, hperm, hmax, hnext,
    hdropped, hroom⟩
  · rw [hq]
    dsimp only
    rw [Option.toList_none, List.append_nil, List.append_nil, ← h.slots]
    exact h
  · rw [hq] at hnodes ⊢
    dsimp only at hnodes ⊢
    refine ⟨hnodes, rfl, ?_, ?_, ?_, hmax.trans h.capacity, ?_⟩
    · rw [List.map_append, h.sequences, hnext, List.range_succ]
      rfl
    · refine (accounted_perm hperm l.lost).subperm.trans ?_
      have hothers : (q.entries.filter (fun e => e.node != node) ++ l.lost).Subperm l.made :=
        (List.filter_sublist.append_right l.lost).subperm.trans h.accounted
      exact (List.subperm_append_right _).mpr hothers
    · rw [hdropped, h.dropped, List.length_append]
    · rw [← h.capacity]
      exact hroom

theorem take (h : Agrees maxQueue l q) (limit : Int) :
    Agrees maxQueue { l with slots := l.slots.take limit } (q.take limit).2 where
  nodes := (List.filter_sublist.map _).nodup h.nodes
  slots := by
    rw [h.slots]
    exact SlotTable.take_keyed h.nodes rfl limit
  sequences := h.sequences
  accounted := (List.filter_sublist.append_right _).subperm.trans h.accounted
  dropped := h.dropped
  capacity := h.capacity
  room hm := by
    exact Int.le_trans (Int.ofNat_le.mpr (List.length_filter_le _ _)) (h.room hm)

theorem clear (h : Agrees maxQueue l q) : Agrees maxQueue { l with slots := [] } q.clear where
  nodes := List.nodup_nil
  slots := rfl
  sequences := h.sequences
  accounted := (List.sublist_append_right _ _).subperm.trans h.accounted
  dropped := h.dropped
  capacity := h.capacity
  room hm := hm

end Agrees

end Ledger

/-! ## Runs -/

theorem takeBatch_queue (s : Scheduler) (limit : Option Int) :
    (s.takeBatch limit).2.queue = (s.queue.take (s.batchLimit limit)).2 := by
  rcases limit with _ | n
  · rfl
  · unfold takeBatch batchLimit
    split <;> simp_all

/-- When a frame goes on, nothing but the beginning of a batch touches the queue. -/
theorem queue_resume (s : Scheduler) (f : Frame) :
    (s.resume f : Move ε).state.queue =
      match f with
      | .begin _ => (s.takeBatch none).2.queue
      | _ => s.queue := by
  cases f with
  | begin reports =>
    exact queue_handOut { (s.takeBatch none).2 with inFlight := (s.takeBatch none).1 } reports _
  | batch reports taken => exact s.queue_handOut reports taken
  | next reports => exact s.queue_goOn reports
  | yielding f => exact s.queue_ofYield _

theorem queue_drain (s : Scheduler) (reports : Bool) :
    (s.drain reports : Move ε).state.queue = s.queue := by
  unfold drain
  split <;> rfl

theorem queue_unwind (s : Scheduler) (f : Frame) : (s.unwind f).queue = s.queue := by
  cases f <;> rfl

/-- Every event keeps the queue as the ledger says. -/
theorem Happens.agrees {maxQueue : Int} {l : Ledger} {c c' : Running ε} {a : Event}
    (h : Happens c a c') (hl : l.Agrees maxQueue c.state.queue) :
    (l.note (c.state, a)).Agrees maxQueue c'.state.queue := by
  cases h with
  | @enqueue s stack r free now node priority source =>
    have hslots := SlotTable.enqueue_keyed hl.nodes now node priority source
    rw [← hl.slots] at hslots
    rw [Ledger.note, hslots]
    exact hl.enqueue now node priority source
  | @takeBatch s stack r free limit =>
    rw [takeBatch_queue]
    exact hl.take _
  | clear free => exact hl.clear
  | drain free reports =>
    rw [state_after, queue_drain]
    exact hl
  | runNext free | runAll free =>
    rw [state_after]
    exact (queue_ofYield _ _).symm ▸ hl
  | resume s f below a =>
    rw [state_after, queue_resume]
    cases f with
    | begin reports =>
      rw [takeBatch_queue]
      exact hl.take _
    | batch reports taken | next reports | yielding f => exact hl
  | unwind s f below err => exact (queue_unwind s f).symm ▸ hl
  | answer s k below r r' => exact hl

/-- After any course of events the queue is as the ledger of the course says. -/
theorem Course.agrees {maxQueue : Int} {c₀ c : Running ε} {events : List (Scheduler × Event)}
    (h : Course c₀ events c) (h₀ : Ledger.Agrees maxQueue {} c₀.state.queue) :
    (ledger events).Agrees maxQueue c.state.queue := by
  induction h with
  | refl => exact h₀
  | tail h step ih =>
    rw [ledger, List.foldl_append]
    exact step.agrees ih

/-- Whatever is done to a scheduler that holds no less than nothing: no node waits twice, what waits
is in its own slots, all entries have numbers of their own below the next one, no more wait than
there is room for, and the entries that overflowed are all that were counted as dropped. -/
theorem queue_of_course {batchSize : Nat} {maxQueue : Int} {mode : YieldMode} {r : Reply Answer ε}
    {events : List (Scheduler × Event)} {c : Running ε} (hroom : 0 ≤ maxQueue)
    (h : Course ⟨create batchSize maxQueue mode, [], r⟩ events c) :
    c.state.queue.nodes.Nodup ∧
    ((ledger events).slots.entries = c.state.queue.entries ∧
      ∀ p ∈ (ledger events).slots, p.1 = (p.2.node, p.2.priority)) ∧
    ((ledger events).made.map (·.sequence)).Nodup ∧
    (∀ e ∈ (ledger events).made, e.sequence < c.state.queue.nextSequence) ∧
    (∀ e ∈ c.state.queue.entries, e ∈ (ledger events).made) ∧
    (c.state.queue.entries.length : Int) ≤ maxQueue ∧
    ((ledger events).lost.Nodup ∧
      (∀ e ∈ (ledger events).lost, e ∈ (ledger events).made ∧ e ∉ c.state.queue.entries) ∧
      c.state.queue.dropped = (ledger events).lost.length) := by
  have hl := h.agrees (Ledger.agrees_empty maxQueue)
  have hsequences : ((ledger events).made.map (·.sequence)).Nodup :=
    hl.sequences ▸ List.nodup_range
  have hnodup : (c.state.queue.entries ++ (ledger events).lost).Nodup := by
    obtain ⟨made, hmade, hsub⟩ := hl.accounted
    exact hmade.nodup (hsub.nodup hsequences.of_map)
  obtain ⟨-, hlost, hdisjoint⟩ := List.nodup_append.mp hnodup
  refine ⟨hl.nodes, ⟨?_, fun p hp => ?_⟩, hsequences, fun e he => ?_, fun e he => ?_, hl.room hroom,
    hlost, fun e he => ⟨?_, fun hmem => ?_⟩, hl.dropped⟩
  · rw [hl.slots, SlotTable.entries_keyed]
  · rw [hl.slots] at hp
    obtain ⟨e, -, rfl⟩ := List.mem_map.mp hp
    rfl
  · exact List.mem_range.mp (hl.sequences ▸ List.mem_map_of_mem he)
  · exact hl.accounted.subset (List.mem_append_left _ he)
  · exact hl.accounted.subset (List.mem_append_right _ he)
  · exact hdisjoint e hmem e he rfl

/-- Two entries where there is room for one. -/
theorem queue_of_course_overflow : ∃ events, ∃ c : Running Unit,
    Course ⟨create 1 1 .manual, [], .returned .done⟩ events c ∧
      (ledger events).lost.map (·.node) = ["a"] ∧ c.state.queue.nodes = ["b"] ∧
      c.state.queue.nodes.Nodup ∧ c.state.queue.dropped = (ledger events).lost.length := by
  have hfree : Free [] := trivial
  have hstart : Course (⟨create 1 1 .manual, [], .returned .done⟩ : Running Unit) [] _ := .refl
  have hcourse := (hstart.tail (.enqueue hfree 0 "a" .low none)).tail
    (.enqueue hfree 0 "b" .normal none)
  have h := queue_of_course (by decide) hcourse
  exact ⟨_, _, hcourse, by decide +kernel, by decide +kernel, h.1, h.2.2.2.2.2.2.2.2⟩

end LiveForm.Scheduler
