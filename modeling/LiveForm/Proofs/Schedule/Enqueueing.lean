import LiveForm.Proofs.Number.Order
import LiveForm.Proofs.Schedule.Ledger

/-!
# What enqueueing does

A new entry takes the place of the one of its node.  When there is no room for all that wait then,
the one that is least in priority, time and number is dropped, and that may be the new one itself.
-/

namespace LiveForm

/-! ## The least entry -/

namespace QueueEntry

variable {a b : QueueEntry}

/-- Entries are dropped by priority, then by the time at which they were enqueued, and then by their
numbers. -/
def dropKey (e : QueueEntry) : Nat ×ₗ (Int ×ₗ Int) ×ₗ Nat :=
  toLex (e.priority.rank, toLex (e.enqueuedAt.place, e.sequence))

theorem older_iff (ha : a.enqueuedAt.isNaN = false) (hb : b.enqueuedAt.isNaN = false) :
    a.older b = true ↔
      toLex (a.enqueuedAt.place, a.sequence) < toLex (b.enqueuedAt.place, b.sequence) := by
  rw [older, Bool.or_eq_true, Bool.and_eq_true, decide_eq_true_eq, Binary64.lt_iff_place ha hb,
    Binary64.eqv_iff_place ha hb, Prod.Lex.toLex_lt_toLex]

theorem dropsBefore_iff (ha : a.enqueuedAt.isNaN = false) (hb : b.enqueuedAt.isNaN = false) :
    a.dropsBefore b = true ↔ a.dropKey < b.dropKey := by
  have hrank : a.priority = b.priority ↔ a.priority.rank = b.priority.rank :=
    ⟨fun h => h ▸ rfl, Priority.rank_injective⟩
  rw [dropKey, dropKey, Prod.Lex.toLex_lt_toLex, dropsBefore, Bool.or_eq_true, Bool.and_eq_true,
    decide_eq_true_eq, beq_iff_eq, older_iff ha hb, hrank]

theorem sequence_eq_of_dropKey_eq (h : a.dropKey = b.dropKey) : a.sequence = b.sequence := by
  simp only [dropKey, toLex_inj, Prod.mk.injEq] at h
  exact h.2.2

/-- An entry that is no older than another one goes first only if it is lower in priority. -/
theorem rank_lt_of_dropKey_lt (hplace : b.enqueuedAt.place ≤ a.enqueuedAt.place)
    (hsequence : b.sequence < a.sequence) (h : a.dropKey < b.dropKey) :
    a.priority.rank < b.priority.rank := by
  rw [dropKey, dropKey, Prod.Lex.toLex_lt_toLex, Prod.Lex.toLex_lt_toLex] at h
  rcases h with hrank | ⟨-, hlt | ⟨-, hlt⟩⟩
  · exact hrank
  · exact absurd hlt hplace.not_gt
  · exact absurd hlt (Nat.lt_asymm hsequence)

theorem rank_le_of_dropKey_lt (h : a.dropKey < b.dropKey) :
    a.priority.rank ≤ b.priority.rank := by
  rw [dropKey, dropKey, Prod.Lex.toLex_lt_toLex] at h
  rcases h with hrank | ⟨hrank, -⟩
  · exact hrank.le
  · exact hrank.le

end QueueEntry

namespace UpdateQueue

variable {q q' : UpdateQueue} {now : Binary64} {node : String} {priority : Priority}
  {source : Option String} {entries dropped : List QueueEntry} {v : QueueEntry}

/-- Of two entries that one is kept in mind that would go first. -/
theorem dropKey_ite_le {v e : QueueEntry} (hv : v.enqueuedAt.isNaN = false)
    (he : e.enqueuedAt.isNaN = false) :
    (if e.dropsBefore v then e else v).dropKey ≤ v.dropKey ∧
      (if e.dropsBefore v then e else v).dropKey ≤ e.dropKey := by
  have hdrops := QueueEntry.dropsBefore_iff he hv
  by_cases hlt : e.dropsBefore v = true
  · rw [if_pos hlt]
    exact ⟨(hdrops.mp hlt).le, le_rfl⟩
  · rw [if_neg hlt]
    exact ⟨le_rfl, not_lt.mp fun h => hlt (hdrops.mpr h)⟩

theorem dropKey_foldl_le {v : QueueEntry} (hv : v.enqueuedAt.isNaN = false)
    (hnan : ∀ e ∈ entries, e.enqueuedAt.isNaN = false) :
    ∀ e ∈ v :: entries,
      (entries.foldl (fun v e => if e.dropsBefore v then e else v) v).dropKey ≤ e.dropKey := by
  induction entries generalizing v with
  | nil =>
    intro e he
    rw [List.mem_singleton.mp he, List.foldl_nil]
  | cons f fs ih =>
    obtain ⟨hf, hfs⟩ := List.forall_mem_cons.mp hnan
    obtain ⟨hlev, hlef⟩ := dropKey_ite_le hv hf
    have hkept : (if f.dropsBefore v then f else v).enqueuedAt.isNaN = false := by
      split
      · exact hf
      · exact hv
    obtain ⟨hle, hrest⟩ := List.forall_mem_cons.mp (ih hkept hfs)
    rw [List.foldl_cons]
    exact List.forall_mem_cons.mpr
      ⟨hle.trans hlev, List.forall_mem_cons.mpr ⟨hle.trans hlef, hrest⟩⟩

/-- The entry that is dropped is the least one. -/
theorem dropKey_le_of_victim? (hnan : ∀ e ∈ entries, e.enqueuedAt.isNaN = false)
    (h : victim? entries = some v) : ∀ e ∈ entries, v.dropKey ≤ e.dropKey := by
  cases entries with
  | nil => cases h
  | cons e es =>
    cases h
    obtain ⟨he, hes⟩ := List.forall_mem_cons.mp hnan
    exact dropKey_foldl_le he hes

/-- When one entry too many waits, the one found is all that is dropped. -/
theorem trim_of_excess {n : Nat} (hmax : 0 ≤ q.maxQueue) (hn : 0 < n)
    (h : (q.entries.length : Int) = q.maxQueue + 1) :
    ∃ v, victim? q.entries = some v ∧
      q.trim n = ({ q with entries := q.entries.erase v, dropped := q.dropped + 1 }, [v]) := by
  obtain ⟨n, rfl⟩ := Nat.exists_eq_succ_of_ne_zero hn.ne'
  have hnone : victim? q.entries ≠ none := by
    cases he : q.entries with
    | nil =>
      rw [he, List.length_nil] at h
      omega
    | cons e es => exact Option.some_ne_none _
  obtain ⟨v, hv⟩ := Option.ne_none_iff_exists'.mp hnone
  have hlength := List.length_erase_of_mem (victim?_mem hv)
  refine ⟨v, hv, ?_⟩
  rw [trim, if_neg (by omega)]
  simp only [hv]
  rw [trim_eq_self (by dsimp only; omega)]

/-! ## The place of a new entry -/

/-- What becomes of a queue that a new entry joins, by all that would wait then: they all do if
there is room for them, and otherwise the least one of them is dropped. -/
inductive Admits (q : UpdateQueue) (all : List QueueEntry) :
    UpdateQueue → List QueueEntry → Prop where
  | fits (room : (all.length : Int) ≤ q.maxQueue) :
    Admits q all { q with entries := all, nextSequence := q.nextSequence + 1 } []
  | overflows {v : QueueEntry} (full : q.maxQueue < all.length) (mem : v ∈ all)
    (least : (∀ e ∈ all, e.enqueuedAt.isNaN = false) → ∀ e ∈ all, e ≠ v → v.dropKey < e.dropKey) :
    Admits q all { q with
      entries := all.erase v
      nextSequence := q.nextSequence + 1
      dropped := q.dropped + 1 } [v]

/-- Where all others are older, the new entry is the least one just if they are all of a higher
priority. -/
theorem eq_new_iff {new : QueueEntry} (hclock : ∀ e ∈ entries, e.enqueuedAt ≤ new.enqueuedAt)
    (hbelow : ∀ e ∈ entries, e.sequence < new.sequence) (hv : v ∈ entries ++ [new])
    (hleast : (∀ e ∈ entries ++ [new], e.enqueuedAt.isNaN = false) →
      ∀ e ∈ entries ++ [new], e ≠ v → v.dropKey < e.dropKey) :
    v = new ↔ ∀ e ∈ entries, new.priority.rank < e.priority.rank := by
  -- As soon as another entry waits, all times can be compared
  have hleast : ∀ e ∈ entries, ∀ f ∈ entries ++ [new], f ≠ v → v.dropKey < f.dropKey := by
    intro e he
    refine hleast (List.forall_mem_append.mpr ⟨fun f hf => ?_, fun f hf => ?_⟩)
    · exact (Binary64.isNaN_of_le (hclock f hf)).1
    · rw [List.mem_singleton.mp hf]
      exact (Binary64.isNaN_of_le (hclock e he)).2
  constructor
  · rintro rfl e he
    have hne : e ≠ v := fun heq => (hbelow e he).ne (congrArg (·.sequence) heq)
    have hlt := hleast e he e (List.mem_append_left _ he) hne
    exact QueueEntry.rank_lt_of_dropKey_lt (Binary64.place_le_of_le (hclock e he)) (hbelow e he) hlt
  · intro hhigher
    by_contra hne
    have hold : v ∈ entries :=
      (List.mem_append.mp hv).resolve_right fun h => hne (List.mem_singleton.mp h)
    have hlt := hleast v hold new (List.mem_append_right _ (List.mem_singleton_self _)) (Ne.symm hne)
    exact absurd (hhigher v hold) (QueueEntry.rank_le_of_dropKey_lt hlt).not_gt

/-- The queue holds no more than it may, and each number once. -/
structure Orderly (q : UpdateQueue) : Prop where
  room : (q.entries.length : Int) ≤ q.maxQueue
  sequences : (q.entries.map (·.sequence)).Nodup
  below : ∀ e ∈ q.entries, e.sequence < q.nextSequence

variable (q now node priority source) in
theorem length_withEntry_le :
    (q.withEntry now node priority source).length ≤ q.entries.length + 1 := by
  rw [withEntry, List.length_append, List.length_singleton]
  exact Nat.succ_le_succ (List.length_filter_le _ _)

variable (now priority source) in
/-- A node that waits makes room for its own entry. -/
theorem length_withEntry_of_mem (h : node ∈ q.nodes) :
    (q.withEntry now node priority source).length ≤ q.entries.length := by
  obtain ⟨e, he, rfl⟩ := List.mem_map.mp h
  rw [withEntry, List.length_append, List.length_singleton]
  exact List.length_filter_lt_length_iff_exists.mpr ⟨e, he, by simp⟩

theorem mem_withEntry {e : QueueEntry} : e ∈ q.withEntry now node priority source ↔
    (e ∈ q.entries ∧ e.node ≠ node) ∨ e = ⟨node, priority, source, now, q.nextSequence⟩ := by
  rw [withEntry, List.mem_append, List.mem_filter, List.mem_singleton, bne_iff_ne]

namespace Orderly

theorem sequences_withEntry (h : q.Orderly) :
    ((q.withEntry now node priority source).map (·.sequence)).Nodup := by
  rw [withEntry, List.map_append]
  refine List.nodup_append.mpr ⟨(List.filter_sublist.map _).nodup h.sequences,
    List.nodup_singleton _, ?_⟩
  intro a ha b hb
  obtain ⟨e, he, rfl⟩ := List.mem_map.mp ha
  rw [List.mem_singleton.mp hb]
  exact (h.below e (List.mem_of_mem_filter he)).ne

variable (now source) in
/-- An update that no higher one covers joins the queue. -/
theorem admits (h : q.Orderly) (hmax : 0 ≤ q.maxQueue)
    (hfree : ∀ e ∈ q.entries, e.node = node → e.priority.rank ≤ priority.rank) :
    ∃ q' dropped, q.enqueue now node priority source =
        (q', some ⟨node, priority, source, now, q.nextSequence⟩, dropped) ∧
      q.Admits (q.withEntry now node priority source) q' dropped := by
  by_cases hroom : ((q.withEntry now node priority source).length : Int) ≤ q.maxQueue
  · exact ⟨_, _, enqueue_of_room hroom hfree, .fits hroom⟩
  · have hroom' := h.room
    have hle := q.length_withEntry_le now node priority source
    obtain ⟨v, hv, htrim⟩ := trim_of_excess (q := q.extended now node priority source)
      (n := (q.withEntry now node priority source).length) hmax
      (by omega) (by dsimp only [extended]; omega)
    refine ⟨_, _, (enqueue_of_free hfree).trans (by rw [htrim]), ?_⟩
    refine .overflows (not_le.mp hroom) (victim?_mem hv) fun hnan e he hne => ?_
    refine lt_of_le_of_ne (dropKey_le_of_victim? hnan hv e he) fun heq => hne ?_
    exact List.inj_on_of_nodup_map h.sequences_withEntry he (victim?_mem hv)
      (QueueEntry.sequence_eq_of_dropKey_eq heq).symm

/-- The queue is full and the node does not wait, when not all can stay. -/
theorem maxQueue_lt_iff (h : q.Orderly) :
    q.maxQueue < (q.withEntry now node priority source).length ↔
      (q.entries.length : Int) = q.maxQueue ∧ node ∉ q.nodes := by
  have hroom := h.room
  by_cases hmem : node ∈ q.nodes
  · have hle := length_withEntry_of_mem now priority source hmem
    exact ⟨fun hlt => absurd hlt (by omega), fun hc => absurd hmem hc.2⟩
  · have hlength := congrArg List.length (withEntry_of_not_mem now priority source hmem)
    rw [List.length_append, List.length_singleton] at hlength
    rw [hlength]
    exact ⟨fun hlt => ⟨by omega, hmem⟩, fun hc => by omega⟩

/-- Where all others are older, a new entry is dropped just if there is no room and they are all of
a higher priority. -/
theorem mem_admitted_iff (h : q.Orderly) (hclock : ∀ e ∈ q.entries, e.enqueuedAt ≤ now)
    (hadmits : q.Admits (q.withEntry now node priority source) q' dropped) :
    ⟨node, priority, source, now, q.nextSequence⟩ ∈ q'.entries ↔
      ¬ ((q.entries.length : Int) = q.maxQueue ∧ node ∉ q.nodes ∧
        ∀ e ∈ q.entries, priority.rank < e.priority.rank) := by
  have hfresh : ⟨node, priority, source, now, q.nextSequence⟩ ∈
      q.withEntry now node priority source := mem_withEntry.mpr (Or.inr rfl)
  cases hadmits with
  | fits hroom =>
    refine iff_of_true hfresh fun hc => ?_
    exact absurd (h.maxQueue_lt_iff.mpr ⟨hc.1, hc.2.1⟩) (not_lt.mpr hroom)
  | @overflows v hfull hv hleast =>
    obtain ⟨hlength, hmem⟩ := h.maxQueue_lt_iff.mp hfull
    have hnodup : (q.withEntry now node priority source).Nodup := h.sequences_withEntry.of_map
    rw [hnodup.mem_erase_iff, and_iff_left hfresh]
    rw [withEntry_of_not_mem now priority source hmem] at hleast hv
    have hnew := eq_new_iff hclock h.below hv hleast
    constructor
    · rintro hne ⟨-, -, hhigher⟩
      exact hne (hnew.mpr hhigher).symm
    · rintro hn rfl
      exact hn ⟨hlength, hmem, hnew.mp rfl⟩

end Orderly

end UpdateQueue

/-! ## Courses -/

namespace Scheduler

variable {ε : Type}

/-- The times that the clock has shown as entries were made. -/
def readings (events : List (Scheduler × Event)) : List Binary64 :=
  (ledger events).made.map (·.enqueuedAt)

theorem Ledger.Agrees.orderly {maxQueue : Int} {l : Ledger} {q : UpdateQueue}
    (h : l.Agrees maxQueue q) (hmax : 0 ≤ q.maxQueue) : q.Orderly where
  room := h.capacity ▸ h.room (h.capacity ▸ hmax)
  sequences := by
    obtain ⟨made, hperm, hsub⟩ : q.entries.Subperm l.made :=
      (List.sublist_append_left _ _).subperm.trans h.accounted
    exact (hperm.map _).nodup ((hsub.map _).nodup h.nodup_sequences)
  below e he := h.sequence_lt (h.mem_made he)

/-- Whatever was done to a scheduler that holds no less than nothing, enqueueing a node does nothing
at all while the node waits at a higher priority.  Otherwise it makes an entry of a new number with
what it was given, and touches nothing but the queue: the entry takes the place of the one that its
node had, and just if that would exceed what the queue may hold, the one entry is dropped and
counted that is least by priority, time and number.  If the clock has not run backwards, the new
entry waits then, unless the queue was full of other nodes, each with a higher priority. -/
theorem enqueue_of_course {batchSize : Nat} {maxQueue : Int} {mode : YieldMode} {r : Reply Answer ε}
    {events : List (Scheduler × Event)} {c : Running ε}
    (course : Course ⟨create batchSize maxQueue mode, [], r⟩ events c)
    (room : 0 ≤ c.state.queue.maxQueue) (now : Binary64) (node : String) (priority : Priority)
    (source : Option String) :
    ((∃ e ∈ c.state.queue.entries, e.node = node ∧ priority.rank < e.priority.rank) →
      c.state.enqueue now node priority source = (c.state, none, [])) ∧
    ((¬ ∃ e ∈ c.state.queue.entries, e.node = node ∧ priority.rank < e.priority.rank) →
      ∃ fresh queue dropped,
        c.state.enqueue now node priority source = ({ c.state with queue }, some fresh, dropped) ∧
        fresh = ⟨node, priority, source, now, c.state.queue.nextSequence⟩ ∧
        (∀ e ∈ (ledger events).made, e.sequence < fresh.sequence) ∧
        c.state.queue.Admits (c.state.queue.entries.filter (·.node != node) ++ [fresh])
          queue dropped ∧
        ((readings events ++ [now]).Pairwise (· ≤ ·) →
          (fresh ∈ queue.entries ↔
            ¬ ((c.state.queue.entries.length : Int) = c.state.queue.maxQueue ∧
              node ∉ c.state.queue.nodes ∧
              ∀ e ∈ c.state.queue.entries, priority.rank < e.priority.rank)))) := by
  have hl := course.agrees (Ledger.agrees_empty maxQueue)
  have horderly := hl.orderly room
  refine ⟨fun ⟨e, he, hnode, hrank⟩ => ?_, fun hfree => ?_⟩
  · rw [Scheduler.enqueue, UpdateQueue.enqueue_of_covered he hnode hrank]
  · obtain ⟨queue, dropped, henqueue, hadmits⟩ := horderly.admits now source room
      fun e he hnode => Nat.le_of_not_lt fun hrank => hfree ⟨e, he, hnode, hrank⟩
    refine ⟨_, queue, dropped, by rw [Scheduler.enqueue, henqueue], rfl, fun e he => ?_, hadmits,
      fun hclock => ?_⟩
    · exact hl.sequence_lt he
    · refine horderly.mem_admitted_iff (fun e he => ?_) hadmits
      obtain ⟨-, -, hle⟩ := List.pairwise_append.mp hclock
      exact hle _ (List.mem_map_of_mem (hl.mem_made he)) now (List.mem_singleton_self now)

/-- Where there is room for two, an update at the least priority overflows: it is not the new one
but the older one of its priority. -/
theorem enqueue_of_course_full : ∃ events, ∃ c : Running Unit,
    Course ⟨create 1 2 .manual, [], .returned .done⟩ events c ∧
      c.state.queue.nodes = ["a", "b"] ∧
      ∃ fresh queue dropped,
        c.state.enqueue 1 "c" .low none = ({ c.state with queue }, some fresh, dropped) ∧
        fresh ∈ queue.entries ∧ dropped.map (·.node) = ["a"] := by
  have hfree : Free [] := trivial
  have hstart : Course (⟨create 1 2 .manual, [], .returned .done⟩ : Running Unit) [] _ := .refl
  have hcourse := (hstart.tail (.enqueue hfree 0 "a" .low none)).tail
    (.enqueue hfree 0 "b" .normal none)
  obtain ⟨fresh, queue, dropped, henqueue, -, -, -, hmem⟩ :=
    (enqueue_of_course hcourse (by decide +kernel) 1 "c" .low none).2 (by decide +kernel)
  refine ⟨_, _, hcourse, by decide +kernel, fresh, queue, dropped, henqueue, ?_, ?_⟩
  · exact (hmem (by decide +kernel)).mpr (by decide +kernel)
  · have hdropped := congrArg (fun p => p.2.2.map (·.node)) henqueue
    exact hdropped.symm.trans (by decide +kernel)

end Scheduler

end LiveForm
