import LiveForm.Proofs.Schedule.Queue
import Mathlib.Data.List.Basic

/-!
# Entries in slots

A queue whose entries are found by node and priority only: each is put in the slot of that name, and
whatever is removed is removed by the name of a slot.  As long as no node waits twice such a table
holds the entries of the queue, each in its own slot, through all that is done to it
(`enqueue_keyed`, `take_keyed`), and what overflows is the same.
-/

namespace LiveForm

/-- The place of an entry: a node and a priority. -/
abbrev Slot := String × Priority

def QueueEntry.slot (e : QueueEntry) : Slot := (e.node, e.priority)

theorem Priority.mem_all (p : Priority) : p ∈ Priority.all := by
  cases p <;> decide

/-- Entries in slots, in the order in which they were put there. -/
abbrev SlotTable := List (Slot × QueueEntry)

namespace SlotTable

def entries (t : SlotTable) : List QueueEntry := t.map (·.2)

def occupied (t : SlotTable) (k : Slot) : Bool := t.any (·.1 == k)

/-- Takes what is in a slot out of it. -/
def vacate (t : SlotTable) (k : Slot) : SlotTable := t.filter (·.1 != k)

/-- Vacates slots until the other entries fit, at most so many; gives what was in them. -/
def trim (maxQueue : Int) : (most : Nat) → SlotTable → SlotTable × List QueueEntry
  | 0, t => (t, [])
  | n + 1, t =>
    if (t.length : Int) ≤ maxQueue then (t, [])
    else match UpdateQueue.victim? t.entries with
      | none => (t, [])
      | some v =>
        let (t, vs) := trim maxQueue n (vacate t v.slot)
        (t, v :: vs)

/-- The node of the entry has a slot of higher priority. -/
def covered (t : SlotTable) (e : QueueEntry) : Bool :=
  Priority.all.any fun p => decide (e.priority.rank < p.rank) && occupied t (e.node, p)

/-- Vacates the slots of the entry's node with lower priorities, and that of the entry. -/
def makeWay (t : SlotTable) (e : QueueEntry) : SlotTable :=
  let lower := Priority.all.filter fun p => decide (p.rank < e.priority.rank)
  vacate (lower.foldl (fun t p => vacate t (e.node, p)) t) e.slot

/-- Puts an entry in its slot, unless its node has one of higher priority.  Gives what
overflowed. -/
def enqueue (t : SlotTable) (maxQueue : Int) (e : QueueEntry) : SlotTable × List QueueEntry :=
  if covered t e then (t, [])
  else
    let t := makeWay t e ++ [(e.slot, e)]
    trim maxQueue t.length t

/-- Vacates the slots of the first entries in the order in which they run. -/
def take (t : SlotTable) (limit : Int) : SlotTable :=
  let batch := UpdateQueue.front limit (t.entries.foldl (fun line e => UpdateQueue.lineUp e line) [])
  batch.foldl (fun t e => vacate t e.slot) t

/-- Each of the entries in its own slot. -/
def keyed (es : List QueueEntry) : SlotTable := es.map fun e => (e.slot, e)

variable {es : List QueueEntry}

@[simp] theorem entries_keyed (es : List QueueEntry) : entries (keyed es) = es := by
  rw [entries, keyed, List.map_map]
  exact List.map_id es

@[simp] theorem length_keyed (es : List QueueEntry) : (keyed es).length = es.length :=
  List.length_map _

theorem keyed_concat (es : List QueueEntry) (e : QueueEntry) :
    keyed es ++ [(e.slot, e)] = keyed (es ++ [e]) := by
  rw [keyed, keyed, List.map_append]
  rfl

theorem occupied_keyed {k : Slot} : occupied (keyed es) k = true ↔ ∃ e ∈ es, e.slot = k := by
  simp [occupied, keyed]

theorem vacate_keyed (es : List QueueEntry) (k : Slot) :
    vacate (keyed es) k = keyed (es.filter (·.slot != k)) := by
  rw [vacate, keyed, List.filter_map]
  rfl

/-- Vacating several slots leaves the entries that are in none of them. -/
theorem foldl_vacate_keyed {α : Type} (slot : α → Slot) (as : List α) (es : List QueueEntry) :
    as.foldl (fun t a => vacate t (slot a)) (keyed es) =
      keyed (es.filter fun e => !as.any fun a => e.slot == slot a) := by
  induction as generalizing es with
  | nil => exact congrArg keyed (List.filter_eq_self.mpr fun _ _ => rfl).symm
  | cons a as ih =>
    rw [List.foldl_cons, vacate_keyed, ih, List.filter_filter]
    refine congrArg keyed (List.filter_congr fun e _ => ?_)
    rw [List.any_cons, Bool.not_or, Bool.and_comm]
    rfl

/-! ## Where no node waits twice -/

section

variable (h : (es.map (·.node)).Nodup)

include h

theorem slot_inj {e f : QueueEntry} (he : e ∈ es) (hf : f ∈ es) : e.slot = f.slot ↔ e = f := by
  refine ⟨fun hs => ?_, fun hs => hs ▸ rfl⟩
  exact List.inj_on_of_nodup_map h he hf (congrArg Prod.fst hs)

theorem vacate_slot {e : QueueEntry} (he : e ∈ es) :
    vacate (keyed es) e.slot = keyed (es.erase e) := by
  rw [vacate_keyed, h.of_map.erase_eq_filter]
  refine congrArg keyed (List.filter_congr fun f hf => ?_)
  rw [Bool.eq_iff_iff, bne_iff_ne, bne_iff_ne, Ne, slot_inj h hf he]

/-- Taking vacates the slots of what is taken from the queue. -/
theorem take_keyed {q : UpdateQueue} (hq : q.entries = es) (limit : Int) :
    take (keyed es) limit = keyed (q.take limit).2.entries := by
  subst hq
  have hbatch : ∀ f ∈ UpdateQueue.front limit q.pending, f ∈ q.entries := fun f hf =>
    (UpdateQueue.pending_perm q).mem_iff.mp ((UpdateQueue.front_prefix limit _).subset hf)
  rw [take, entries_keyed, foldl_vacate_keyed]
  refine congrArg keyed (List.filter_congr fun e he => congrArg (!·) ?_)
  rw [Bool.eq_iff_iff, List.any_eq_true, List.contains_iff_mem]
  constructor
  · rintro ⟨f, hf, hs⟩
    exact (slot_inj h he (hbatch f hf)).mp (beq_iff_eq.mp hs) ▸ hf
  · exact fun hmem => ⟨e, hmem, beq_self_eq_true _⟩

end

/-- The same entries overflow. -/
theorem trim_keyed {q : UpdateQueue} (h : q.nodes.Nodup) (n : Nat) :
    trim q.maxQueue n (keyed q.entries) = (keyed (q.trim n).1.entries, (q.trim n).2) := by
  induction n generalizing q with
  | zero => rfl
  | succ n ih =>
    rw [trim, UpdateQueue.trim, length_keyed, entries_keyed]
    split
    · rfl
    · cases hv : UpdateQueue.victim? q.entries with
      | none => rfl
      | some v =>
        have hq := ih (q := { q with entries := q.entries.erase v, dropped := q.dropped + 1 })
          ((List.erase_sublist.map _).nodup h)
        dsimp only at hq ⊢
        rw [vacate_slot h (UpdateQueue.victim?_mem hv), hq]

theorem covered_keyed (es : List QueueEntry) (e : QueueEntry) :
    covered (keyed es) e =
      es.any fun f => f.node == e.node && decide (e.priority.rank < f.priority.rank) := by
  rw [covered, Bool.eq_iff_iff]
  simp only [List.any_eq_true, Bool.and_eq_true, decide_eq_true_eq, occupied_keyed, beq_iff_eq]
  constructor
  · rintro ⟨p, -, hp, f, hf, hs⟩
    obtain ⟨hnode, rfl⟩ := Prod.mk.inj hs
    exact ⟨f, hf, hnode, hp⟩
  · rintro ⟨f, hf, hnode, hp⟩
    exact ⟨f.priority, f.priority.mem_all, hp, f, hf, by rw [QueueEntry.slot, hnode]⟩

/-- Unless the entry is covered, all slots of its node are vacated for it. -/
theorem makeWay_keyed {es : List QueueEntry} {e : QueueEntry} (h : ¬ covered (keyed es) e = true) :
    makeWay (keyed es) e = keyed (es.filter fun f => f.node != e.node) := by
  rw [makeWay, foldl_vacate_keyed (fun p => (e.node, p)), vacate_keyed, List.filter_filter]
  refine congrArg keyed (List.filter_congr fun f hf => ?_)
  rw [Bool.eq_iff_iff, Bool.and_eq_true, Bool.not_eq_true', List.any_eq_false, bne_iff_ne,
    bne_iff_ne]
  refine ⟨fun hs hnode => ?_, fun hnode => ?_⟩
  · -- The entry of the node has the same priority or a lower one
    have hle : f.priority.rank ≤ e.priority.rank := by
      by_contra hn
      rw [covered_keyed] at h
      exact h (List.any_eq_true.mpr ⟨f, hf, by simp [hnode]; omega⟩)
    rcases Nat.lt_or_eq_of_le hle with hlt | heq
    · refine hs.2 f.priority (List.mem_filter.mpr ⟨f.priority.mem_all, decide_eq_true hlt⟩) ?_
      rw [QueueEntry.slot, hnode, beq_self_eq_true]
    · refine hs.1 ?_
      rw [QueueEntry.slot, QueueEntry.slot, hnode, Priority.rank_injective heq]
  · have hslot : ∀ p, f.slot ≠ (e.node, p) := fun p hs => hnode (congrArg Prod.fst hs)
    exact ⟨hslot e.priority, fun p _ => by simpa using hslot p⟩

/-- An entry that is put in its slot is enqueued. -/
theorem enqueue_keyed {q : UpdateQueue} (h : q.nodes.Nodup) (now : Binary64) (node : String)
    (priority : Priority) (source : Option String) :
    enqueue (keyed q.entries) q.maxQueue ⟨node, priority, source, now, q.nextSequence⟩ =
      (keyed (q.enqueue now node priority source).1.entries,
        (q.enqueue now node priority source).2.2) := by
  rw [enqueue, UpdateQueue.enqueue]
  by_cases hcovered :
      covered (keyed q.entries) ⟨node, priority, source, now, q.nextSequence⟩ = true
  · rw [if_pos hcovered, if_pos (by rwa [covered_keyed] at hcovered)]
  · rw [if_neg hcovered, if_neg (by rwa [covered_keyed] at hcovered), makeWay_keyed hcovered]
    dsimp only
    rw [keyed_concat, length_keyed]
    exact trim_keyed (q := q.extended now node priority source) (UpdateQueue.nodup_withEntry h) _

end SlotTable

end LiveForm
