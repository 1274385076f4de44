import LiveForm.Proofs.Number.Binary64
import LiveForm.Schedule.Queue
import Mathlib.Data.List.Induction
import Mathlib.Data.List.Perm.Basic
import Mathlib.Data.List.Nodup
import Mathlib.Tactic.Common

/-!
# What the operations of the queue do

An update that is enqueued waits in the place of the one that its node had, if there is room for
it.  Updates of one moment are taken by priority, and within a priority in the order in which they
were enqueued.
-/

namespace LiveForm.UpdateQueue

variable {q : UpdateQueue} {now : Binary64} {node : String} {priority : Priority}
  {source : Option String}

/-- The nodes that wait. -/
def nodes (q : UpdateQueue) : List String := q.entries.map (·.node)

theorem waits_iff {node : String} : q.waits node = true ↔ node ∈ q.nodes := by
  simp [waits, nodes]

/-! ## Enqueueing -/

theorem trim_eq_self {n : Nat} (h : (q.entries.length : Int) ≤ q.maxQueue) :
    q.trim n = (q, []) := by
  cases n with
  | zero => rfl
  | succ n => rw [trim, if_pos h]

theorem victim?_mem {es : List QueueEntry} {v : QueueEntry} (h : victim? es = some v) : v ∈ es := by
  have hfold : ∀ (es : List QueueEntry) (v : QueueEntry),
      es.foldl (fun v e => if e.dropsBefore v then e else v) v ∈ v :: es := by
    intro es
    induction es with
    | nil => exact fun v => List.mem_singleton_self v
    | cons e es ih =>
      intro v
      rw [List.foldl_cons]
      rcases List.mem_cons.mp (ih (if e.dropsBefore v then e else v)) with hv | hv
      · rw [hv]
        split <;> simp
      · exact List.mem_cons_of_mem _ (List.mem_cons_of_mem _ hv)
  cases es with
  | nil => cases h
  | cons e es =>
    cases h
    exact hfold es e

theorem trim_sublist (n : Nat) (q : UpdateQueue) :
    (q.trim n).1.entries.Sublist q.entries ∧ (q.trim n).1.maxQueue = q.maxQueue ∧
      (q.trim n).1.nextSequence = q.nextSequence := by
  induction n generalizing q with
  | zero => exact ⟨List.Sublist.refl _, rfl, rfl⟩
  | succ n ih =>
    rw [trim]
    split
    · exact ⟨List.Sublist.refl _, rfl, rfl⟩
    · split
      · exact ⟨List.Sublist.refl _, rfl, rfl⟩
      · next v _ =>
        obtain ⟨hs, hm, hn⟩ :=
          ih { q with entries := q.entries.erase v, dropped := q.dropped + 1 }
        exact ⟨hs.trans List.erase_sublist, hm, hn⟩

/-- What is left and what is dropped are what there was, and all that is dropped is counted. -/
theorem trim_perm (n : Nat) (q : UpdateQueue) :
    ((q.trim n).1.entries ++ (q.trim n).2).Perm q.entries ∧
      (q.trim n).1.dropped = q.dropped + (q.trim n).2.length := by
  induction n generalizing q with
  | zero => exact ⟨.of_eq (List.append_nil _), rfl⟩
  | succ n ih =>
    rw [trim]
    split
    · exact ⟨.of_eq (List.append_nil _), rfl⟩
    · cases hv : victim? q.entries with
      | none => exact ⟨.of_eq (List.append_nil _), rfl⟩
      | some v =>
        obtain ⟨hperm, hdropped⟩ :=
          ih { q with entries := q.entries.erase v, dropped := q.dropped + 1 }
        refine ⟨?_, ?_⟩
        · refine List.perm_middle.trans ?_
          exact (hperm.cons v).trans (List.perm_cons_erase (victim?_mem hv)).symm
        · dsimp only at hdropped ⊢
          rw [hdropped, List.length_cons]
          omega

/-- Enough entries are dropped, unless not even an empty queue fits. -/
theorem trim_fits {n : Nat} (hq : 0 ≤ q.maxQueue) (hn : q.entries.length ≤ n) :
    ((q.trim n).1.entries.length : Int) ≤ q.maxQueue := by
  induction n generalizing q with
  | zero =>
    rw [trim, Nat.le_zero.mp hn]
    exact hq
  | succ n ih =>
    rw [trim]
    split
    · assumption
    · next hfull =>
      cases hv : victim? q.entries with
      | none =>
        cases he : q.entries with
        | nil => simpa [he] using hq
        | cons e es =>
          rw [he] at hv
          cases hv
      | some v =>
        have hlength := List.length_erase_of_mem (victim?_mem hv)
        exact ih (q := { q with entries := q.entries.erase v, dropped := q.dropped + 1 }) hq
          (by dsimp only; omega)

/-- The entries that an enqueued update leaves alone, and the update. -/
def withEntry (q : UpdateQueue) (now : Binary64) (node : String) (priority : Priority)
    (source : Option String) : List QueueEntry :=
  (q.entries.filter fun e => e.node != node) ++ [⟨node, priority, source, now, q.nextSequence⟩]

/-- The queue with an update in it, whether there is room for it or not. -/
def extended (q : UpdateQueue) (now : Binary64) (node : String) (priority : Priority)
    (source : Option String) : UpdateQueue :=
  { q with entries := q.withEntry now node priority source, nextSequence := q.nextSequence + 1 }

variable (q now node priority source) in
theorem enqueue_sublist :
    (q.enqueue now node priority source).1.entries = q.entries ∨
      (q.enqueue now node priority source).1.entries.Sublist
        (q.withEntry now node priority source) := by
  rw [enqueue]
  split
  · exact Or.inl rfl
  · exact Or.inr (trim_sublist _ _).1

variable (q now node priority source) in
/-- All that enqueueing can do: nothing, or there is a new entry, in the place of the one of its
node, and what does not fit beside it is dropped. -/
theorem enqueue_cases :
    q.enqueue now node priority source = (q, none, []) ∨
      ∃ q' dropped, q.enqueue now node priority source =
          (q', some ⟨node, priority, source, now, q.nextSequence⟩, dropped) ∧
        (q'.entries ++ dropped).Perm (q.withEntry now node priority source) ∧
        q'.maxQueue = q.maxQueue ∧ q'.nextSequence = q.nextSequence + 1 ∧
        q'.dropped = q.dropped + dropped.length ∧
        (0 ≤ q.maxQueue → (q'.entries.length : Int) ≤ q.maxQueue) := by
  rw [enqueue]
  split
  · exact Or.inl rfl
  · refine Or.inr ⟨_, _, rfl, ?_⟩
    obtain ⟨-, hmax, hnext⟩ := trim_sublist (q.withEntry now node priority source).length
      (q.extended now node priority source)
    obtain ⟨hperm, hdropped⟩ := trim_perm (q.withEntry now node priority source).length
      (q.extended now node priority source)
    exact ⟨hperm, hmax, hnext, hdropped, fun hq => trim_fits hq (Nat.le_refl _)⟩

theorem enqueue_maxQueue :
    (q.enqueue now node priority source).1.maxQueue = q.maxQueue := by
  rw [enqueue]
  split
  · rfl
  · exact (trim_sublist _ _).2.1

/-- An update changes nothing while its node waits at a higher priority. -/
theorem enqueue_of_covered {e : QueueEntry} (he : e ∈ q.entries) (hnode : e.node = node)
    (hrank : priority.rank < e.priority.rank) :
    q.enqueue now node priority source = (q, none, []) := by
  rw [enqueue, if_pos]
  refine List.any_eq_true.mpr ⟨e, he, ?_⟩
  rw [Bool.and_eq_true, beq_iff_eq, decide_eq_true_eq]
  exact ⟨hnode, hrank⟩

/-- An update that no higher one covers waits behind the others, as far as there is room. -/
theorem enqueue_of_free (hfree : ∀ e ∈ q.entries, e.node = node → e.priority.rank ≤ priority.rank) :
    q.enqueue now node priority source =
      (((q.extended now node priority source).trim
          (q.withEntry now node priority source).length).1,
        some ⟨node, priority, source, now, q.nextSequence⟩,
        ((q.extended now node priority source).trim
          (q.withEntry now node priority source).length).2) := by
  rw [enqueue, if_neg]
  · rfl
  · simp only [List.any_eq_true, Bool.and_eq_true, beq_iff_eq, decide_eq_true_eq, not_exists,
      not_and, Nat.not_lt]
    exact hfree

/-- With room for it, an update that no higher one covers waits behind the others. -/
theorem enqueue_of_room (hroom : ((q.withEntry now node priority source).length : Int) ≤ q.maxQueue)
    (hfree : ∀ e ∈ q.entries, e.node = node → e.priority.rank ≤ priority.rank) :
    q.enqueue now node priority source =
      (q.extended now node priority source,
        some ⟨node, priority, source, now, q.nextSequence⟩, []) := by
  rw [enqueue_of_free hfree, trim_eq_self (by exact hroom)]

variable (now priority source) in
theorem withEntry_of_not_mem (h : node ∉ q.nodes) :
    q.withEntry now node priority source =
      q.entries ++ [⟨node, priority, source, now, q.nextSequence⟩] := by
  rw [withEntry, List.filter_eq_self.mpr]
  intro e he
  rw [bne_iff_ne]
  rintro rfl
  exact h (List.mem_map_of_mem he)

variable (now priority source) in
/-- With room for it, the update of a node that does not wait waits behind the others. -/
theorem enqueue_fresh (hroom : ((q.entries.length + 1 : Nat) : Int) ≤ q.maxQueue)
    (hfresh : node ∉ q.nodes) :
    (q.enqueue now node priority source).1 = { q with
      entries := q.entries ++ [⟨node, priority, source, now, q.nextSequence⟩]
      nextSequence := q.nextSequence + 1 } := by
  have hentries := withEntry_of_not_mem now priority source hfresh
  rw [enqueue_of_room, extended, hentries]
  · rw [hentries, List.length_append]
    exact hroom
  · rintro e he rfl
    exact absurd (List.mem_map_of_mem he) hfresh

theorem nodes_withEntry :
    (q.withEntry now node priority source).map (·.node) =
      (q.nodes.filter (· != node)) ++ [node] := by
  rw [withEntry, List.map_append, nodes, List.filter_map]
  rfl

/-- With room for it, an enqueued node waits beside those that did, and no entry is new but its. -/
theorem mem_enqueue (hroom : ((q.withEntry now node priority source).length : Int) ≤ q.maxQueue) :
    (∀ id, id ∈ (q.enqueue now node priority source).1.nodes ↔ id = node ∨ id ∈ q.nodes) ∧
      ∀ x ∈ (q.enqueue now node priority source).1.entries,
        x ∈ q.entries ∨ x.node = node ∧ x.source = source := by
  by_cases hcovered : ∃ e ∈ q.entries, e.node = node ∧ priority.rank < e.priority.rank
  · -- A higher update of the node stays as it is
    obtain ⟨e, he, hnode, hrank⟩ := hcovered
    have hwaits : node ∈ q.nodes := hnode ▸ List.mem_map_of_mem he
    rw [enqueue_of_covered he hnode hrank]
    exact ⟨fun id => ⟨Or.inr, fun hid => hid.elim (fun he => he ▸ hwaits) fun hw => hw⟩,
      fun x hx => Or.inl hx⟩
  · have hfree : ∀ e ∈ q.entries, e.node = node → e.priority.rank ≤ priority.rank :=
      fun e he hnode => Nat.le_of_not_lt fun hrank => hcovered ⟨e, he, hnode, hrank⟩
    rw [enqueue_of_room hroom hfree]
    refine ⟨fun id => ?_, fun x hx => ?_⟩
    · show id ∈ (q.withEntry now node priority source).map (·.node) ↔ _
      rw [nodes_withEntry, List.mem_append, List.mem_filter, List.mem_singleton, bne_iff_ne]
      by_cases hid : id = node
      · exact ⟨fun _ => Or.inl hid, fun _ => Or.inr hid⟩
      · exact ⟨fun h => Or.inr (h.resolve_right hid).1, fun h => Or.inl ⟨h.resolve_left hid, hid⟩⟩
    · rcases List.mem_append.mp hx with hx | hx
      · exact Or.inl (List.mem_of_mem_filter hx)
      · rw [List.mem_singleton.mp hx]
        exact Or.inr ⟨rfl, rfl⟩

theorem nodup_withEntry (h : q.nodes.Nodup) :
    ((q.withEntry now node priority source).map (·.node)).Nodup := by
  rw [nodes_withEntry]
  refine List.nodup_append.mpr ⟨h.filter _, List.nodup_singleton _, ?_⟩
  rintro a ha b hb rfl
  rw [List.mem_singleton.mp hb] at ha
  simp at ha

/-- Each node goes on to wait at most once. -/
theorem nodup_enqueue (h : q.nodes.Nodup) :
    (q.enqueue now node priority source).1.nodes.Nodup := by
  rcases q.enqueue_sublist now node priority source with he | hs
  · rw [nodes, he]
    exact h
  · exact (hs.map (·.node)).nodup (nodup_withEntry h)

/-! ## The order in which updates run -/

theorem lineUp_perm (e : QueueEntry) (es : List QueueEntry) : (lineUp e es).Perm (e :: es) := by
  induction es with
  | nil => exact .refl _
  | cons f fs ih =>
    rw [lineUp]
    split
    · exact .refl _
    · exact (ih.cons f).trans (.swap e f fs)

theorem pending_perm (q : UpdateQueue) : q.pending.Perm q.entries := by
  suffices h : ∀ es line : List QueueEntry,
      (es.foldl (fun line e => lineUp e line) line).Perm (line ++ es) by
    exact h q.entries []
  intro es
  induction es with
  | nil =>
    intro line
    rw [List.foldl_nil, List.append_nil]
  | cons e es ih =>
    intro line
    rw [List.foldl_cons]
    refine (ih _).trans ?_
    refine ((lineUp_perm e line).append_right es).trans ?_
    exact List.perm_middle.symm

theorem front_prefix (limit : Int) (es : List QueueEntry) : front limit es <+: es := by
  rw [front]
  split
  · exact List.take_prefix _ _
  · exact List.take_prefix _ _

theorem filter_not_contains {front rest : List QueueEntry} (h : (front ++ rest).Nodup) :
    (front ++ rest).filter (!front.contains ·) = rest := by
  have hfront : ∀ e ∈ front, ¬ (!front.contains e) = true := by
    intro e he
    simpa using he
  have hrest : ∀ e ∈ rest, (!front.contains e) = true := by
    intro e he
    rw [Bool.not_eq_true', List.contains_eq_mem, decide_eq_false_iff_not]
    exact fun hmem => (List.nodup_append.mp h).2.2 e hmem e he rfl
  rw [List.filter_append, List.filter_eq_nil_iff.mpr hfront, List.nil_append,
    List.filter_eq_self.mpr hrest]

/-- What is taken is in front of what is pending, and what is not taken is left. -/
theorem exists_of_take (h : q.nodes.Nodup) (limit : Int) :
    ∃ rest, (q.take limit).1 ++ rest = q.pending ∧
      q.pending.filter (!(q.take limit).1.contains ·) = rest := by
  obtain ⟨rest, hrest⟩ := front_prefix limit q.pending
  refine ⟨rest, hrest, ?_⟩
  have hnodup : (front limit q.pending ++ rest).Nodup := by
    rw [hrest]
    exact (pending_perm q).symm.nodup h.of_map
  have hfilter := filter_not_contains hnodup
  rw [hrest] at hfilter
  exact hfilter

/-- What is taken and what is left are what there was. -/
theorem take_perm (h : q.nodes.Nodup) (limit : Int) :
    ((q.take limit).1 ++ (q.take limit).2.entries).Perm q.entries := by
  obtain ⟨rest, hrest, hleft⟩ := exists_of_take h limit
  have hperm := (pending_perm q).filter (!(q.take limit).1.contains ·)
  rw [hleft] at hperm
  have hall := (List.Perm.append_left (q.take limit).1 hperm.symm)
  rw [hrest] at hall
  exact hall.trans (pending_perm q)

theorem take_ne_nil {limit : Nat} (hlimit : 0 < limit) (h : q.entries ≠ []) :
    (q.take limit).1 ≠ [] := by
  have hp : q.pending ≠ [] := fun hp => h (by simpa [hp] using (pending_perm q).symm)
  obtain ⟨e, es, he⟩ := List.exists_cons_of_ne_nil hp
  obtain ⟨n, rfl⟩ := Nat.exists_eq_succ_of_ne_zero (Nat.pos_iff_ne_zero.mp hlimit)
  rw [take, front, if_pos (Int.natCast_nonneg _), he]
  exact List.cons_ne_nil _ _

/-- The entries of one moment, in the order in which they were enqueued. -/
structure OfMoment (q : UpdateQueue) (now : Binary64) : Prop where
  ascending : q.entries.Pairwise (·.sequence < ·.sequence)
  moment : ∀ e ∈ q.entries, e.enqueuedAt = now
  below : ∀ e ∈ q.entries, e.sequence < q.nextSequence

theorem older_of_ascending {a b : QueueEntry} (h : a.sequence < b.sequence)
    (hm : a.enqueuedAt = b.enqueuedAt) : b.older a = false := by
  rw [QueueEntry.older, hm, Binary64.lt_irrefl, Bool.false_or, Bool.and_eq_false_iff]
  exact Or.inr (decide_eq_false (by omega))

theorem lineUp_append {e : QueueEntry} {front : List QueueEntry}
    (h : ∀ f ∈ front, e.runsBefore f = false) (back : List QueueEntry) :
    lineUp e (front ++ back) = front ++ lineUp e back := by
  induction front with
  | nil => rfl
  | cons f front ih =>
    rw [List.cons_append, lineUp, if_neg (by simp [h f List.mem_cons_self]),
      ih fun x hx => h x (List.mem_cons_of_mem _ hx), List.cons_append]

theorem lineUp_of_head {e : QueueEntry} {es : List QueueEntry}
    (h : ∀ f ∈ es, e.runsBefore f = true) : lineUp e es = e :: es := by
  cases es with
  | nil => rfl
  | cons f es => rw [lineUp, if_pos (h f List.mem_cons_self)]

/-- An entry is put behind those that it does not run before. -/
theorem exists_of_lineUp (e : QueueEntry) (es : List QueueEntry) :
    ∃ before behind, es = before ++ behind ∧ lineUp e es = before ++ e :: behind ∧
      (∀ f ∈ before, e.runsBefore f = false) ∧ lineUp e behind = e :: behind := by
  induction es with
  | nil => exact ⟨[], [], rfl, rfl, fun _ hf => absurd hf List.not_mem_nil, rfl⟩
  | cons f fs ih =>
    by_cases hruns : e.runsBefore f = true
    · have hline : lineUp e (f :: fs) = e :: f :: fs := if_pos hruns
      exact ⟨[], f :: fs, rfl, hline, fun _ hf => absurd hf List.not_mem_nil, hline⟩
    · obtain ⟨before, behind, rfl, hline, hbefore, hbehind⟩ := ih
      refine ⟨f :: before, behind, rfl, ?_, fun g hg => ?_, hbehind⟩
      · rw [lineUp, if_neg hruns, hline]
        rfl
      · rcases List.mem_cons.mp hg with rfl | hg
        · exact Bool.eq_false_iff.mpr hruns
        · exact hbefore g hg

/-- Without those in front the others wait in the same order. -/
theorem foldl_lineUp_filter {front rest : List QueueEntry} {es : List QueueEntry} (hes : es.Nodup)
    (h : es.foldl (fun line e => lineUp e line) [] = front ++ rest) :
    (es.filter (!front.contains ·)).foldl (fun line e => lineUp e line) [] = rest := by
  induction es using List.reverseRecOn generalizing front rest with
  | nil =>
    obtain ⟨rfl, rfl⟩ := List.append_eq_nil_iff.mp h.symm
    rfl
  | append_singleton es e ih =>
    obtain ⟨hes, -, hdisjoint⟩ := List.nodup_append.mp hes
    have hnew : e ∉ es := fun he => hdisjoint e he e (List.mem_singleton_self e) rfl
    obtain ⟨before, behind, hline, hlined, hbefore, hbehind⟩ :=
      exists_of_lineUp e (es.foldl (fun line e => lineUp e line) [])
    rw [List.foldl_append, List.foldl_cons, List.foldl_nil, hlined] at h
    by_cases hfront : front.length ≤ before.length
    · -- The last one is behind those in front
      obtain ⟨before', rfl⟩ : front <+: before :=
        List.prefix_of_prefix_length_le ⟨rest, h.symm⟩ (List.prefix_append _ _) hfront
      rw [List.append_assoc] at h hline
      have hlast : e ∉ front := fun he => hnew <| (pending_perm { entries := es }).mem_iff.mp <| by
        show e ∈ es.foldl (fun line e => lineUp e line) []
        rw [hline]
        exact List.mem_append_left _ he
      have hfilter : [e].filter (!front.contains ·) = [e] := by simp [hlast]
      rw [List.filter_append, hfilter, List.foldl_append, ih hes hline, List.foldl_cons,
        List.foldl_nil, lineUp_append fun f hf => hbefore f (List.mem_append_right _ hf), hbehind]
      exact List.append_cancel_left h
    · -- It is one of those in front
      have hprefix : before ++ [e] <+: front ++ rest :=
        ⟨behind, by rw [← h, List.append_assoc, List.singleton_append]⟩
      obtain ⟨front', rfl⟩ : before ++ [e] <+: front := by
        refine List.prefix_of_prefix_length_le hprefix (List.prefix_append _ _) ?_
        rw [List.length_append, List.length_singleton]
        omega
      have hrest : behind = front' ++ rest := by simpa using h
      rw [hrest, ← List.append_assoc] at hline
      have hsame : (es ++ [e]).filter (!(before ++ [e] ++ front').contains ·) =
          es.filter (!(before ++ front').contains ·) := by
        rw [List.filter_append]
        have hfilter : [e].filter (!(before ++ [e] ++ front').contains ·) = [] := by simp
        rw [hfilter, List.append_nil]
        refine List.filter_congr fun f hf => ?_
        have hne : f ≠ e := fun he => hnew (he ▸ hf)
        simp [hne]
      rw [hsame]
      exact ih hes hline

/-- When the first entries are taken the others wait in the same order. -/
theorem pending_take (h : q.entries.Nodup) (limit : Int) :
    (q.take limit).1 ++ (q.take limit).2.pending = q.pending := by
  obtain ⟨rest, hrest⟩ := front_prefix limit q.pending
  have hleft : (q.take limit).2.pending = rest := foldl_lineUp_filter h hrest.symm
  rw [hleft]
  exact hrest

/-- The entries of a priority. -/
def ofPriority (p : Priority) (es : List QueueEntry) : List QueueEntry :=
  es.filter (·.priority == p)

/-- The entries by priority. -/
def byPriority (es : List QueueEntry) : List QueueEntry :=
  ofPriority .high es ++ ofPriority .normal es ++ ofPriority .low es

theorem runsBefore_of_not_older {e f : QueueEntry} (h : e.older f = false) :
    e.runsBefore f = decide (f.priority.rank < e.priority.rank) := by
  rw [QueueEntry.runsBefore, h, Bool.and_false, Bool.or_false]

theorem priority_of_mem_ofPriority {p : Priority} {es : List QueueEntry} {f : QueueEntry}
    (h : f ∈ ofPriority p es) : f ∈ es ∧ f.priority = p := by
  obtain ⟨hm, hp⟩ := List.mem_filter.mp h
  exact ⟨hm, beq_iff_eq.mp hp⟩

/-- An entry that came later than all others lines up behind those of its priority. -/
theorem lineUp_byPriority {e : QueueEntry} {es : List QueueEntry}
    (h : ∀ f ∈ es, e.older f = false) : lineUp e (byPriority es) = byPriority (es ++ [e]) := by
  have hbefore {p : Priority} {f : QueueEntry} (hf : f ∈ ofPriority p es) :
      e.runsBefore f = decide (p.rank < e.priority.rank) := by
    obtain ⟨hm, hp⟩ := priority_of_mem_ofPriority hf
    rw [runsBefore_of_not_older (h f hm), hp]
  have hsplit (p : Priority) : ofPriority p (es ++ [e]) =
      ofPriority p es ++ if e.priority == p then [e] else [] := by
    rw [ofPriority, List.filter_append, List.filter_cons, List.filter_nil]
    rfl
  rw [byPriority, byPriority, hsplit, hsplit, hsplit]
  cases hp : e.priority with
  | high =>
    rw [hp] at hbefore
    rw [List.append_assoc, lineUp_append fun f hf => hbefore hf, lineUp_of_head]
    · simp
    · intro f hf
      rcases List.mem_append.mp hf with hf | hf
      · exact hbefore hf
      · exact hbefore hf
  | normal =>
    rw [hp] at hbefore
    rw [lineUp_append, lineUp_of_head fun f hf => hbefore hf]
    · simp
    · intro f hf
      rcases List.mem_append.mp hf with hf | hf
      · exact hbefore hf
      · exact hbefore hf
  | low =>
    rw [hp] at hbefore
    rw [← List.append_nil (_ ++ ofPriority .low es), lineUp_append]
    · simp [lineUp]
    · intro f hf
      rcases List.mem_append.mp hf with hf | hf
      · rcases List.mem_append.mp hf with hf | hf
        · exact hbefore hf
        · exact hbefore hf
      · exact hbefore hf

/-- Entries of one moment run by priority, and within a priority first come, first served. -/
theorem OfMoment.pending_eq (h : q.OfMoment now) : q.pending = byPriority q.entries := by
  have holder : q.entries.Pairwise fun a b => b.older a = false :=
    (List.pairwise_iff_getElem.mpr fun i j hi hj hij => older_of_ascending
      (List.pairwise_iff_getElem.mp h.ascending i j hi hj hij)
      ((h.moment _ (List.getElem_mem hi)).trans (h.moment _ (List.getElem_mem hj)).symm))
  suffices h : ∀ es done : List QueueEntry, (done ++ es).Pairwise (fun a b => b.older a = false) →
      es.foldl (fun line e => lineUp e line) (byPriority done) = byPriority (done ++ es) by
    exact h q.entries [] holder
  intro es
  induction es with
  | nil =>
    intro done _
    rw [List.foldl_nil, List.append_nil]
  | cons e es ih =>
    intro done hp
    have hlast : ∀ f ∈ done, e.older f = false := fun f hf =>
      (List.pairwise_append.mp hp).2.2 f hf e List.mem_cons_self
    rw [List.append_cons] at hp ⊢
    rw [List.foldl_cons, lineUp_byPriority hlast]
    exact ih (done ++ [e]) hp

theorem OfMoment.enqueue (h : q.OfMoment now)
    (hroom : ((q.entries.length + 1 : Nat) : Int) ≤ q.maxQueue) (hfresh : node ∉ q.nodes) :
    (q.enqueue now node priority source).1.OfMoment now := by
  rw [enqueue_fresh now priority source hroom hfresh]
  refine ⟨?_, ?_, ?_⟩
  · refine List.pairwise_append.mpr ⟨h.ascending, List.pairwise_singleton _ _, fun a ha b hb => ?_⟩
    rw [List.mem_singleton.mp hb]
    exact h.below a ha
  · intro e he
    rcases List.mem_append.mp he with he | he
    · exact h.moment e he
    · rw [List.mem_singleton.mp he]
  · intro e he
    rcases List.mem_append.mp he with he | he
    · exact Nat.lt_succ_of_lt (h.below e he)
    · rw [List.mem_singleton.mp he]
      exact Nat.lt_succ_self _

theorem OfMoment.take (h : q.OfMoment now) (limit : Int) : (q.take limit).2.OfMoment now :=
  ⟨h.ascending.filter _, fun e he => h.moment e (List.mem_of_mem_filter he),
    fun e he => h.below e (List.mem_of_mem_filter he)⟩

theorem ofPriority_append (p : Priority) (es fs : List QueueEntry) :
    ofPriority p (es ++ fs) = ofPriority p es ++ ofPriority p fs := List.filter_append _ _

theorem ofPriority_ofPriority (p p' : Priority) (es : List QueueEntry) :
    ofPriority p (ofPriority p' es) = if p' = p then ofPriority p es else [] := by
  unfold ofPriority
  rw [List.filter_filter]
  split
  · next h =>
    subst h
    simp
  · next h =>
    refine List.filter_eq_nil_iff.mpr fun e _ => ?_
    simp only [Bool.and_eq_true, beq_iff_eq]
    exact fun hp => h (hp.2.symm.trans hp.1)

theorem ofPriority_byPriority (p : Priority) (es : List QueueEntry) :
    ofPriority p (byPriority es) = ofPriority p es := by
  rw [byPriority, ofPriority_append, ofPriority_append, ofPriority_ofPriority,
    ofPriority_ofPriority, ofPriority_ofPriority]
  cases p <;> simp

/-- Taking entries keeps the order within a priority. -/
theorem OfMoment.ofPriority_take (h : q.OfMoment now) (hn : q.nodes.Nodup) (limit : Int)
    (p : Priority) :
    ofPriority p ((q.take limit).1 ++ (q.take limit).2.entries) = ofPriority p q.entries := by
  obtain ⟨rest, hrest, hleft⟩ := exists_of_take hn limit
  have hpending : ofPriority p q.pending = ofPriority p q.entries := by
    rw [h.pending_eq, ofPriority_byPriority]
  have hentries : ofPriority p (q.take limit).2.entries = ofPriority p rest := by
    calc ofPriority p (q.take limit).2.entries
        = (ofPriority p q.entries).filter (!(q.take limit).1.contains ·) :=
          List.filter_comm _ _ _
      _ = ofPriority p (q.pending.filter (!(q.take limit).1.contains ·)) := by
          rw [← hpending]
          exact List.filter_comm _ _ _
      _ = ofPriority p rest := by rw [hleft]
  rw [ofPriority_append, hentries, ← ofPriority_append, hrest, hpending]

end LiveForm.UpdateQueue
