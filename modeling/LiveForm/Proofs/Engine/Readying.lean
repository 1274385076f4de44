import LiveForm.Proofs.Engine.Passing

/-!
# Updates that will evaluate their nodes

An update evaluates its node unless the node is its source or has had all its passes.  Where no
output reads another one, nodes are let to wait only by an edit, which gives them their passes back,
or by a linked node before they have had a pass.  So no update is made in vain.
-/

namespace LiveForm.Engine

variable {settings : Settings} {mode : YieldMode} {e e' : Engine} {xs ys : List QueueEntry}

/-- These updates are for registered nodes, each for another one that is not its source and has had
no pass. -/
structure Ready (e : Engine) (xs : List QueueEntry) : Prop where
  nodup : (xs.map (·.node)).Nodup
  registered : ∀ x ∈ xs, x.node ∈ e.registry.ids
  foreign : ∀ x ∈ xs, x.source ≠ some x.node
  fresh : ∀ x ∈ xs, x.node ∉ e.passes.map (·.1)

namespace Ready

theorem perm (h : Ready e xs) (hp : ys.Perm xs) : Ready e ys where
  nodup := (hp.map QueueEntry.node).nodup_iff.mpr h.nodup
  registered x hx := h.registered x (hp.mem_iff.mp hx)
  foreign x hx := h.foreign x (hp.mem_iff.mp hx)
  fresh x hx := h.fresh x (hp.mem_iff.mp hx)

theorem congr (h : Ready e xs) (hids : e'.registry.ids = e.registry.ids)
    (hpasses : ∀ id ∈ e'.passes.map (·.1), id ∈ e.passes.map (·.1)) : Ready e' xs where
  nodup := h.nodup
  registered x hx := hids ▸ h.registered x hx
  foreign := h.foreign
  fresh x hx hmem := h.fresh x hx (hpasses _ hmem)

/-- The other updates are ready when the node of the first one has had a pass. -/
theorem tail {x : QueueEntry} (h : Ready e (x :: xs)) (hids : e'.registry.ids = e.registry.ids)
    (hpasses : ∀ id ∈ e'.passes.map (·.1), id = x.node ∨ id ∈ e.passes.map (·.1)) :
    Ready e' xs := by
  obtain ⟨hnode, hnodup⟩ := List.nodup_cons.mp h.nodup
  refine ⟨hnodup, fun y hy => hids ▸ h.registered y (List.mem_cons_of_mem _ hy),
    fun y hy => h.foreign y (List.mem_cons_of_mem _ hy), fun y hy hmem => ?_⟩
  rcases hpasses _ hmem with heq | hmem
  · exact hnode (List.mem_map.mpr ⟨y, hy, heq⟩)
  · exact h.fresh y (List.mem_cons_of_mem _ hy) hmem

/-- A node that is let to wait is ready if it has had no pass. -/
theorem enqueue (h : Ready e e.scheduler.line)
    (hroom : (e.registry.ids.length : Int) ≤ e.scheduler.queue.maxQueue) {id : String}
    (hid : id ∈ e.registry.ids) (hflight : id ∉ e.scheduler.inFlight.map (·.node))
    (hfresh : id ∉ e.passes.map (·.1)) {source : Option String} (hsource : source ≠ some id)
    (priority : Priority) :
    Ready (e.enqueue id priority source) (e.enqueue id priority source).scheduler.line ∧
      ∀ other, other ∈ (e.enqueue id priority source).scheduler.line.map (·.node) ↔
        other = id ∨ other ∈ e.scheduler.line.map (·.node) := by
  have hids : ∀ other ∈ e.scheduler.line.map (·.node), other ∈ e.registry.ids := by
    intro other hother
    obtain ⟨x, hx, rfl⟩ := List.mem_map.mp hother
    exact h.registered x hx
  have hwith := Scheduler.length_withEntry_le h.nodup hids hid e.now priority source
  have hroom' : ((e.scheduler.queue.withEntry e.now id priority source).length : Int) ≤
      e.scheduler.queue.maxQueue := Int.le_trans (Int.ofNat_le.mpr hwith) hroom
  obtain ⟨hnodes, hentries⟩ := UpdateQueue.mem_enqueue hroom'
  have hnodup : (e.scheduler.queue.enqueue e.now id priority source).1.nodes.Nodup := by
    refine UpdateQueue.nodup_enqueue ?_
    have hline := h.nodup
    rw [Scheduler.line, List.map_append] at hline
    exact (List.nodup_append.mp hline).2.1
  have hline : (e.enqueue id priority source).scheduler.line =
      e.scheduler.inFlight ++ (e.scheduler.queue.enqueue e.now id priority source).1.entries := rfl
  have hmem : ∀ x ∈ (e.enqueue id priority source).scheduler.line,
      x ∈ e.scheduler.line ∨ x.node = id ∧ x.source = source := by
    intro x hx
    rw [hline] at hx
    rcases List.mem_append.mp hx with hx | hx
    · exact Or.inl (List.mem_append_left _ hx)
    · exact (hentries x hx).imp_left (List.mem_append_right _)
  refine ⟨⟨?_, fun x hx => ?_, fun x hx => ?_, fun x hx => ?_⟩, fun other => ?_⟩
  · rw [hline, List.map_append]
    have hold := h.nodup
    rw [Scheduler.line, List.map_append] at hold
    obtain ⟨hfront, -, hdisjoint⟩ := List.nodup_append.mp hold
    refine List.nodup_append.mpr ⟨hfront, hnodup, ?_⟩
    rintro a ha b hb rfl
    rcases (hnodes a).mp hb with rfl | hb
    · exact hflight ha
    · exact hdisjoint a ha a hb rfl
  · rcases hmem x hx with hx | ⟨rfl, -⟩
    · exact h.registered x hx
    · exact hid
  · rcases hmem x hx with hx | ⟨rfl, hown⟩
    · exact h.foreign x hx
    · rw [hown]
      exact hsource
  · rcases hmem x hx with hx | ⟨rfl, -⟩
    · exact h.fresh x hx
    · exact hfresh
  · rw [hline, List.map_append, List.mem_append, Scheduler.line, List.map_append, List.mem_append]
    have hnodes' := hnodes other
    rw [UpdateQueue.nodes, UpdateQueue.nodes] at hnodes'
    rw [hnodes', or_left_comm]

/-- Between batches nodes that are scheduled are ready, since they have their passes back. -/
theorem schedule (h : Ready e e.scheduler.line)
    (hroom : (e.registry.ids.length : Int) ≤ e.scheduler.queue.maxQueue)
    (hflight : e.scheduler.inFlight = []) {ids : List String}
    (hids : ∀ id ∈ ids, id ∈ e.registry.ids) {source : Option String}
    (hsource : ∀ id ∈ ids, source ≠ some id) (priority : Priority) (scope : Option String) :
    Ready (e.schedule ids priority source scope)
        (e.schedule ids priority source scope).scheduler.line ∧
      ∀ other, other ∈ (e.schedule ids priority source scope).scheduler.line.map (·.node) ↔
        other ∈ ids ∨ other ∈ e.scheduler.line.map (·.node) := by
  suffices hall : ∀ (ids : List String) (e : Engine), Ready e e.scheduler.line →
      (e.registry.ids.length : Int) ≤ e.scheduler.queue.maxQueue → e.scheduler.inFlight = [] →
      (∀ id ∈ ids, id ∈ e.registry.ids) → (∀ id ∈ ids, source ≠ some id) →
      let e' := ids.foldl (fun e id =>
        { e with passes := e.passes.filter (·.1 != id) }.enqueue id priority source) e
      Ready e' e'.scheduler.line ∧ ∀ other, other ∈ e'.scheduler.line.map (·.node) ↔
        other ∈ ids ∨ other ∈ e.scheduler.line.map (·.node) from
    hall ids { e with scope := _ } (h.congr rfl fun _ hid => hid) hroom hflight hids hsource
  intro ids
  induction ids with
  | nil =>
    intro e h _ _ _ _
    exact ⟨h, fun other => (or_iff_right List.not_mem_nil).symm⟩
  | cons id ids ih =>
    intro e h hroom hflight hids hsource
    have hpasses : ∀ other ∈ (e.passes.filter (·.1 != id)).map (·.1),
        other ∈ e.passes.map (·.1) := fun other hother =>
      (List.filter_sublist.map Prod.fst).subset hother
    have hfresh : id ∉ (e.passes.filter (·.1 != id)).map (·.1) := by
      intro hid
      obtain ⟨p, hp, rfl⟩ := List.mem_map.mp hid
      simpa using (List.mem_filter.mp hp).2
    have hnone : id ∉ e.scheduler.inFlight.map (·.node) := by
      rw [hflight]
      exact List.not_mem_nil
    obtain ⟨hready, hnodes⟩ := Ready.enqueue (e := { e with
        passes := e.passes.filter (·.1 != id) }) (h.congr rfl hpasses) hroom
      (hids id List.mem_cons_self) hnone hfresh (hsource id List.mem_cons_self) priority
    obtain ⟨hready', hnodes'⟩ := ih _ hready
      (UpdateQueue.enqueue_maxQueue.symm ▸ hroom) hflight
      (fun other hother => hids other (List.mem_cons_of_mem _ hother))
      (fun other hother => hsource other (List.mem_cons_of_mem _ hother))
    refine ⟨hready', fun other => ?_⟩
    rw [List.foldl_cons, hnodes' other, hnodes other, List.mem_cons, or_left_comm, or_assoc]

/-- A change is passed on to nodes that have had no pass, where nobody reads the node. -/
theorem passed (h : Ready e e.scheduler.line)
    (hroom : (e.registry.ids.length : Int) ≤ e.scheduler.queue.maxQueue)
    (horder : ∀ peer ∈ e.links.order, peer ∈ e.registry.ids) {n : OutputNode}
    (hself : n.id ∉ n.linked) (hreaders : e.links.graph.successors n.id = [])
    (source : Option String) :
    Ready (e.passed n source) (e.passed n source).scheduler.line ∧
      ∀ other ∈ e.scheduler.line.map (·.node), other ∈ (e.passed n source).scheduler.line.map
        (·.node) := by
  rw [Engine.passed, hreaders]
  suffices hall : ∀ (peers : List String) (e : Engine), Ready e e.scheduler.line →
      (e.registry.ids.length : Int) ≤ e.scheduler.queue.maxQueue →
      (∀ peer ∈ peers, peer ∈ e.registry.ids) →
      Ready (peers.foldl (passOn n source []) e)
          (peers.foldl (passOn n source []) e).scheduler.line ∧
        ∀ other ∈ e.scheduler.line.map (·.node),
          other ∈ (peers.foldl (passOn n source []) e).scheduler.line.map (·.node) from
    hall _ e h hroom horder
  intro peers
  induction peers with
  | nil => exact fun e h _ _ => ⟨h, fun _ hother => hother⟩
  | cons peer peers ih =>
    intro e h hroom horder
    rw [List.foldl_cons]
    have hnext : Ready (passOn n source [] e peer) (passOn n source [] e peer).scheduler.line ∧
        ∀ other ∈ e.scheduler.line.map (·.node),
          other ∈ (passOn n source [] e peer).scheduler.line.map (·.node) := by
      unfold passOn
      split
      · next hhears =>
        simp only [hears, Bool.and_eq_true, Bool.not_eq_true', List.contains_nil, Bool.not_false,
          Bool.and_true] at hhears
        obtain ⟨⟨⟨⟨hlinked, -⟩, -⟩, hpending⟩, hpasses⟩ := hhears
        have hpeer : some n.id ≠ some peer := fun heq =>
          hself (Option.some.inj heq ▸ List.contains_iff_mem.mp hlinked)
        have hline : peer ∉ e.scheduler.line.map (·.node) := fun hmem => by
          rw [Scheduler.isPending_iff.mpr hmem] at hpending
          cases hpending
        have hflight : peer ∉ e.scheduler.inFlight.map (·.node) := fun hmem => hline (by
          rw [Scheduler.line, List.map_append]
          exact List.mem_append_left _ hmem)
        have hfresh : peer ∉ e.passes.map (·.1) := fun hmem => by
          obtain ⟨p, hp, rfl⟩ := List.mem_map.mp hmem
          have hany := List.any_eq_false.mp hpasses p hp
          simp at hany
        obtain ⟨hready, hnodes⟩ := h.enqueue hroom (horder peer List.mem_cons_self) hflight hfresh
          hpeer .high
        exact ⟨hready, fun other hother => (hnodes other).mpr (Or.inr hother)⟩
      · exact ⟨h, fun _ hother => hother⟩
    obtain ⟨⟨queue, ns, heq⟩, hmax, -⟩ := queued_passOn n source [] e peer
    obtain ⟨hready, hnodes⟩ := ih (passOn n source [] e peer) hnext.1
      (by rw [hmax, heq]; exact hroom)
      (by rw [heq]; exact fun other hother => horder other (List.mem_cons_of_mem _ hother))
    exact ⟨hready, fun other hother => hnodes other (hnext.2 other hother)⟩

end Ready

end LiveForm.Engine
