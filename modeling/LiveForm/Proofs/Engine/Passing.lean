import LiveForm.Proofs.Engine.Reading

/-!
# Who hears of a change

With room for all nodes a change is passed on to just the linked nodes that hear of it, in order,
and each of them waits then with high priority.
-/

namespace LiveForm.Engine

variable {settings : Settings} {mode : YieldMode} {e e' : Engine} {n : OutputNode}
  {source : Option String} {readers : List String}

/-- A node hears of a change no matter which other nodes wait. -/
theorem hears_congr (hregistry : e'.registry = e.registry) (hscope : e'.scope = e.scope)
    (hpasses : e'.passes = e.passes) {peer : String}
    (hpending : e'.scheduler.isPending peer = e.scheduler.isPending peer) :
    hears n source readers e' peer = hears n source readers e peer := by
  unfold hears
  rw [hregistry, hscope, hpasses, hpending]

/-- What lets nodes wait one after another when there is room for all of them. -/
structure Roomy (ids : List String) (e : Engine) : Prop where
  nodup : (e.scheduler.line.map (·.node)).Nodup
  registered : ∀ id ∈ e.scheduler.line.map (·.node), id ∈ ids
  room : (ids.length : Int) ≤ e.scheduler.queue.maxQueue
  moment : e.scheduler.queue.OfMoment e.now

/-- A node that does not wait is put behind the others. -/
theorem Roomy.enqueue {ids : List String} (h : Roomy ids e) {id : String} (hid : id ∈ ids)
    (hfresh : id ∉ e.scheduler.line.map (·.node)) (priority : Priority) (source : Option String) :
    ∃ entry, entry.node = id ∧ entry.priority = priority ∧ entry.source = source ∧
      (e.enqueue id priority source).scheduler.queue.entries =
        e.scheduler.queue.entries ++ [entry] ∧
      Roomy ids (e.enqueue id priority source) := by
  have hlt := Scheduler.length_lt_of_fresh h.nodup h.registered hid hfresh
  have hroom : ((e.scheduler.queue.entries.length + 1 : Nat) : Int) ≤ e.scheduler.queue.maxQueue :=
    Int.le_trans (Int.ofNat_le.mpr hlt) h.room
  have hnode : id ∉ e.scheduler.queue.nodes := by
    intro hmem
    refine hfresh ?_
    rw [Scheduler.line, List.map_append]
    exact List.mem_append_right _ hmem
  have henqueue := UpdateQueue.enqueue_fresh e.now priority source hroom hnode
  have hqueue : (e.enqueue id priority source).scheduler.queue =
      (e.scheduler.queue.enqueue e.now id priority source).1 := rfl
  have hentries : (e.enqueue id priority source).scheduler.queue.entries =
      e.scheduler.queue.entries ++
        [⟨id, priority, source, e.now, e.scheduler.queue.nextSequence⟩] := by
    rw [hqueue, henqueue]
  have hline : (e.enqueue id priority source).scheduler.line.map (·.node) =
      e.scheduler.line.map (·.node) ++ [id] := by
    rw [Scheduler.line, hentries, ← List.append_assoc, List.map_append]
    rfl
  refine ⟨_, rfl, rfl, rfl, hentries, ?_, ?_, ?_, ?_⟩
  · rw [hline]
    refine List.nodup_append.mpr ⟨h.nodup, List.nodup_singleton _, ?_⟩
    rintro a ha b hb rfl
    rw [List.mem_singleton.mp hb] at ha
    exact hfresh ha
  · intro a ha
    rw [hline] at ha
    rcases List.mem_append.mp ha with ha | ha
    · exact h.registered a ha
    · rw [List.mem_singleton.mp ha]
      exact hid
  · rw [hqueue, UpdateQueue.enqueue_maxQueue]
    exact h.room
  · rw [hqueue]
    exact h.moment.enqueue hroom hnode

theorem mem_line_next {entry : QueueEntry} {rest : List QueueEntry}
    (hf : e.scheduler.inFlight = entry :: rest) : entry ∈ e.scheduler.line := by
  rw [Scheduler.line, hf]
  exact List.mem_cons_self

theorem mem_line {entry : QueueEntry} {rest : List QueueEntry}
    (hf : e.scheduler.inFlight = entry :: rest) {x : QueueEntry}
    (hx : x ∈ (e.withFlight rest).scheduler.line) : x ∈ e.scheduler.line := by
  rw [Scheduler.line, hf]
  exact List.mem_cons_of_mem _ hx

/-- Whoever waits is the next one, or waits behind it. -/
theorem isPending_withFlight {entry : QueueEntry} {rest : List QueueEntry}
    (hf : e.scheduler.inFlight = entry :: rest) {id : String}
    (hp : e.scheduler.isPending id = true) :
    id = entry.node ∨ (e.withFlight rest).scheduler.isPending id = true := by
  rw [Scheduler.isPending_iff, Scheduler.line, hf] at hp
  exact (List.mem_cons.mp hp).imp_right Scheduler.isPending_iff.mpr

theorem Roomy.withFlight {ids : List String} (h : Roomy ids e) {entry : QueueEntry}
    {rest : List QueueEntry} (hf : e.scheduler.inFlight = entry :: rest) :
    Roomy ids (e.withFlight rest) := by
  have hline : e.scheduler.line = entry :: (e.withFlight rest).scheduler.line := by
    rw [Scheduler.line, hf]
    rfl
  have hnodup := h.nodup
  rw [hline] at hnodup
  exact ⟨(List.nodup_cons.mp hnodup).2,
    fun id hid => h.registered id (by rw [hline]; exact List.mem_cons_of_mem _ hid), h.room,
    h.moment⟩

/-- Just the nodes that hear of the change wait behind the others, in order. -/
theorem Roomy.passOn {ids peers : List String} (hpeers : peers.Nodup)
    (hids : ∀ p ∈ peers, p ∈ ids) (h : Roomy ids e) :
    ∃ xs, (peers.foldl (Engine.passOn n source readers) e).scheduler.queue.entries =
        e.scheduler.queue.entries ++ xs ∧
      xs.map (·.node) = peers.filter (hears n source readers e) ∧
      (∀ x ∈ xs, x.priority = .high ∧ x.source = some n.id) ∧
      Roomy ids (peers.foldl (Engine.passOn n source readers) e) := by
  induction peers generalizing e with
  | nil => exact ⟨[], (List.append_nil _).symm, rfl, fun x hx => absurd hx List.not_mem_nil, h⟩
  | cons peer peers ih =>
    obtain ⟨hnotin, hpeers'⟩ := List.nodup_cons.mp hpeers
    have hids' : ∀ p ∈ peers, p ∈ ids := fun p hp => hids p (List.mem_cons_of_mem _ hp)
    rw [List.foldl_cons, List.filter_cons]
    unfold Engine.passOn
    by_cases hhears : hears n source readers e peer = true
    · rw [if_pos hhears, if_pos hhears]
      have hfresh : peer ∉ e.scheduler.line.map (·.node) := by
        intro hmem
        unfold hears at hhears
        rw [Scheduler.isPending_iff.mpr hmem] at hhears
        simp at hhears
      obtain ⟨entry, hnode, hpriority, hsource, hentries, hroomy⟩ :=
        h.enqueue (hids peer List.mem_cons_self) hfresh .high (some n.id)
      obtain ⟨xs, hxs, hmap, hall, hroomy'⟩ := ih hpeers' hids' hroomy
      refine ⟨entry :: xs, ?_, ?_, ?_, hroomy'⟩
      · rw [hentries, List.append_assoc] at hxs
        exact hxs
      · rw [List.map_cons, hnode, hmap]
        refine congrArg (peer :: ·) (List.filter_congr fun p hp => ?_)
        -- The other peers wait just if they waited before
        have hpending : (e.enqueue peer .high (some n.id)).scheduler.isPending p =
            e.scheduler.isPending p := by
          rw [Bool.eq_iff_iff, Scheduler.isPending_iff, Scheduler.isPending_iff, Scheduler.line,
            hentries, ← List.append_assoc, List.map_append, List.mem_append]
          refine or_iff_left fun hmem => ?_
          have hpeer : p = peer := (List.mem_singleton.mp hmem).trans hnode
          exact hnotin (hpeer ▸ hp)
        refine hears_congr ?_ ?_ ?_ hpending
        · rfl
        · rfl
        · rfl
      · intro x hx
        rcases List.mem_cons.mp hx with rfl | hx
        · exact ⟨hpriority, hsource⟩
        · exact hall x hx
    · rw [if_neg hhears, if_neg hhears]
      exact ih hpeers' hids' h

/-- The same for all nodes in order. -/
theorem Roomy.passed (hc : Coherent settings mode e) (h : Roomy e.registry.ids e) (n : OutputNode)
    (source : Option String) :
    ∃ xs, (e.passed n source).scheduler.queue.entries = e.scheduler.queue.entries ++ xs ∧
      xs.map (·.node) = e.links.order.filter (hears n source (e.links.graph.successors n.id) e) ∧
      (∀ x ∈ xs, x.priority = .high ∧ x.source = some n.id) ∧
      Roomy e.registry.ids (e.passed n source) :=
  h.passOn (hc.order_perm.symm.nodup hc.ids) fun _ hp => hc.order_perm.mem_iff.mp hp

theorem Roomy.congr {ids : List String} (h : Roomy ids e) (hs : e'.scheduler = e.scheduler)
    (hnow : e'.now = e.now) : Roomy ids e' :=
  ⟨hs ▸ h.nodup, hs ▸ h.registered, hs ▸ h.room, by rw [hs, hnow]; exact h.moment⟩

/-- Who hears of a change does not depend on the values of the nodes. -/
theorem hears_stored {n₀ : OutputNode} (hlinked : n.linked = n₀.linked)
    (hlayout : e'.layout = e.layout) (hscheduler : e'.scheduler = e.scheduler)
    (hpasses : e'.passes = e.passes) (peer : String) :
    hears n source readers e' peer = hears n₀ source readers e peer := by
  have hscope : e'.scope = e.scope := congrArg Layout.scope hlayout
  have hfind : ((e'.registry.find? peer).any fun p => inScope p.scope e'.scope) =
      (e.registry.find? peer).any fun p => inScope p.scope e.scope := by
    have hd := congrArg (Option.any fun p => inScope p.scope e.scope)
      (declared_of_layout hlayout peer)
    rw [Option.any_map, Option.any_map] at hd
    rw [hscope]
    exact hd
  unfold hears
  rw [hlinked, hfind, hscheduler, hpasses]

/-- Nothing waits because a value is stored, before it is passed on. -/
theorem unmoved_of_stored {v : Value} {e₁ e₂ : Engine} (judged : (e.counted n).Judged n e₁)
    (stored : e₁.Stored n v e₂) :
    e₂.layout = e.layout ∧ e₂.scheduler = e.scheduler ∧ e₂.passes = (e.counted n).passes := by
  refine ⟨(layout_stored stored).trans ((layout_judged judged).trans (layout_counted e n)), ?_⟩
  obtain ⟨written, ns, rfl, -⟩ := stored
  exact ⟨judged.unseen scheduler fun _ _ _ => rfl, judged.unseen passes fun _ _ _ => rfl⟩

/-- An evaluation lets just those wait that hear of it, if its value is new. -/
theorem Updated.passing (hc : Coherent settings mode e) {entry : QueueEntry}
    (hu : Updated e entry e') (hf : e.fate entry = .evaluated n)
    (hroomy : Roomy e.registry.ids e) :
    Roomy e'.registry.ids e' ∧ ∃ v xs, (e.counted n).computed n = .ok v ∧
      e'.scheduler.line = e.scheduler.line ++ xs ∧
      (∀ x ∈ xs, x.priority = .high ∧ x.source = some n.id) ∧
      xs.map (·.node) = if (e.counted n).accepts n v entry then e.links.order.filter
        (hears n entry.source (e.links.graph.successors n.id) (e.counted n)) else [] := by
  cases hu with
  | passedOver fate | brokenOff m fate => rw [hf] at fate; cases fate
  | keptOut m v _ fate value out judged =>
    rw [hf] at fate
    cases fate
    obtain ⟨⟨ns, heq⟩, -, -⟩ := judged
    rw [heq]
    refine ⟨hroomy.congr rfl rfl, v, [], value, (List.append_nil _).symm,
      fun x hx => absurd hx List.not_mem_nil, ?_⟩
    rw [out]
    rfl
  | accepted m v e₁ e₂ ns fate value new judged stored =>
    rw [hf] at fate
    cases fate
    have hc₂ := ((hc.counted n).judged judged).stored stored
    have hc₃ : Coherent settings mode { e₂ with notices := ns, announcing := e.announcing } :=
      hc₂.congr rfl
    obtain ⟨hlayout, hscheduler, hpasses⟩ := unmoved_of_stored judged stored
    have hlinks : e₂.links = e.links := congrArg Layout.links hlayout
    have hnow : e₂.now = e.now := congrArg (·.debouncer.timers.now) hlayout
    have hroomy₃ : Roomy e₂.registry.ids { e₂ with notices := ns, announcing := e.announcing } :=
      ids_of_layout hlayout ▸ hroomy.congr hscheduler hnow
    obtain ⟨xs, hentries, hmap, hall, hroomy₄⟩ := Roomy.passed hc₃ hroomy₃
      { n with lastValue := v, evaluated := true } entry.source
    obtain ⟨⟨queue, ns₁, heq⟩, -, -⟩ := queued_passed
      { e₂ with notices := ns, announcing := e.announcing }
      { n with lastValue := v, evaluated := true } entry.source
    refine ⟨?_, v, xs, value, ?_, hall, ?_⟩
    · have hids : ({ e₂ with notices := ns, announcing := e.announcing }.passed
          { n with lastValue := v, evaluated := true } entry.source).registry.ids =
          e₂.registry.ids := by
        rw [heq]
      rw [hids]
      exact hroomy₄
    · rw [Scheduler.line, hentries, heq]
      show e₂.scheduler.inFlight ++ (e₂.scheduler.queue.entries ++ xs) = e.scheduler.line ++ xs
      rw [hscheduler, ← List.append_assoc]
      rfl
    · have hhears : ∀ peer, hears { n with lastValue := v, evaluated := true } entry.source
          (e.links.graph.successors n.id)
          { e₂ with notices := ns, announcing := e.announcing } peer =
          hears n entry.source (e.links.graph.successors n.id) (e.counted n) peer :=
        hears_stored rfl hlayout hscheduler hpasses
      rw [hmap, if_pos new]
      show e₂.links.order.filter _ = _
      rw [hlinks]
      refine List.filter_congr fun peer _ => ?_
      rw [← hhears, hlinks]

/-- There is room as long as a cycle lasts. -/
theorem Roomy.updated (h : Roomy e.registry.ids e) (hc : Coherent settings mode e)
    {entry : QueueEntry} (hu : Updated e entry e') : Roomy e'.registry.ids e' := by
  rcases hu.ends with ⟨-, rfl⟩ | ⟨n, -, rfl⟩ | ⟨n, hfate⟩
  · exact h
  · exact ⟨List.nodup_nil, fun _ hid => absurd hid List.not_mem_nil, h.room,
      ⟨.nil, fun _ hx => absurd hx List.not_mem_nil, fun _ hx => absurd hx List.not_mem_nil⟩⟩
  · exact (hu.passing hc hfate h).1

/-! ## Scheduling -/

/-- With room for all nodes the scheduled ones wait behind the others, in the given order, and have
their passes back. -/
theorem Roomy.foldl_enqueue {ids regs : List String} (hids : ids.Nodup)
    (hregs : ∀ id ∈ ids, id ∈ regs) (h : Roomy regs e)
    (hfresh : ∀ id ∈ ids, id ∉ e.scheduler.line.map (·.node)) (priority : Priority)
    (source : Option String) :
    ∃ xs ns, ∃ queue : UpdateQueue, ids.foldl (fun e id =>
        { e with passes := e.passes.filter (·.1 != id) }.enqueue id priority source) e =
        { e with
          passes := e.passes.filter fun p => !ids.contains p.1
          scheduler := { e.scheduler with queue }
          notices := ns } ∧
      queue.entries = e.scheduler.queue.entries ++ xs ∧ xs.map (·.node) = ids ∧
      (∀ x ∈ xs, x.priority = priority ∧ x.source = source) ∧
      Roomy regs { e with scheduler := { e.scheduler with queue } } := by
  induction ids generalizing e with
  | nil =>
    refine ⟨[], e.notices, e.scheduler.queue, ?_, (List.append_nil _).symm, rfl,
      fun x hx => absurd hx List.not_mem_nil, h⟩
    have hall : e.passes.filter (fun p => !([] : List String).contains p.1) = e.passes :=
      List.filter_eq_self.mpr fun _ _ => rfl
    rw [hall]
    rfl
  | cons id ids ih =>
    obtain ⟨hnotin, hids'⟩ := List.nodup_cons.mp hids
    have h₀ : Roomy regs { e with passes := e.passes.filter (·.1 != id) } := h.congr rfl rfl
    obtain ⟨entry, hnode, hpriority, hsource, hentries, hroomy⟩ := h₀.enqueue
      (hregs id List.mem_cons_self) (hfresh id List.mem_cons_self) priority source
    have hline : ∀ id' ∈ ids, id' ∉ (Engine.enqueue { e with
        passes := e.passes.filter (·.1 != id) } id priority source).scheduler.line.map
        (·.node) := by
      intro id' hid' hmem
      rw [Scheduler.line, hentries, ← List.append_assoc, List.map_append] at hmem
      rcases List.mem_append.mp hmem with hmem | hmem
      · exact hfresh id' (List.mem_cons_of_mem _ hid') hmem
      · have hsame : id' = id := (List.mem_singleton.mp hmem).trans hnode
        exact hnotin (hsame ▸ hid')
    obtain ⟨xs, ns, queue, heq, hxs, hmap, hall, hroomy'⟩ := ih hids'
      (fun id' hid' => hregs id' (List.mem_cons_of_mem _ hid')) hroomy hline
    refine ⟨entry :: xs, ns, queue, ?_, ?_, ?_, ?_, hroomy'.congr rfl rfl⟩
    · rw [List.foldl_cons, heq]
      have hpasses : (e.passes.filter (·.1 != id)).filter (fun p => !ids.contains p.1) =
          e.passes.filter fun p => !(id :: ids).contains p.1 := by
        rw [List.filter_filter]
        refine List.filter_congr fun p _ => ?_
        rw [List.contains_cons, Bool.not_or, Bool.and_comm]
        rfl
      rw [← hpasses]
      rfl
    · rw [hentries, List.append_assoc] at hxs
      exact hxs
    · rw [List.map_cons, hnode, hmap]
    · intro x hx
      rcases List.mem_cons.mp hx with rfl | hx
      · exact ⟨hpriority, hsource⟩
      · exact hall x hx

/-- A quiet engine lets the scheduled nodes wait, in the given order, and nothing else. -/
theorem schedule_quiet {ids regs : List String} (hq : e.Quiet) (hp : e.phase ≠ .evaluating)
    (hroom : (regs.length : Int) ≤ e.scheduler.queue.maxQueue) (hids : ids.Nodup)
    (hregs : ∀ id ∈ ids, id ∈ regs) (priority : Priority) (source scope : Option String) :
    ∃ ns, ∃ queue : UpdateQueue, e.schedule ids priority source scope = { e with
        scope := scope
        passes := e.passes.filter fun p => !ids.contains p.1
        scheduler := { e.scheduler with queue }
        notices := ns } ∧
      queue.entries.map (·.node) = ids ∧
      (∀ x ∈ queue.entries, x.priority = priority ∧ x.source = source) ∧
      Roomy regs (e.schedule ids priority source scope) := by
  have hline : e.scheduler.line = [] := by rw [Scheduler.line, hq.queue, hq.flight]; rfl
  have hroomy : Roomy regs { e with scope := scope } := by
    refine ⟨?_, ?_, hroom, ?_⟩
    · show (e.scheduler.line.map (·.node)).Nodup
      rw [hline]
      exact List.nodup_nil
    · show ∀ id ∈ e.scheduler.line.map (·.node), id ∈ regs
      rw [hline]
      exact fun id hid => absurd hid List.not_mem_nil
    · show e.scheduler.queue.OfMoment e.now
      constructor
      · rw [hq.queue]
        exact .nil
      · rw [hq.queue]
        exact fun x hx => absurd hx List.not_mem_nil
      · rw [hq.queue]
        exact fun x hx => absurd hx List.not_mem_nil
  have hfresh : ∀ id ∈ ids,
      id ∉ ({ e with scope := scope } : Engine).scheduler.line.map (·.node) := by
    show ∀ id ∈ ids, id ∉ e.scheduler.line.map (·.node)
    rw [hline]
    exact fun id _ => List.not_mem_nil
  obtain ⟨xs, ns, queue, heq, hxs, hmap, hall, hroomy'⟩ :=
    hroomy.foldl_enqueue hids hregs hfresh priority source
  have hentries : queue.entries = xs := by
    rw [hxs, show ({ e with scope := scope } : Engine).scheduler.queue.entries = [] from hq.queue]
    rfl
  have hschedule : e.schedule ids priority source scope = { e with
      scope := scope
      passes := e.passes.filter fun p => !ids.contains p.1
      scheduler := { e.scheduler with queue }
      notices := ns } := by
    unfold schedule
    rw [if_neg hp]
    exact heq
  refine ⟨ns, queue, hschedule, ?_, ?_, ?_⟩
  · rw [hentries]
    exact hmap
  · rw [hentries]
    exact hall
  · rw [hschedule]
    exact hroomy'.congr rfl rfl

/-! ## Taking a batch -/

/-- A batch is taken out of the queue, and the order within a priority stays. -/
theorem Roomy.taken {ids : List String} (h : Roomy ids e) (hf : e.scheduler.inFlight = []) :
    Roomy ids e.taken ∧ e.taken.scheduler.line.Perm e.scheduler.line ∧
      ∀ p, UpdateQueue.ofPriority p e.taken.scheduler.line =
        UpdateQueue.ofPriority p e.scheduler.line := by
  have hline : e.scheduler.line = e.scheduler.queue.entries := by
    rw [Scheduler.line, hf]
    rfl
  have hnodup : e.scheduler.queue.nodes.Nodup := by
    have hn := h.nodup
    rw [hline] at hn
    exact hn
  have hperm : e.taken.scheduler.line.Perm e.scheduler.line := by
    rw [hline]
    exact UpdateQueue.take_perm hnodup (e.scheduler.batchSize : Int)
  refine ⟨⟨?_, ?_, h.room, h.moment.take _⟩, hperm, fun p => ?_⟩
  · exact (hperm.map _).nodup_iff.mpr h.nodup
  · exact fun id hid => h.registered id ((hperm.map _).mem_iff.mp hid)
  · rw [hline]
    exact h.moment.ofPriority_take hnodup (e.scheduler.batchSize : Int) p

end LiveForm.Engine
