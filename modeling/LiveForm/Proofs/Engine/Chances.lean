import LiveForm.Proofs.Engine.Sweep

/-!
# Chances that are lost

In a cycle each node that may be out of date waits.  It loses its chance only if the cycle is broken
off meanwhile, if its value is held back though it is another one, or if it does not hear that a
node that it reads has changed.
-/

namespace LiveForm.Engine

variable {settings : Settings} {e e' : Engine} {us vs : List Update} {id : String}

/-- By this update a node loses its chance to be up to date. -/
inductive Disturbs (u : Update) (id : String) : Prop where
  /-- The cycle is broken off while the node waits, or because of it. -/
  | brokenOff (n : OutputNode) (fate : u.engine.fate u.entry = .brokenOff n)
    (waits : id = u.entry.node ∨ u.engine.scheduler.isPending id = true)
  /-- The node is evaluated once more in the same cycle, and a value other than its last one is held
  back, as one that repeats those before or goes back and forth between them. -/
  | heldBack (n : OutputNode) (v : Value) (fate : u.engine.fate u.entry = .evaluated n)
    (own : n.id = id) (again : u.engine.passesOf id ≠ 0)
    (value : (u.engine.counted n).computed n = .ok v)
    (other : u.engine.detector.tolerances.converged v n.lastValue = false)
    (verdict : ((u.engine.counted n).detector.observe n.id v
      (u.entry.source.any n.linked.contains)).1 ≠ .changed)
  /-- Another node that it reads has a new value because of it, so that it does not hear of that,
  and it does not wait either. -/
  | unheard (n : OutputNode) (v : Value) (fate : u.engine.fate u.entry = .evaluated n)
    (value : (u.engine.counted n).computed n = .ok v)
    (new : (u.engine.counted n).accepts n v u.entry = true)
    (read : u.engine.registry.dependencies.Reads id n.id) (source : u.entry.source = some id)
    (missed : u.engine.scheduler.isPending id = false)

/-- A node has lost its chance, and was not evaluated any more since. -/
def Lost (us : List Update) (id : String) : Prop :=
  ∃ before u behind, us = before ++ u :: behind ∧ Disturbs u id ∧
    ∀ u' ∈ behind, u'.evaluated? ≠ some id

theorem Lost.append (h : Lost us id) (hvs : ∀ u ∈ vs, u.evaluated? ≠ some id) :
    Lost (us ++ vs) id := by
  obtain ⟨before, u, behind, rfl, hu, hbehind⟩ := h
  refine ⟨before, u, behind ++ vs, by rw [List.append_assoc, List.cons_append], hu,
    fun u' hu' => ?_⟩
  rcases List.mem_append.mp hu' with hu' | hu'
  · exact hbehind u' hu'
  · exact hvs u' hu'

theorem lost_of_disturbs {u : Update} (h : Disturbs u id) : Lost (us ++ [u]) id :=
  ⟨us, u, [], rfl, h, fun _ hu => absurd hu List.not_mem_nil⟩

/-- A node waits or is up to date, unless it lost its chance. -/
def Attended (us : List Update) (e : Engine) (id : String) : Prop :=
  e.scheduler.isPending id = true ∨ e.UpToDate id ∨ Lost us id

/-- An engine on a regular form in which no output is left alone while it is edited. -/
structure Eager (settings : Settings) (e : Engine) : Prop extends Regular settings e where
  unskipped : ∀ n ∈ e.registry.nodes, n.skipWhileEditing = false

theorem Eager.congr (h : Eager settings e) (hl : e'.layout = e.layout) : Eager settings e' := by
  refine ⟨h.toRegular.congr hl, fun n hn => ?_⟩
  obtain ⟨m, hm, hd⟩ := mem_of_layout hl hn
  have hskip : m.declared.skipWhileEditing = false := h.unskipped m hm
  rw [hd] at hskip
  exact hskip

theorem Eager.shouldSkip (h : Eager settings e) {n : OutputNode} (hn : n ∈ e.registry.nodes) :
    e.shouldSkip n = false := by
  rw [Engine.shouldSkip, h.unskipped n hn, Bool.false_and]

theorem Eager.skips (h : Eager settings e) (id : String) : e.skips id = false := by
  refine (Option.any_eq_false _ _).mpr fun n hn => ?_
  rw [h.shouldSkip (Registry.mem_of_find? hn).1]

/-- A drain that attends to the whole form. -/
structure Attending (settings : Settings) (e : Engine) : Prop where
  underway : Underway settings e
  eager : Eager settings e
  roomy : Roomy e.registry.ids e
  unscoped : e.scope = none
  /-- No node waits because of itself. -/
  foreign : ∀ x ∈ e.scheduler.line, x.source ≠ some x.node

namespace Attending

variable {entry : QueueEntry} {rest : List QueueEntry}

/-- The next update is not passed over. -/
theorem fate (h : Attending settings e) (hf : e.scheduler.inFlight = entry :: rest) :
    (e.withFlight rest).fate entry ≠ .passedOver := by
  have hentry := mem_line_next hf
  have hid := h.roomy.registered entry.node (List.mem_map_of_mem hentry)
  obtain ⟨n, hn⟩ := Option.isSome_iff_exists.mp (Registry.contains_iff.mpr hid)
  obtain ⟨hmem, hnid⟩ := Registry.mem_of_find? hn
  -- The node is registered, the cycle goes on, and neither its source nor the focus skips it
  have hhalted : (e.withFlight rest).halted = false := h.underway.running hf
  have hsource : entry.source ≠ some n.id := by
    rw [hnid]
    exact h.foreign entry hentry
  have hskip : (e.withFlight rest).shouldSkip n = false := h.eager.shouldSkip hmem
  exact fate_ne_passedOver hhalted hn hsource hskip

theorem updated (h : Attending settings e) (hf : e.scheduler.inFlight = entry :: rest)
    (hu : Updated (e.withFlight rest) entry e') : Attending settings e' := by
  have hc : Coherent settings .immediate (e.withFlight rest) := h.underway.coherent.congr rfl
  have hlayout : e'.layout = e.layout := hu.layout
  refine ⟨h.underway.updated hf hu, h.eager.congr hlayout, ?_,
    (congrArg Layout.scope hlayout).trans h.unscoped, ?_⟩
  · exact (h.roomy.withFlight hf).updated hc hu
  · rcases hu.ends with ⟨hfate, -⟩ | ⟨n, -, rfl⟩ | ⟨n, hfate⟩
    · exact absurd hfate (h.fate hf)
    · exact fun _ hx => absurd hx List.not_mem_nil
    · obtain ⟨-, v, xs, -, hline, hxs, hmap⟩ := hu.passing hc hfate (h.roomy.withFlight hf)
      obtain ⟨hmem, -⟩ := Registry.mem_of_find? (evaluates_of_fate hfate).found
      -- Who hears of a change is linked to the node, and no node is linked to itself
      intro x hx
      rw [hline] at hx
      rcases List.mem_append.mp hx with hx | hx
      · exact h.foreign x (mem_line hf hx)
      · rw [(hxs x hx).2]
        intro heq
        have hnode : x.node ∈ xs.map (·.node) := List.mem_map_of_mem hx
        rw [hmap] at hnode
        split at hnode
        · have hhears := (List.mem_filter.mp hnode).2
          simp only [hears, Bool.and_eq_true] at hhears
          rw [← Option.some.inj heq] at hhears
          exact hc.id_not_mem_linked hmem (List.contains_iff_mem.mp hhears.1.1.1.1)
        · cases hnode

theorem taken (h : Attending settings e) (hf : e.scheduler.inFlight = []) :
    Attending settings e.taken := by
  obtain ⟨hroomy, hperm, -⟩ := h.roomy.taken hf
  exact ⟨h.underway.taken, h.eager.congr rfl, hroomy, h.unscoped,
    fun x hx => h.foreign x (hperm.mem_iff.mp hx)⟩

theorem looped (h : Attending settings e) : Attending settings e.looped :=
  ⟨h.underway.looped, h.eager.congr rfl,
    ⟨h.roomy.nodup, h.roomy.registered, h.roomy.room, h.roomy.moment⟩, h.unscoped, h.foreign⟩

/-- A node that is evaluated is attended to. -/
theorem evaluated (h : Attending settings e) (hs : settings.InRange)
    (hu : Updated (e.withFlight rest) entry e')
    {n : OutputNode} (hfate : (e.withFlight rest).fate entry = .evaluated n) :
    Attended (us ++ [⟨e.withFlight rest, entry⟩]) e' n.id := by
  have hc : Coherent settings .immediate (e.withFlight rest) := h.underway.coherent.congr rfl
  have hc' := hc.updated hu
  obtain ⟨hmem, -⟩ := Registry.mem_of_find? (evaluates_of_fate hfate).found
  have hself : ¬ n.Uses n.id := not_uses_self h.eager.acyclic h.eager.candid hmem
  obtain ⟨m, v, hm, hv, hdisplayable, hvalue⟩ := hu.recomputed hc hfate hself
  rcases hvalue with rfl | ⟨rfl, hcomputed, hout⟩
  · exact Or.inr (Or.inl ⟨m, _, hm, hv, converged_self hc' hs h.eager.numeric hdisplayable⟩)
  · have htolerances : e'.detector.tolerances = (e.withFlight rest).detector.tolerances :=
      hc'.tolerances.trans hc.tolerances.symm
    cases hconverged : (e.withFlight rest).detector.tolerances.converged v m.lastValue with
    | true => exact Or.inr (Or.inl ⟨m, v, hm, hv, by rw [htolerances, hconverged]⟩)
    -- A value that is another one is kept out only by the detector, and not at a first pass
    | false =>
      refine Or.inr (Or.inr (lost_of_disturbs (.heldBack m v hfate rfl ?_ hcomputed hconverged ?_)))
      · intro hfirst
        rw [accepts_of_first hfirst, hconverged, Bool.and_false] at hout
        cases hout
      · intro hverdict
        have hsame : ((e.withFlight rest).counted m).detector.tolerances.converged v m.lastValue =
            false := by
          rw [(hc.counted m).tolerances, ← hc.tolerances, hconverged]
        rw [accepts, hverdict, hsame, Bool.and_false] at hout
        cases hout

/-- Who reads a node hears that it has changed, unless it waits or is the source of the update. -/
theorem hears_of_reads (h : Attending settings e) {n : OutputNode} (hn : n ∈ e.registry.nodes)
    {e₀ : Engine} (hregistry : e₀.registry = e.registry) (hscope : e₀.scope = e.scope)
    (hid : id ∈ e.registry.ids) (hread : e.registry.dependencies.Reads id n.id)
    (hsource : entry.source ≠ some id) (hmissed : e₀.scheduler.isPending id = false) :
    hears n entry.source (e.links.graph.successors n.id) e₀ id = true := by
  have hc := h.underway.coherent
  have hne : n.id ≠ id := by
    rintro rfl
    exact h.eager.acyclic.not_reads_self _ hread
  have hlinked : n.linked.contains id = true := by
    rw [List.contains_iff_mem, hc.linked n hn, hc.links]
    exact LinkGraph.mem_peers_of_reads hc.ids_dependencies hread hne
  have hreader : (e.links.graph.successors n.id).contains id = true :=
    List.contains_iff_mem.mpr (hc.mem_successors.mpr ⟨hne, hread⟩)
  obtain ⟨m, hm⟩ := Option.isSome_iff_exists.mp (Registry.contains_iff.mpr hid)
  unfold hears
  rw [hlinked, hreader, hmissed, hregistry, hm, hscope, h.unscoped, beq_eq_false_iff_ne.mpr hsource]
  simp [inScope]

/-- Another node stays attended to. -/
theorem bystander (h : Attending settings e) (hf : e.scheduler.inFlight = entry :: rest)
    (hu : Updated (e.withFlight rest) entry e') (hid : id ∈ e.registry.ids)
    {n : OutputNode} (hfate : (e.withFlight rest).fate entry = .evaluated n) (hne : id ≠ n.id)
    (ha : Attended us e id) : Attended (us ++ [⟨e.withFlight rest, entry⟩]) e' id := by
  have hc : Coherent settings .immediate (e.withFlight rest) := h.underway.coherent.congr rfl
  have hc' := hc.updated hu
  obtain ⟨hmem, hnid⟩ := Registry.mem_of_find? (evaluates_of_fate hfate).found
  have hevaluated : Update.evaluated? ⟨e.withFlight rest, entry⟩ ≠ some id := by
    rw [Update.evaluated?, hfate]
    exact fun he => hne (Option.some.inj he).symm
  obtain ⟨-, v, xs, hv, hline, -, hmap⟩ := hu.passing hc hfate (h.roomy.withFlight hf)
  -- Nothing is taken from the line but the update itself
  have hwaits : (e.withFlight rest).scheduler.isPending id = true →
      e'.scheduler.isPending id = true := by
    intro hp
    rw [Scheduler.isPending_iff] at hp ⊢
    rw [hline, List.map_append]
    exact List.mem_append_left _ hp
  rcases ha with hp | hup | hlost
  · refine Or.inl (hwaits ?_)
    exact (isPending_withFlight hf hp).resolve_left fun he => hne (he.trans hnid.symm)
  · obtain ⟨m, w, hconfirms⟩ := hup
    obtain ⟨hm, rfl⟩ := Registry.mem_of_find? hconfirms.1
    have hstays : (∀ name, m.Uses name → e'.resolve name = e.resolve name) →
        Attended (us ++ [⟨e.withFlight rest, entry⟩]) e' m.id := fun hresolve =>
      Or.inr (Or.inl ⟨m, w, hconfirms.congr h.underway.coherent.toSound hc'.toSound
        (hu.find? (hnid ▸ hne)) (congrArg Layout.rows hu.layout) hresolve⟩)
    -- Its value changes only with a node that it reads
    by_cases hread : m.Uses n.id
    · cases hnew : ((e.withFlight rest).counted n).accepts n v entry with
      | false => exact hstays fun name _ => congrFun (hu.resolve_of_out hfate hv hnew) name
      | true =>
        have hreads := h.eager.candid.reads hm (List.mem_map_of_mem hmem) hread
        cases hmissed : (e.withFlight rest).scheduler.isPending m.id with
        | true => exact Or.inl (hwaits hmissed)
        | false =>
          by_cases hsource : entry.source = some m.id
          · exact Or.inr (Or.inr (lost_of_disturbs
              (.unheard n v hfate hv hnew hreads hsource hmissed)))
          · refine Or.inl (Scheduler.isPending_iff.mpr ?_)
            rw [hline, List.map_append, hmap, if_pos hnew]
            refine List.mem_append_right _ (List.mem_filter.mpr ⟨?_, ?_⟩)
            · exact hc.order_perm.mem_iff.mpr hid
            · exact h.hears_of_reads hmem rfl rfl hid hreads hsource hmissed
    · refine hstays fun name hname => hu.resolve hc fun he => hread ?_
      rw [hnid, ← he]
      exact hname
  · exact Or.inr (Or.inr (hlost.append fun u hu => List.mem_singleton.mp hu ▸ hevaluated))

/-- Whoever is attended to stays so when the cycle is broken off. -/
theorem halted (hf : e.scheduler.inFlight = entry :: rest)
    {n : OutputNode} (hfate : (e.withFlight rest).fate entry = .brokenOff n)
    (ha : Attended us e id) :
    Attended (us ++ [⟨e.withFlight rest, entry⟩]) ((e.withFlight rest).brokenOff n) id := by
  rcases ha with hp | hup | hlost
  · exact Or.inr (Or.inr (lost_of_disturbs (.brokenOff n hfate (isPending_withFlight hf hp))))
  · exact Or.inr (Or.inl hup)
  · refine Or.inr (Or.inr (hlost.append fun u hu => ?_))
    rw [List.mem_singleton.mp hu, Update.evaluated?, hfate]
    exact (Option.some_ne_none _).symm

end Attending

/-! ## Whole drains -/

/-- A node is to be attended to: from the beginning, like all of them, or since it was evaluated. -/
def Promised (all : Bool) (us : List Update) (id : String) : Prop :=
  all = true ∨ ∃ u ∈ us, u.evaluated? = some id

theorem promised_append {all : Bool} :
    Promised all (us ++ vs) id ↔ Promised all us id ∨ ∃ u ∈ vs, u.evaluated? = some id := by
  unfold Promised
  constructor
  · rintro (h | ⟨u, hu, he⟩)
    · exact Or.inl (Or.inl h)
    · rcases List.mem_append.mp hu with hu | hu
      · exact Or.inl (Or.inr ⟨u, hu, he⟩)
      · exact Or.inr ⟨u, hu, he⟩
  · rintro ((h | ⟨u, hu, he⟩) | ⟨u, hu, he⟩)
    · exact Or.inl h
    · exact Or.inr ⟨u, List.mem_append_left _ hu, he⟩
    · exact Or.inr ⟨u, List.mem_append_right _ hu, he⟩

/-- One update of a drain keeps the promise. -/
theorem Attending.promised {entry : QueueEntry} {rest : List QueueEntry} {all : Bool}
    (h : Attending settings e) (hs : settings.InRange) (hf : e.scheduler.inFlight = entry :: rest)
    (hu : Updated (e.withFlight rest) entry e') (hid : id ∈ e.registry.ids)
    (ha : Promised all us id → Attended us e id)
    (hp : Promised all (us ++ [⟨e.withFlight rest, entry⟩]) id) :
    Attended (us ++ [⟨e.withFlight rest, entry⟩]) e' id := by
  rw [promised_append] at hp
  rcases hu.ends with ⟨hfate, -⟩ | ⟨n, hfate, rfl⟩ | ⟨n, hfate⟩
  · exact absurd hfate (h.fate hf)
  · refine Attending.halted hf hfate (ha (hp.resolve_right ?_))
    rintro ⟨u, hmem, he⟩
    rw [List.mem_singleton.mp hmem, Update.evaluated?, hfate] at he
    cases he
  · by_cases hne : id = n.id
    · rw [hne]
      exact h.evaluated hs hu hfate
    · refine h.bystander hf hu hid hfate hne (ha (hp.resolve_right ?_))
      rintro ⟨u, hmem, he⟩
      rw [List.mem_singleton.mp hmem, Update.evaluated?, hfate] at he
      exact hne (Option.some.inj he).symm

theorem Drains.layout (hd : Drains e us e') : e'.layout = e.layout := by
  induction hd with
  | done => rfl
  | update flight updated _ ih => exact ih.trans updated.layout
  | batch _ _ _ ih => exact ih

/-- A drain attends to the nodes until nothing waits. -/
theorem Drains.attended {all : Bool} (hd : Drains e vs e') (h : Attending settings e)
    (hs : settings.InRange) (hid : id ∈ e.registry.ids)
    (ha : Promised all us id → Attended us e id) (hp : Promised all (us ++ vs) id) :
    e'.UpToDate id ∨ Lost (us ++ vs) id := by
  induction hd generalizing us with
  | done queue flight =>
    rw [List.append_nil] at hp ⊢
    refine (ha hp).resolve_left fun hpending => ?_
    rw [Scheduler.isPending_iff, Scheduler.line, queue, flight] at hpending
    cases hpending
  | @update e e₁ e₂ entry rest vs flight updated _ ih =>
    have hids : e₁.registry.ids = e.registry.ids := ids_of_layout updated.layout
    rw [List.append_cons] at hp ⊢
    exact ih (h.updated flight updated) (hids ▸ hid) (h.promised hs flight updated hid ha) hp
  | @batch e e' us flight waits _ ih =>
    refine ih (h.looped.taken flight) hid (fun hp => ?_) hp
    obtain ⟨-, hperm, -⟩ := h.looped.roomy.taken flight
    refine (ha hp).imp_left fun hpending => ?_
    rw [Scheduler.isPending_iff] at hpending ⊢
    exact (hperm.map _).mem_iff.mpr hpending

/-! ## Beginning a drain -/

/-- A drain attends to the form where the nodes that are scheduled are not the source. -/
theorem Beginning.attending {ids : List String} {priority : Priority} {source : Option String}
    (h : Beginning settings e ids priority source none e') (he : Eager settings e)
    (hsource : ∀ id ∈ ids, source ≠ some id) : Attending settings e' := by
  have heager : Eager settings { e with scope := none } :=
    ⟨⟨he.acyclic, he.room, he.plain, he.numeric⟩, he.unskipped⟩
  refine ⟨h.underway, heager.congr h.layout, h.roomy, congrArg Layout.scope h.layout, ?_⟩
  intro x hx
  rw [(h.entries x hx).2]
  exact hsource x.node (h.nodes ▸ List.mem_map_of_mem hx)

/-- The nodes that are scheduled wait in the first batch, and no other node is affected. -/
theorem Beginning.attended {ids : List String} {priority : Priority} {source scope : Option String}
    (h : Beginning settings e ids priority source scope e')
    (hid : id ∈ ids ∨ e.UpToDate id ∨ Lost us id) : Attended us e'.taken id := by
  obtain ⟨-, hperm, -⟩ := h.roomy.taken h.flight
  rcases hid with hid | hup | hlost
  · refine Or.inl (Scheduler.isPending_iff.mpr ((hperm.map _).mem_iff.mpr ?_))
    rw [h.nodes]
    exact hid
  · refine Or.inr (Or.inl ?_)
    obtain ⟨scheduler, ns, rfl⟩ := h.eq
    exact hup
  · exact Or.inr (Or.inr hlost)

end LiveForm.Engine
