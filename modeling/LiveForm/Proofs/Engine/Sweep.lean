import LiveForm.Proofs.Convergence
import LiveForm.Proofs.Engine.Cycles
import LiveForm.Proofs.Engine.Passing

/-!
# A full recompute is a sweep

Where no output reads itself, a recompute of the whole form computes the outputs one after another,
what is read first.  A value that was computed stays up to date, since whatever changes later is not
read by its output; and no output is computed again, since none that was passed reads a later one.
-/

namespace LiveForm.Engine

open UpdateQueue (ofPriority)
open Machine (after Runs)

variable {settings : Settings} {e e₀ e' : Engine} {done todo : List String}

/-- An engine on a form whose outputs can be computed one after another: none reads itself, and
there is room for all of them. -/
structure Orderly (settings : Settings) (e : Engine) : Prop where
  acyclic : e.registry.dependencies.Acyclic
  room : (e.registry.nodes.length : Int) ≤ settings.maxQueue

/-- An engine on a form whose outputs can be computed one after another: none reads itself, there is
room for all of them, no text uses a reserved word as a variable, and the tolerance is a number. -/
structure Regular (settings : Settings) (e : Engine) : Prop where
  acyclic : e.registry.dependencies.Acyclic
  room : (e.registry.nodes.length : Int) ≤ settings.maxQueue
  plain : ∀ n ∈ e.registry.nodes, Expr.wordsRead n.expression = []
  numeric : settings.tolerance.isNaN = false

/-- The node of an id is not to be computed while it is edited. -/
def skips (e : Engine) (id : String) : Bool := (e.registry.find? id).any e.shouldSkip

/-- In the middle of a sweep: some nodes in order are done, the others are to be done. -/
structure Sweeping (settings : Settings) (e₀ : Engine) (done todo : List String) (e : Engine) :
    Prop where
  underway : Underway settings e
  layout : e.layout = e₀.layout
  running : e.halted = false
  order : e.links.order = done ++ todo
  roomy : Roomy e.registry.ids e
  /-- The updates of the sweep are those of normal priority. -/
  line : (ofPriority .normal e.scheduler.line).map (·.node) = todo
  free : ∀ x ∈ e.scheduler.line, x.priority = .normal → x.source = none
  /-- Only nodes that were skipped hear of a change. -/
  extra : ∀ x ∈ e.scheduler.line, x.priority ≠ .normal → e₀.skips x.node = true
  fresh : ∀ id ∈ todo, e.passesOf id = 0
  passed : ∀ id ∈ done, e₀.skips id = false → e.passes.any (·.1 == id) = true
  untouched : ∀ id ∈ todo, e.registry.find? id = e₀.registry.find? id

/-- A node is evaluated in its turn: for the first time, while no node that is done reads it and all
that it reads are done. -/
structure Turn (settings : Settings) (e₀ : Engine) (done : List String) (e : Engine)
    (entry : QueueEntry) (n : OutputNode) : Prop where
  coherent : Coherent settings .immediate e
  layout : e.layout = e₀.layout
  fate : e.fate entry = .evaluated n
  first : e.passesOf n.id = 0
  untouched : e₀.registry.find? n.id = some n
  unread : ∀ id ∈ done, id ≠ n.id ∧ ¬ e.registry.dependencies.Reads id n.id
  ready : ∀ id, e.registry.dependencies.Reads n.id id → id ∈ done

/-- What a sweep keeps of the nodes that are done. -/
structure Keeps (settings : Settings) (e₀ : Engine) (P : List String → Engine → Prop) : Prop where
  congr : ∀ {done e e'}, Coherent settings .immediate e → Coherent settings .immediate e' →
    e'.holdings = e.holdings → P done e → P done e'
  skip : ∀ {done e id}, e₀.skips id = true → P done e → P (done ++ [id]) e
  turn : ∀ {done e entry n e'}, Turn settings e₀ done e entry n → Updated e entry e' →
    P done e → P (done ++ [n.id]) e'

/-- What a sweep carries along, which may also be about what was written. -/
structure Carries (settings : Settings) (e₀ : Engine) (P : List String → Engine → Prop) : Prop where
  congr : ∀ {done e e'}, Coherent settings .immediate e → Coherent settings .immediate e' →
    e'.belongings = e.belongings → P done e → P done e'
  skip : ∀ {done e id}, e₀.skips id = true → P done e → P (done ++ [id]) e
  turn : ∀ {done e entry n e'}, Turn settings e₀ done e entry n → Updated e entry e' →
    P done e → P (done ++ [n.id]) e'

theorem Keeps.carries {P : List String → Engine → Prop} (h : Keeps settings e₀ P) :
    Carries settings e₀ P where
  congr hc hc' hbelongings := h.congr hc hc' (holdings_of_belongings hbelongings)
  skip := h.skip
  turn := h.turn

theorem Keeps.and {P Q : List String → Engine → Prop} (hP : Keeps settings e₀ P)
    (hQ : Keeps settings e₀ Q) : Keeps settings e₀ fun done e => P done e ∧ Q done e where
  congr hc hc' hholdings h := ⟨hP.congr hc hc' hholdings h.1, hQ.congr hc hc' hholdings h.2⟩
  skip hskip h := ⟨hP.skip hskip h.1, hQ.skip hskip h.2⟩
  turn hturn hu h := ⟨hP.turn hturn hu h.1, hQ.turn hturn hu h.2⟩

/-! ## What the layout determines -/

theorem Orderly.congr (h : Orderly settings e₀) (hl : e.layout = e₀.layout) :
    Orderly settings e := by
  refine ⟨?_, ?_⟩
  · rw [dependencies_of_layout hl]
    exact h.acyclic
  · have hlength : ∀ e : Engine, e.registry.nodes.length = e.layout.nodes.length :=
      fun e => (List.length_map _).symm
    rw [hlength, hl, ← hlength]
    exact h.room

theorem Regular.orderly (h : Regular settings e) : Orderly settings e := ⟨h.acyclic, h.room⟩

theorem Regular.candid (h : Regular settings e) : e.registry.Candid := by
  intro n hn id _
  rw [h.plain n hn]
  exact List.not_mem_nil

theorem Regular.congr (h : Regular settings e₀) (hl : e.layout = e₀.layout) :
    Regular settings e := by
  obtain ⟨hacyclic, hroom⟩ := h.orderly.congr hl
  refine ⟨hacyclic, hroom, fun n hn => ?_, h.numeric⟩
  obtain ⟨m, hm, hd⟩ := mem_of_layout hl hn
  have hplain : Expr.wordsRead m.declared.expression = [] := h.plain m hm
  rw [hd] at hplain
  exact hplain

theorem skips_congr (hl : e.layout = e₀.layout) (id : String) : e.skips id = e₀.skips id := by
  unfold skips
  cases hn : e₀.registry.find? id with
  | none =>
    have hd := declared_of_layout hl id
    rw [hn, Option.map_none, Option.map_eq_none_iff] at hd
    rw [hd]
    rfl
  | some n =>
    obtain ⟨m, hm, hd⟩ := exists_of_layout hl hn
    rw [hm, Option.any_some, Option.any_some]
    exact shouldSkip_congr hl hd

/-! ## Judging a first value -/

/-- The detector has nothing against a value that is the first of its cycle. -/
theorem observe_of_first {n : OutputNode} (hfirst : e.passesOf n.id = 0) (v : Value)
    (fromPeer : Bool) : ((e.counted n).detector.observe n.id v fromPeer).1 = .changed := by
  have hdetector : (e.counted n).detector = e.detector.forget n.id := by
    unfold counted
    rw [if_pos hfirst]
  rw [hdetector]
  exact ConvergenceDetector.observe_first (e.detector.recent_forget n.id) v fromPeer

/-- So it is kept out just if it repeats the last one. -/
theorem accepts_of_first {n : OutputNode} (hfirst : e.passesOf n.id = 0) (v : Value)
    (entry : QueueEntry) :
    (e.counted n).accepts n v entry =
      !(n.evaluated && e.detector.tolerances.converged v n.lastValue) := by
  have htolerances : (e.counted n).detector.tolerances = e.detector.tolerances := by
    unfold counted
    rw [if_pos hfirst]
    rfl
  unfold accepts
  rw [observe_of_first hfirst, htolerances]
  rfl

/-! ## One update of a sweep -/

/-- What is skipped is passed over. -/
theorem fate_of_skips {entry : QueueEntry} (h : e.skips entry.node = true) :
    e.fate entry = .passedOver := by
  obtain ⟨n, hn, hskip⟩ := Option.any_eq_true _ _ |>.mp h
  unfold fate
  split
  · rfl
  · rw [hn]
    dsimp only
    rw [if_pos (by rw [hskip, Bool.or_true])]

namespace Sweeping

variable {entry : QueueEntry} {rest : List QueueEntry}

theorem skips_eq (h : Sweeping settings e₀ done todo e) (id : String) : e.skips id = e₀.skips id :=
  skips_congr h.layout id

/-- An entry of the sweep is for the next node. -/
theorem next (h : Sweeping settings e₀ done todo e) (hf : e.scheduler.inFlight = entry :: rest)
    (hp : entry.priority = .normal) :
    todo = entry.node :: (ofPriority .normal (e.withFlight rest).scheduler.line).map (·.node) := by
  have hline : e.scheduler.line = entry :: (e.withFlight rest).scheduler.line := by
    rw [Scheduler.line, hf]
    rfl
  rw [← h.line, hline, ofPriority, List.filter_cons, if_pos (by rw [hp]; rfl), List.map_cons]
  rfl

theorem eq_of_passedOver (hfate : (e.withFlight rest).fate entry = .passedOver)
    (hu : Updated (e.withFlight rest) entry e') :
    e' = e.withFlight rest ∧ Update.evaluated? ⟨e.withFlight rest, entry⟩ = none := by
  refine ⟨?_, by rw [Update.evaluated?, hfate]⟩
  rcases hu.ends with ⟨-, heq⟩ | ⟨n, hf, -⟩ | ⟨n, hf⟩
  · exact heq
  · rw [hfate] at hf
    cases hf
  · rw [hfate] at hf
    cases hf

/-- The update of a node that heard of a change though it was skipped is passed over. -/
theorem passOver (h : Sweeping settings e₀ done todo e)
    (hf : e.scheduler.inFlight = entry :: rest) (hp : entry.priority ≠ .normal)
    (hu : Updated (e.withFlight rest) entry e') :
    e' = e.withFlight rest ∧ Sweeping settings e₀ done todo e' ∧
      Update.evaluated? ⟨e.withFlight rest, entry⟩ = none := by
  have hentry := mem_line_next hf
  have hfate : (e.withFlight rest).fate entry = .passedOver :=
    fate_of_skips ((h.skips_eq entry.node).trans (h.extra entry hentry hp))
  have hunderway := h.underway.updated hf hu
  obtain ⟨rfl, hnone⟩ := eq_of_passedOver hfate hu
  refine ⟨rfl, { h with
    underway := hunderway
    roomy := h.roomy.withFlight hf
    line := ?_
    free := fun x hx => h.free x (mem_line hf hx)
    extra := fun x hx => h.extra x (mem_line hf hx) }, hnone⟩
  have hline := h.line
  rw [Scheduler.line, hf, List.cons_append, ofPriority, List.filter_cons,
    if_neg (by simpa using hp)]
    at hline
  exact hline

/-- The next node is skipped. -/
theorem skipNext (h : Sweeping settings e₀ done todo e)
    (hf : e.scheduler.inFlight = entry :: rest) (hp : entry.priority = .normal)
    (hskip : e₀.skips entry.node = true) (hu : Updated (e.withFlight rest) entry e') :
    ∃ todo', todo = entry.node :: todo' ∧ e' = e.withFlight rest ∧
      Sweeping settings e₀ (done ++ [entry.node]) todo' e' ∧
      Update.evaluated? ⟨e.withFlight rest, entry⟩ = none := by
  have hfate : (e.withFlight rest).fate entry = .passedOver :=
    fate_of_skips ((h.skips_eq entry.node).trans hskip)
  have hunderway := h.underway.updated hf hu
  obtain ⟨rfl, hnone⟩ := eq_of_passedOver hfate hu
  have htodo := h.next hf hp
  have hlater : ∀ id ∈ (ofPriority .normal (e.withFlight rest).scheduler.line).map (·.node),
      id ∈ todo := fun id hid => by rw [htodo]; exact List.mem_cons_of_mem _ hid
  refine ⟨_, htodo, rfl, ?_, hnone⟩
  exact {
    underway := hunderway
    layout := h.layout
    running := h.running
    order := by
      rw [List.append_assoc, List.singleton_append, ← htodo]
      exact h.order
    roomy := h.roomy.withFlight hf
    line := rfl
    free := fun x hx => h.free x (mem_line hf hx)
    extra := fun x hx => h.extra x (mem_line hf hx)
    fresh := fun id hid => h.fresh id (hlater id hid)
    passed := fun id hid hid' => by
      rcases List.mem_append.mp hid with hid | hid
      · exact h.passed id hid hid'
      · rw [List.mem_singleton.mp hid, hskip] at hid'
        cases hid'
    untouched := fun id hid => h.untouched id (hlater id hid) }

/-- What hears of the change of the next node has been passed, and was skipped. -/
theorem skips_of_hears (h : Sweeping settings e₀ done todo e) (ho : Orderly settings e₀)
    (hf : e.scheduler.inFlight = entry :: rest) (hp : entry.priority = .normal) {n : OutputNode}
    (hn : e.registry.find? entry.node = some n) {peer : String} (hpeer : peer ∈ e.links.order)
    (hhears : hears n entry.source (e.links.graph.successors n.id)
      ((e.withFlight rest).counted n) peer = true) : e₀.skips peer = true := by
  have hc := h.underway.coherent
  obtain ⟨hmem, hid⟩ := Registry.mem_of_find? hn
  have htodo := h.next hf hp
  unfold hears at hhears
  simp only [Bool.and_eq_true, Bool.not_eq_true'] at hhears
  obtain ⟨⟨⟨⟨hlinked, -⟩, -⟩, hpending⟩, hpassed⟩ := hhears
  have hself : peer ≠ n.id := by
    rintro rfl
    exact hc.id_not_mem_linked hmem (List.contains_iff_mem.mp hlinked)
  have horder := h.order
  rw [htodo] at horder
  have hdone : peer ∈ done := by
    rw [horder] at hpeer
    rcases List.mem_append.mp hpeer with hpeer | hpeer
    · exact hpeer
    · rcases List.mem_cons.mp hpeer with hpeer | hpeer
      · exact absurd (hpeer.trans hid.symm) hself
      · -- What is still to be done waits already
        have hwaits : peer ∈ (e.withFlight rest).scheduler.line.map (·.node) :=
          (List.filter_sublist.map QueueEntry.node).subset hpeer
        have hnot : (e.withFlight rest).scheduler.isPending peer = false := hpending
        rw [Scheduler.isPending_iff.mpr hwaits] at hnot
        cases hnot
  -- Of what is done only a reader of the node would be told again, and no such node comes before it
  by_contra hskip
  have hpasses : ((e.withFlight rest).counted n).passes.any (·.1 == peer) = true :=
    any_passes_counted (Or.inr (h.passed peer hdone (Bool.not_eq_true _ |>.mp hskip)))
  rw [hpasses, Bool.true_and, Bool.not_eq_false', List.contains_iff_mem,
    hc.mem_successors] at hpassed
  have hordered := hc.order_ordered (ho.congr h.layout).acyclic
  rw [horder] at hordered
  have hnot := (List.pairwise_append.mp hordered).2.2 peer hdone entry.node List.mem_cons_self
  rw [← hid] at hnot
  exact hnot hpassed.2

/-- The next node is evaluated, for the first time in its cycle. -/
theorem evaluates (h : Sweeping settings e₀ done todo e) (hs : settings.InRange)
    (hf : e.scheduler.inFlight = entry :: rest) (hp : entry.priority = .normal)
    (hskip : e₀.skips entry.node = false) :
    ∃ n, (e.withFlight rest).Evaluates entry n ∧ n.id = entry.node ∧
      (e.withFlight rest).passesOf n.id = 0 := by
  have hc := h.underway.coherent
  have hentry := mem_line_next hf
  have hmem : entry.node ∈ todo := by
    rw [h.next hf hp]
    exact List.mem_cons_self
  have horder : entry.node ∈ e.links.order := by
    rw [h.order]
    exact List.mem_append_right _ hmem
  obtain ⟨n, hn⟩ := Option.isSome_iff_exists.mp (hc.contains_of_mem_order horder)
  obtain ⟨-, hnid⟩ := Registry.mem_of_find? hn
  have hfirst : (e.withFlight rest).passesOf n.id = 0 := by
    rw [hnid]
    exact h.fresh _ hmem
  refine ⟨n, ⟨h.running, hn, ?_, ?_, ?_⟩, hnid, hfirst⟩
  · rw [h.free entry hentry hp]
    exact (Option.some_ne_none _).symm
  · have hskips := h.skips_eq entry.node
    rw [hskip, skips, hn] at hskips
    exact hskips
  · rw [hfirst, show (e.withFlight rest).settings = settings from hc.ofSettings]
    exact hs.counts .maxPasses (by decide)

/-- The next node is none of the others, is not read by those done, and reads only those. -/
theorem apart (h : Sweeping settings e₀ done todo e) (ho : Orderly settings e₀)
    (hf : e.scheduler.inFlight = entry :: rest) (hp : entry.priority = .normal) :
    (∀ id ∈ done, id ≠ entry.node ∧ ¬ e.registry.dependencies.Reads id entry.node) ∧
      (∀ id ∈ (ofPriority .normal (e.withFlight rest).scheduler.line).map (·.node),
        id ≠ entry.node) ∧
      ∀ id, e.registry.dependencies.Reads entry.node id → id ∈ done := by
  have hc := h.underway.coherent
  have hacyclic := (ho.congr h.layout).acyclic
  have horder := h.order
  rw [h.next hf hp] at horder
  have hnodup := hc.nodup_order
  have hordered := hc.order_ordered hacyclic
  rw [horder] at hnodup hordered
  obtain ⟨-, hlater, hdone⟩ := List.nodup_append.mp hnodup
  refine ⟨fun id hid => ⟨hdone id hid _ List.mem_cons_self, ?_⟩, ?_,
    fun id => hc.mem_before hacyclic horder⟩
  · exact (List.pairwise_append.mp hordered).2.2 id hid _ List.mem_cons_self
  · rintro id hid rfl
    exact (List.nodup_cons.mp hlater).1 hid

/-- It is the next node's turn. -/
theorem turn (h : Sweeping settings e₀ done todo e) (ho : Orderly settings e₀)
    (hs : settings.InRange) (hf : e.scheduler.inFlight = entry :: rest)
    (hp : entry.priority = .normal) (hskip : e₀.skips entry.node = false) :
    ∃ n, n.id = entry.node ∧ Turn settings e₀ done (e.withFlight rest) entry n := by
  obtain ⟨n, hevaluates, hnid, hfirst⟩ := h.evaluates hs hf hp hskip
  obtain ⟨hbefore, -, hreads⟩ := h.apart ho hf hp
  have hmem : entry.node ∈ todo := by
    rw [h.next hf hp]
    exact List.mem_cons_self
  refine ⟨n, hnid, h.underway.coherent.congr rfl, h.layout, fate_of_evaluates hevaluates, hfirst,
    ?_, ?_, ?_⟩
  · rw [hnid, ← h.untouched _ hmem]
    exact hevaluates.found
  · rw [hnid]
    exact hbefore
  · rw [hnid]
    exact hreads

/-- The sweep goes on behind the next node when it was evaluated. -/
theorem evaluateNext (h : Sweeping settings e₀ done todo e) (ho : Orderly settings e₀)
    (hs : settings.InRange) (hf : e.scheduler.inFlight = entry :: rest)
    (hp : entry.priority = .normal) (hskip : e₀.skips entry.node = false)
    (hu : Updated (e.withFlight rest) entry e') :
    ∃ todo', todo = entry.node :: todo' ∧ Sweeping settings e₀ (done ++ [entry.node]) todo' e' ∧
      Update.evaluated? ⟨e.withFlight rest, entry⟩ = some entry.node := by
  have hc : Coherent settings .immediate (e.withFlight rest) := h.underway.coherent.congr rfl
  have htodo := h.next hf hp
  have hlater : ∀ id ∈ (ofPriority .normal (e.withFlight rest).scheduler.line).map (·.node),
      id ∈ todo := fun id hid => by rw [htodo]; exact List.mem_cons_of_mem _ hid
  obtain ⟨n, hevaluates, hnid, hfirst⟩ := h.evaluates hs hf hp hskip
  have hfate := fate_of_evaluates hevaluates
  obtain ⟨hongoing, hpasses⟩ := hu.evaluated hfate
  obtain ⟨hroomy, v, xs, -, hline, hhigh, hxs⟩ := hu.passing hc hfate (h.roomy.withFlight hf)
  have hnot := (h.apart ho hf hp).2.1
  -- Whoever hears of the change has high priority, so that what is to be done stays the same
  have hnormal : ofPriority .normal xs = [] := by
    refine List.filter_eq_nil_iff.mpr fun x hx => ?_
    rw [(hhigh x hx).1]
    exact Bool.false_ne_true
  have hmemline : ∀ x ∈ e'.scheduler.line, x ∈ e.scheduler.line ∨ x ∈ xs := by
    intro x hx
    rw [hline] at hx
    exact (List.mem_append.mp hx).imp_left (mem_line hf)
  refine ⟨_, htodo, ?_, by rw [Update.evaluated?, hfate, ← hnid]⟩
  exact {
    underway := h.underway.updated hf hu
    layout := hu.layout.trans h.layout
    running := (congrArg (·.1) hongoing).trans h.running
    order := by
      rw [List.append_assoc, List.singleton_append, ← htodo, ← h.order]
      exact congrArg (·.links.order) hu.layout
    roomy := hroomy
    line := by rw [hline, UpdateQueue.ofPriority_append, hnormal, List.append_nil]
    free := fun x hx hxp => by
      rcases hmemline x hx with hx | hx
      · exact h.free x hx hxp
      · rw [(hhigh x hx).1] at hxp
        cases hxp
    extra := fun x hx hxp => by
      rcases hmemline x hx with hx | hx
      · exact h.extra x hx hxp
      · have hmap : x.node ∈ xs.map (·.node) := List.mem_map_of_mem hx
        rw [hxs] at hmap
        split at hmap
        · obtain ⟨hpeer, hhears⟩ := List.mem_filter.mp hmap
          exact h.skips_of_hears ho hf hp hevaluates.found hpeer hhears
        · cases hmap
    fresh := fun id hid => by
      have hpassesOf : e'.passesOf id = ((e.withFlight rest).counted n).passesOf id := by
        unfold passesOf
        rw [hpasses]
      rw [hpassesOf, passesOf_counted, if_neg (by rw [hnid]; exact hnot id hid)]
      exact h.fresh id (hlater id hid)
    passed := fun id hid hid' => by
      rw [hpasses]
      refine any_passes_counted ?_
      rcases List.mem_append.mp hid with hid | hid
      · exact Or.inr (h.passed id hid hid')
      · exact Or.inl ((List.mem_singleton.mp hid).trans hnid.symm)
    untouched := fun id hid => (hu.find? (hnot id hid)).trans (h.untouched id (hlater id hid)) }

end Sweeping

/-! ## A whole sweep -/

/-- The next batch of a sweep. -/
theorem Sweeping.taken (h : Sweeping settings e₀ done todo e) (hf : e.scheduler.inFlight = []) :
    Sweeping settings e₀ done todo e.taken := by
  obtain ⟨hroomy, hperm, hpriority⟩ := h.roomy.taken hf
  exact { h with
    underway := h.underway.taken
    roomy := hroomy
    line := by
      rw [hpriority]
      exact h.line
    free := fun x hx => h.free x (hperm.mem_iff.mp hx)
    extra := fun x hx => h.extra x (hperm.mem_iff.mp hx) }

theorem Sweeping.looped (h : Sweeping settings e₀ done todo e) :
    Sweeping settings e₀ done todo e.looped :=
  { h with
    underway := h.underway.looped
    roomy := ⟨h.roomy.nodup, h.roomy.registered, h.roomy.room, h.roomy.moment⟩ }

/-- A sweep evaluates what is to be done and not skipped, in order, and carries along what each turn
carries along. -/
theorem Drains.sweep {us : List Update} {P : List String → Engine → Prop} (hd : Drains e us e')
    (ho : Orderly settings e₀) (hs : settings.InRange) (hk : Carries settings e₀ P)
    (h : Sweeping settings e₀ done todo e) (hP : P done e) :
    us.filterMap Update.evaluated? = todo.filter (!e₀.skips ·) ∧
      Sweeping settings e₀ (done ++ todo) [] e' ∧ P (done ++ todo) e' := by
  induction hd generalizing done todo with
  | done queue flight =>
    have htodo := h.line
    rw [Scheduler.line, queue, flight] at htodo
    obtain rfl : todo = [] := htodo.symm
    rw [List.append_nil]
    exact ⟨rfl, h, hP⟩
  | @update e e₁ e₂ entry rest us flight updated _ ih =>
    have hP' : P done (e.withFlight rest) :=
      hk.congr h.underway.coherent (h.underway.coherent.congr rfl) rfl hP
    by_cases hp : entry.priority = .normal
    · cases hskip : e₀.skips entry.node with
      | true =>
        obtain ⟨todo', rfl, rfl, h', hnone⟩ := h.skipNext flight hp hskip updated
        obtain ⟨hus, h''⟩ := ih h' (hk.skip hskip hP')
        rw [List.append_assoc] at h''
        refine ⟨?_, h''⟩
        rw [List.filterMap_cons, hnone, List.filter_cons, hskip]
        exact hus
      | false =>
        obtain ⟨n, hnid, hturn⟩ := h.turn ho hs flight hp hskip
        obtain ⟨todo', rfl, h', hsome⟩ := h.evaluateNext ho hs flight hp hskip updated
        obtain ⟨hus, h''⟩ := ih h' (hnid ▸ hk.turn hturn updated hP')
        rw [List.append_assoc] at h''
        refine ⟨?_, h''⟩
        rw [List.filterMap_cons, hsome, List.filter_cons, hskip]
        exact congrArg (entry.node :: ·) hus
    · obtain ⟨rfl, h', hnone⟩ := h.passOver flight hp updated
      rw [List.filterMap_cons, hnone]
      exact ih h' hP'
  | batch flight waits _ ih =>
    have h' := h.looped.taken flight
    exact ih h' (hk.congr h.underway.coherent h'.underway.coherent rfl hP)

theorem inOrder_none {mode : YieldMode} (hc : Coherent settings mode e) :
    e.inOrder none = e.links.order := by
  refine List.filter_eq_self.mpr fun id hid => ?_
  obtain ⟨n, hn⟩ := Option.isSome_iff_exists.mp (hc.contains_of_mem_order hid)
  rw [hn]
  rfl

/-- What a drain of scheduled nodes begins with: these wait in the given order, and nothing else. -/
structure Beginning (settings : Settings) (e : Engine) (ids : List String) (priority : Priority)
    (source scope : Option String) (e' : Engine) : Prop where
  underway : Underway settings e'
  eq : ∃ scheduler ns, e' = { e with
    scope := scope
    passes := e.passes.filter fun p => !ids.contains p.1
    scheduler := scheduler
    phase := .evaluating
    notices := ns }
  roomy : Roomy e'.registry.ids e'
  flight : e'.scheduler.inFlight = []
  nodes : e'.scheduler.line.map (·.node) = ids
  entries : ∀ x ∈ e'.scheduler.line, x.priority = priority ∧ x.source = source

theorem Beginning.layout {ids : List String} {priority : Priority} {source scope : Option String}
    (h : Beginning settings e ids priority source scope e') :
    e'.layout = { e with scope := scope }.layout := by
  obtain ⟨scheduler, ns, heq⟩ := h.eq
  rw [heq]
  rfl

/-- From a quiet engine with room for all nodes a drain of scheduled ones begins so. -/
theorem beginning_schedule (hc : Coherent settings .immediate e) (hq : e.Quiet)
    (hp : e.phase ≠ .evaluating) (hr : (e.registry.nodes.length : Int) ≤ settings.maxQueue)
    {ids : List String} (hids : ids.Nodup) (hregs : ∀ id ∈ ids, id ∈ e.registry.ids)
    (priority : Priority) (source scope : Option String) :
    Beginning settings e ids priority source scope
      (e.schedule ids priority source scope).begun := by
  have hroom : (e.registry.ids.length : Int) ≤ e.scheduler.queue.maxQueue := by
    rw [Registry.ids, List.length_map, hc.maxQueue]
    exact hr
  have hunderway := underway_schedule hc hq ids priority source scope
  obtain ⟨ns, queue, heq, hmap, hall, hroomy⟩ :=
    schedule_quiet hq hp hroom hids hregs priority source scope
  have hline : (e.schedule ids priority source scope).begun.scheduler.line = queue.entries := by
    rw [heq]
    show e.scheduler.inFlight ++ queue.entries = _
    rw [hq.flight, List.nil_append]
  have hregistry : (e.schedule ids priority source scope).begun.registry = e.registry := by
    rw [heq]
    rfl
  refine ⟨hunderway, ⟨_, ns, by rw [heq]; rfl⟩, ?_, ?_, hline ▸ hmap, hline ▸ hall⟩
  · rw [hregistry]
    exact ⟨hroomy.nodup, hroomy.registered, hroomy.room, hroomy.moment⟩
  · rw [heq]
    exact hq.flight

/-- Where all nodes are scheduled a sweep begins. -/
theorem sweeping_schedule (hc : Coherent settings .immediate e) (hq : e.Quiet)
    (hp : e.phase ≠ .evaluating) (ho : Orderly settings e) :
    Sweeping settings { e with scope := none } [] e.links.order
      (e.schedule e.links.order .normal none none).begun.taken := by
  have h := beginning_schedule hc hq hp ho.room hc.nodup_order
    (fun id hid => hc.order_perm.mem_iff.mp hid) .normal none none
  have hnormal : ofPriority .normal
      (e.schedule e.links.order .normal none none).begun.scheduler.line =
      (e.schedule e.links.order .normal none none).begun.scheduler.line :=
    List.filter_eq_self.mpr fun x hx => by rw [(h.entries x hx).1]; rfl
  generalize (e.schedule e.links.order .normal none none).begun = e₁ at h hnormal ⊢
  have hlayout := h.layout
  obtain ⟨scheduler, ns, heq⟩ := h.eq
  refine Sweeping.taken ?_ h.flight
  exact {
    underway := h.underway
    layout := hlayout
    running := by
      rw [heq]
      exact hq.running
    order := congrArg (·.links.order) hlayout
    roomy := h.roomy
    line := by
      rw [hnormal]
      exact h.nodes
    free := fun x hx _ => (h.entries x hx).2
    extra := fun x hx hxp => absurd (h.entries x hx).1 hxp
    fresh := fun id hid => by
      have hnone : (e.passes.filter fun p => !e.links.order.contains p.1).lookup id = none := by
        refine List.lookup_eq_none_iff.mpr fun p hpass => ?_
        have hnot := (List.mem_filter.mp hpass).2
        rw [Bool.not_eq_true', List.contains_eq_mem, decide_eq_false_iff_not] at hnot
        refine bne_iff_ne.mpr ?_
        rintro rfl
        exact hnot hid
      rw [heq]
      show ((e.passes.filter fun p => !e.links.order.contains p.1).lookup id).getD 0 = 0
      rw [hnone]
      rfl
    passed := fun id hid => absurd hid List.not_mem_nil
    untouched := fun id _ => by rw [heq] }

/-- From a quiet engine a recompute of the whole form runs through a sweep. -/
theorem runs_sweep {P : List String → Engine → Prop} (hs : settings.InRange)
    (hmost : settings.historySize ≤ ConvergenceDetector.maxHistory)
    {answer : Engine → Ask → Reply Response EngineError} (hc : Sound settings .immediate e)
    (hr : e.Readable) (hq : e.rescan.1.Quiet) (hp : e.phase ≠ .evaluating)
    (ho : Orderly settings e.rescan.1)
    (hk : Keeps settings { e.rescan.1 with scope := none } P) (hP : P [] e.rescan.1)
    (calm : Calm answer (after [] (e.recompute none))) :
    ∃ us e' ns, Runs (among answer) updates (after [] (e.recompute none)) us
        ⟨e'.finished ns, [], .returned default⟩ ∧
      us.filterMap Update.evaluated? = e.rescan.1.links.order.filter (!e.rescan.1.skips ·) ∧
      Sweeping settings { e.rescan.1 with scope := none } e.rescan.1.links.order [] e' ∧
      (e'.finished ns).Quiet ∧ P e.rescan.1.links.order e' := by
  have hc₁ := hc.coherent_rescan hr
  have hp₁ : e.rescan.1.phase ≠ .evaluating := phase_rescan e ▸ hp
  rw [recompute_eq hc hr, inOrder_none hc₁] at calm ⊢
  generalize e.rescan.1 = e₁ at *
  obtain ⟨us, e', ns, hd, hu, hruns⟩ := runs_cycle hs hmost hc₁ hq calm
  have ho₀ : Orderly settings { e₁ with scope := none } := ⟨ho.acyclic, ho.room⟩
  have hsweeping := sweeping_schedule hc₁ hq hp₁ ho
  have hholdings : (e₁.schedule e₁.links.order .normal none none).begun.taken.holdings =
      e₁.holdings := holdings_schedule e₁ _ _ _ _
  obtain ⟨hus, hswept, hP'⟩ := hd.sweep ho₀ hs hk.carries hsweeping
    (hk.congr hc₁ hsweeping.underway.coherent hholdings hP)
  exact ⟨us, e', ns, hruns, hus, hswept, hd.quiet hu ns, hP'⟩

/-! ## Values that stay up to date -/

/-- The value of a node is up to date, and just the one computed if there was none at first. -/
def Renewed (e₀ e : Engine) (id : String) : Prop :=
  ∃ n v, e.Confirms id n v ∧
    ∀ n₀, e₀.registry.find? id = some n₀ → n₀.evaluated = false → v = n.lastValue

/-- Within the tolerances of the settings a value that can be displayed is the same as itself. -/
theorem converged_self {mode : YieldMode} (hc : Coherent settings mode e) (hs : settings.InRange)
    (hnumeric : settings.tolerance.isNaN = false) {v : Value} (hv : v.Displayable) :
    e.detector.tolerances.converged v v = true := by
  refine hv.converged_self ?_ ?_
  · rw [hc.tolerances]
    exact hnumeric
  · rw [hc.tolerances]
    exact hs.numbers .tolerance

/-- A node does not use itself where none reads itself. -/
theorem not_uses_self (ha : e.registry.dependencies.Acyclic) (hn : e.registry.Candid)
    {n : OutputNode} (hmem : n ∈ e.registry.nodes) : ¬ n.Uses n.id := fun hu =>
  ha.not_reads_self n.id (hn.reads hmem (List.mem_map_of_mem hmem) hu)

namespace Turn

variable {entry : QueueEntry} {n : OutputNode}

theorem mem (h : Turn settings e₀ done e entry n) : n ∈ e.registry.nodes ∧ n.id = entry.node :=
  Registry.mem_of_find? (evaluates_of_fate h.fate).found

/-- In the turn of a node no variable changes that is used by a node that is done. -/
theorem resolve (h : Turn settings e₀ done e entry n) (hn : e.registry.Candid)
    (hu : Updated e entry e') {id : String} (hid : id ∈ done) {m : OutputNode}
    (hm : e.registry.find? id = some m) {name : String} (hname : m.Uses name) :
    e'.resolve name = e.resolve name := by
  obtain ⟨hmem, hnid⟩ := h.mem
  obtain ⟨hmmem, rfl⟩ := Registry.mem_of_find? hm
  refine hu.resolve h.coherent fun he => (h.unread m.id hid).2 ?_
  rw [he, ← hnid] at hname
  exact hn.reads hmmem (List.mem_map_of_mem hmem) hname

/-- A value stays up to date in the turn of another node. -/
theorem renewed (h : Turn settings e₀ done e entry n) (hn : e.registry.Candid)
    (hu : Updated e entry e') {id : String} (hid : id ∈ done) (hr : Renewed e₀ e id) :
    Renewed e₀ e' id := by
  obtain ⟨m, v, hconfirms, hequal⟩ := hr
  have hne : id ≠ entry.node := h.mem.2 ▸ (h.unread id hid).1
  exact ⟨m, v, hconfirms.congr h.coherent.toSound (h.coherent.updated hu).toSound (hu.find? hne)
    (congrArg Layout.rows hu.layout) fun _ => h.resolve hn hu hid hconfirms.1, hequal⟩

/-- A value is up to date when the node had its turn. -/
theorem renewed_self (h : Turn settings e₀ done e entry n) (hr : Regular settings e)
    (hs : settings.InRange) (hu : Updated e entry e') : Renewed e₀ e' n.id := by
  have hc' := h.coherent.updated hu
  have hself := not_uses_self hr.acyclic hr.candid h.mem.1
  obtain ⟨m, v, hm, hv, hdisplayable, hvalue⟩ := hu.recomputed h.coherent h.fate hself
  rcases hvalue with rfl | ⟨rfl, -, hout⟩
  · exact ⟨m, _, ⟨hm, hv, converged_self hc' hs hr.numeric hdisplayable⟩, fun _ _ _ => rfl⟩
  -- Kept out at the first pass, the value repeats the one that is stored
  · rw [accepts_of_first h.first, Bool.not_eq_false', Bool.and_eq_true] at hout
    refine ⟨m, v, ⟨hm, hv, ?_⟩, fun n₀ hn₀ hfresh => ?_⟩
    · rw [hc'.tolerances, ← h.coherent.tolerances]
      exact hout.2
    · rw [h.untouched] at hn₀
      cases hn₀
      rw [hfresh] at hout
      cases hout.1

end Turn

/-- A sweep keeps the values of the nodes up to date that are done. -/
theorem keeps_renewed (hr : Regular settings e₀) (hs : settings.InRange) :
    Keeps settings e₀ fun done e => ∀ id ∈ done, e₀.skips id = false → Renewed e₀ e id where
  congr hc hc' hholdings h id hid hskip := by
    obtain ⟨m, v, hconfirms, hequal⟩ := h id hid hskip
    have hresolve := resolve_of_holdings hholdings
    simp only [holdings, Prod.mk.injEq] at hholdings
    obtain ⟨-, -, hregistry, -, hrows, -⟩ := hholdings
    exact ⟨m, v, hconfirms.congr hc.toSound hc'.toSound (by rw [hregistry]) hrows
      fun name _ => congrFun hresolve name, hequal⟩
  skip hskip h id hid hskip' := by
    rcases List.mem_append.mp hid with hid | hid
    · exact h id hid hskip'
    · rw [List.mem_singleton.mp hid, hskip] at hskip'
      cases hskip'
  turn hturn hu h id hid hskip := by
    have hr' := hr.congr hturn.layout
    rcases List.mem_append.mp hid with hid | hid
    · exact hturn.renewed hr'.candid hu hid (h id hid hskip)
    · rw [List.mem_singleton.mp hid]
      exact hturn.renewed_self hr' hs hu

/-! ## Recomputing the whole form -/

/-- A recompute of the whole form in an idle engine that can read it evaluates each output once that
is not skipped, and after the outputs that it reads; in the end its value is up to date, and just
the one that is computed for it then if it had none before. -/
theorem recompute_sweeps {place : String} {entries : List (String × Data)}
    (hsettings : Settings.ofEntries place entries = .ok settings)
    (hmost : settings.historySize ≤ ConvergenceDetector.maxHistory)
    {answer : Engine → Ask → Reply Response EngineError} {r : Reply Response EngineError}
    (reachable : Reachable settings .immediate ⟨e, [], r⟩) (idle : e.phase ≠ .evaluating)
    (regular : Regular settings e.rescan.1) (readable : e.Readable)
    (calm : Calm answer (after [] (e.recompute none))) :
    ∃ us e' r', Runs (among answer) updates (after [] (e.recompute none)) us
        ⟨e', [], .returned r'⟩ ∧
      (us.filterMap Update.evaluated?).Nodup ∧
      (∀ id, id ∈ us.filterMap Update.evaluated? ↔
        ∃ n ∈ e.rescan.1.registry.nodes, n.id = id ∧ e.rescan.1.shouldSkip n = false) ∧
      (us.filterMap Update.evaluated?).Pairwise
        (fun a b => ¬ e.rescan.1.registry.dependencies.Reads a b) ∧
      ∀ n ∈ e.rescan.1.registry.nodes, e.rescan.1.shouldSkip n = false →
        ∃ m v, e'.registry.find? n.id = some m ∧ e'.computed m = .ok v ∧
          e'.detector.tolerances.converged v m.lastValue = true ∧
          (n.evaluated = false → v = m.lastValue) := by
  have hs := Settings.inRange_of_ofEntries hsettings
  obtain ⟨hc, -⟩ := steady_of_reachable reachable
  have hq := (quiet_of_reachable reachable idle).congr (progress_rescan e)
  have hregular : Regular settings { e.rescan.1 with scope := none } :=
    ⟨regular.acyclic, regular.room, regular.plain, regular.numeric⟩
  obtain ⟨us, e', ns, hruns, hus, -, -, hrenewed⟩ := runs_sweep hs hmost hc readable hq idle
    regular.orderly (keeps_renewed hregular hs) (fun id hid => absurd hid List.not_mem_nil) calm
  have hc₁ := hc.coherent_rescan readable
  generalize e.rescan.1 = e₁ at *
  have hskips : ∀ n ∈ e₁.registry.nodes, e₁.skips n.id = e₁.shouldSkip n := by
    intro n hn
    rw [skips, Registry.find?_of_mem hc₁.ids hn, Option.any_some]
  refine ⟨us, e'.finished ns, default, hruns, ?_, fun id => ?_, ?_, fun n hn hskip => ?_⟩
  · rw [hus]
    exact hc₁.nodup_order.filter _
  · rw [hus, List.mem_filter, hc₁.order_perm.mem_iff, Registry.ids, List.mem_map]
    constructor
    · rintro ⟨⟨n, hn, rfl⟩, hskip⟩
      refine ⟨n, hn, rfl, ?_⟩
      rw [← hskips n hn]
      exact Bool.not_eq_true' _ |>.mp hskip
    · rintro ⟨n, hn, rfl, hskip⟩
      refine ⟨⟨n, hn, rfl⟩, Bool.not_eq_true' _ |>.mpr ?_⟩
      rw [← hskip]
      exact hskips n hn
  · rw [hus]
    exact (hc₁.order_ordered regular.acyclic).filter _
  · have hmem : n.id ∈ e₁.links.order := hc₁.order_perm.mem_iff.mpr (List.mem_map_of_mem hn)
    obtain ⟨m, v, ⟨hm, hv, hconverged⟩, hequal⟩ := hrenewed n.id hmem ((hskips n hn).trans hskip)
    exact ⟨m, v, hm, hv, hconverged, hequal n (Registry.find?_of_mem hc₁.ids hn)⟩

/-- A field, an output that reads another one behind it, and an output that is being edited. -/
def editedTree : FormTree :=
  ((((({} : FormTree).withField "x" "2" "").withOutput { id := "b", expression := "a * 2" }
    "").withOutput { id := "a", expression := "x + 1" } "").withOutput
    { id := "c", expression := "a + b", skipWhileEditing := true } "").focus (some "c")

theorem proper_editedTree : editedTree.Proper := by
  have h := ((((FormTree.proper_empty false).withField "x" "2" "").withOutput
    { id := "b", expression := "a * 2" } "").withOutput
    { id := "a", expression := "x + 1" } "").withOutput
    { id := "c", expression := "a + b", skipWhileEditing := true } ""
  exact ⟨h.names, h.specs⟩

/-- The engine that is to compute it. -/
def editedEngine : Engine := .create editedTree {} .immediate false

theorem regular_editedEngine : Regular {} editedEngine.rescan.1 where
  acyclic := by
    refine Dependencies.acyclic_of_rank
      (fun id => if id = "a" then 0 else if id = "b" then 1 else 2) ?_
    decide +kernel
  room := by decide +kernel
  plain := by decide +kernel
  numeric := by decide +kernel

/-- What is read is computed first, and what is being edited is left alone. -/
theorem recompute_sweeps_edited :
    ∃ us e' r', Runs (among fun _ _ => .returned default) updates
        (after [] (editedEngine.recompute none)) us ⟨e', [], .returned r'⟩ ∧
      (us.filterMap Update.evaluated?).Nodup ∧
      (∀ id, id ∈ us.filterMap Update.evaluated? ↔ ∃ n ∈ editedEngine.rescan.1.registry.nodes,
        n.id = id ∧ editedEngine.rescan.1.shouldSkip n = false) ∧
      (us.filterMap Update.evaluated?).Pairwise
        (fun a b => ¬ editedEngine.rescan.1.registry.dependencies.Reads a b) ∧
      ∀ n ∈ editedEngine.rescan.1.registry.nodes, editedEngine.rescan.1.shouldSkip n = false →
        ∃ m v, e'.registry.find? n.id = some m ∧ e'.computed m = .ok v ∧
          e'.detector.tolerances.converged v m.lastValue = true ∧
          (n.evaluated = false → v = m.lastValue) := by
  have hsettings : Settings.ofEntries "" [] = .ok {} := rfl
  have hidle : editedEngine.phase ≠ .evaluating := show Phase.idle ≠ .evaluating by decide
  have hcalm : endsSmoothly (fun _ _ => .returned default) 100
      (after [] (editedEngine.recompute none)) = true := by
    decide +kernel
  exact recompute_sweeps (r := .returned default) hsettings (by decide)
    (.create proper_editedTree false) hidle regular_editedEngine (by decide +kernel)
    (calm_of_endsSmoothly hcalm)

theorem regular_copyTree :
    Regular excessive (Engine.create copyTree excessive .immediate false).rescan.1 where
  acyclic := by
    refine Dependencies.acyclic_of_rank (fun _ => 0) ?_
    decide +kernel
  room := by decide +kernel
  plain := by decide +kernel
  numeric := by decide +kernel

/-- The engine that was not told of a field that was added whose name cannot be read. -/
def spoiltCopy : Engine := (Engine.create copyTree {} .immediate false).spoilt

/-- What is left when the reading of its form broke off. -/
def brokenCopy : Engine :=
  (Engine.create copyTree {} .immediate false).halfRead [("x", "x"), ("a", "a")]

theorem regular_brokenCopy : Regular {} brokenCopy where
  acyclic := by
    refine Dependencies.acyclic_of_rank (fun _ => 0) ?_
    decide +kernel
  room := by decide +kernel
  plain := by decide +kernel
  numeric := by decide +kernel

theorem spoiltCopy_rescan : ¬ spoiltCopy.Readable ∧ spoiltCopy.rescan.1 = brokenCopy := by
  have hplain : ∀ name ∈ (Engine.create copyTree {} .immediate false).tree.fields.map (·.1),
      (variableName name).toList.head? ≠ some 'r' := by
    decide +kernel
  have hnames : (((Engine.create copyTree {} .immediate false).tree.fields.map (·.1)).map
      variableName).Nodup := by
    decide +kernel
  have hbindings : ((Engine.create copyTree {} .immediate false).tree.fields.map (·.1)).map
      (fun name => (variableName name, name)) = [("x", "x"), ("a", "a")] := by
    decide +kernel
  refine ⟨not_readable_spoilt hplain proper_copyTree hnames, ?_⟩
  have hrescan := rescan_spoilt hplain proper_copyTree hnames
  rw [hbindings] at hrescan
  exact hrescan

/-- A recompute need not evaluate anything: with more values to remember than can be it is broken
off before it stores a value, and where a name cannot be read when the form is read. -/
theorem recompute_fails :
    (∃ entries settings e r, Settings.ofEntries "" entries = .ok settings ∧
      Reachable settings .immediate ⟨e, [], r⟩ ∧ e.phase ≠ .evaluating ∧
      Regular settings e.rescan.1 ∧
      Calm (fun _ _ => .returned default) (after [] (e.recompute none)) ∧
      (∀ n ∈ e.rescan.1.registry.nodes, e.rescan.1.shouldSkip n = false) ∧
      ∃ us e', Runs (among fun _ _ => .returned default) updates (after [] (e.recompute none)) us
          ⟨e', [], .raised .historyTooLong⟩ ∧
        ∀ n ∈ e'.registry.nodes, n.evaluated = false) ∧
    ∃ e r, Reachable {} .immediate ⟨e, [], r⟩ ∧ e.phase ≠ .evaluating ∧
      Regular {} e.rescan.1 ∧ e.rescan.1.registry.ids = ["a"] ∧
      (∀ n ∈ e.rescan.1.registry.nodes, e.rescan.1.shouldSkip n = false) ∧
      ∃ e', Runs (among fun _ _ => .returned default) updates (after [] (e.recompute none)) []
          ⟨e', [], .raised .tooManyDigits⟩ ∧
        ∀ n ∈ e'.registry.nodes, n.evaluated = false := by
  have hidle : (Engine.create copyTree excessive .immediate false).phase ≠ .evaluating :=
    show Phase.idle ≠ .evaluating by decide
  have hcalm : endsSmoothly (fun _ _ => .returned default) 40
      (after [] ((Engine.create copyTree excessive .immediate false).recompute none)) = true := by
    decide +kernel
  have hspoilt : Reachable {} .immediate ⟨spoiltCopy, [], .returned default⟩ :=
    (Reachable.create proper_copyTree false).perform (.addField overlong (.text "") "" false)
  obtain ⟨hunreadable, hrescan⟩ := spoiltCopy_rescan
  refine ⟨⟨_, excessive, _, _, ofEntries_excessive, .create proper_copyTree false, hidle,
    regular_copyTree, calm_of_endsSmoothly hcalm, by decide +kernel, _, _,
    .ended (n := 40) ?_ ?_, ?_⟩, spoiltCopy, _, hspoilt, show Phase.idle ≠ .evaluating by decide,
    ?_⟩
  · decide +kernel
  · decide +kernel
  · decide +kernel
  · rw [recompute_of_not_readable hunreadable, hrescan]
    exact ⟨regular_brokenCopy, by decide +kernel, by decide +kernel, brokenCopy, .refl _,
      by decide +kernel⟩

end LiveForm.Engine
