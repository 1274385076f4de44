import LiveForm.Engine.Cycle
import LiveForm.Proofs.Expr.Evaluating
import LiveForm.Proofs.Form.Registry
import LiveForm.Proofs.Schedule.Queue
import LiveForm.Proofs.Value.Displayable

/-!
# What an update does

Processing an update comes to one of a few ends: it is passed over, it breaks the cycle off, or it
evaluates its node.  The value is kept out or accepted, and an accepted value is stored, written and
passed on.
-/

namespace LiveForm

/-- The node with a value stored, and perhaps with the text that was written. -/
def OutputNode.store (v : Value) (written : Option String) (m : OutputNode) : OutputNode :=
  { m with lastValue := v, evaluated := true, lastWritten := written.or m.lastWritten }

namespace Engine

/-! ## The fate of an update -/

/-- How often the node was evaluated in the running cycle. -/
def passesOf (e : Engine) (id : String) : Nat := (e.passes.lookup id).getD 0

/-- What the processing of an update comes to. -/
inductive Fate where
  | passedOver
  | brokenOff (n : OutputNode)
  | evaluated (n : OutputNode)

/-- What the processing of this update comes to. -/
def fate (e : Engine) (entry : QueueEntry) : Fate :=
  if e.halted then .passedOver
  else
    match e.registry.find? entry.node with
    | none => .passedOver
    | some n =>
      if entry.source == some n.id || e.shouldSkip n then .passedOver
      else if e.settings.maxPasses < ((e.passesOf n.id + 1 : Nat) : Int) then .brokenOff n
      else .evaluated n

/-- The engine with one more pass of a node counted. -/
def counted (e : Engine) (n : OutputNode) : Engine :=
  { e with
    passes := (n.id, e.passesOf n.id + 1) :: e.passes.filter (·.1 != n.id)
    detector := if e.passesOf n.id = 0 then e.detector.forget n.id else e.detector }

/-- The engine with its cycle broken off because of a node. -/
def brokenOff (e : Engine) (n : OutputNode) : Engine :=
  { e.report [.unsettled n.id e.settings.maxPasses] with
    halted := true
    scheduler := e.scheduler.clear }

theorem process_eq (e : Engine) (entry : QueueEntry) :
    e.process entry =
      match e.fate entry with
      | .passedOver => e.finish
      | .brokenOff n => (e.brokenOff n).finish
      | .evaluated n => (e.counted n).evaluateNode n entry := by
  by_cases hh : e.halted = true
  · rw [process, fate, if_pos hh, if_pos hh]
  · rw [process, fate, if_neg hh, if_neg hh]
    cases hn : e.registry.find? entry.node with
    | none => rfl
    | some n =>
      dsimp only
      by_cases hs : (entry.source == some n.id || e.shouldSkip n) = true
      · rw [if_pos hs, if_pos hs]
      · rw [if_neg hs, if_neg hs]
        by_cases hp : e.settings.maxPasses < ((e.passesOf n.id + 1 : Nat) : Int)
        · rw [if_pos hp]
          exact if_pos hp
        · rw [if_neg hp]
          refine (if_neg hp).trans ?_
          simp only [Nat.add_eq_right]
          rfl

/-- An update that evaluates a node is neither caused by it nor made while the node is edited. -/
structure Evaluates (e : Engine) (entry : QueueEntry) (n : OutputNode) : Prop where
  running : e.halted = false
  found : e.registry.find? entry.node = some n
  foreign : entry.source ≠ some n.id
  free : e.shouldSkip n = false
  within : ((e.passesOf n.id + 1 : Nat) : Int) ≤ e.settings.maxPasses

theorem evaluates_of_fate {e : Engine} {entry : QueueEntry} {n : OutputNode}
    (h : e.fate entry = .evaluated n) : e.Evaluates entry n := by
  unfold fate at h
  split at h
  · cases h
  · next hh =>
    split at h
    · cases h
    · next m hm =>
      split at h
      · cases h
      · next hs =>
        split at h
        · cases h
        · next hp =>
          cases h
          simp only [Bool.or_eq_true, beq_iff_eq, not_or, Bool.not_eq_true] at hs
          exact ⟨by simpa using hh, hm, hs.1, hs.2, Int.not_lt.mp hp⟩

theorem fate_of_evaluates {e : Engine} {entry : QueueEntry} {n : OutputNode}
    (h : e.Evaluates entry n) : e.fate entry = .evaluated n := by
  unfold fate
  rw [if_neg (by simp [h.running]), h.found]
  dsimp only
  rw [if_neg (by simp [h.foreign, h.free]), if_neg (Int.not_lt.mpr h.within)]

/-- The update of a registered node is not passed over in a cycle that goes on, unless it is caused
by the node or the node is skipped. -/
theorem fate_ne_passedOver {e : Engine} {entry : QueueEntry} {n : OutputNode}
    (running : e.halted = false) (found : e.registry.find? entry.node = some n)
    (foreign : entry.source ≠ some n.id) (free : e.shouldSkip n = false) :
    e.fate entry ≠ .passedOver := by
  unfold fate
  rw [if_neg (by simp [running]), found]
  dsimp only
  rw [if_neg (by simp [foreign, free])]
  split
  · nofun
  · nofun

/-- A node that has a pass left does not break the cycle off. -/
theorem fate_ne_brokenOff {e : Engine} {entry : QueueEntry}
    (hpasses : ((e.passesOf entry.node + 1 : Nat) : Int) ≤ e.settings.maxPasses)
    (n : OutputNode) : e.fate entry ≠ .brokenOff n := by
  unfold fate
  split
  · nofun
  · split
    · nofun
    · next m hm =>
      obtain ⟨-, hid⟩ := Registry.mem_of_find? hm
      rw [← hid] at hpasses
      split
      · nofun
      · rw [if_neg (Int.not_lt.mpr hpasses)]
        nofun

/-! ## Evaluating a node -/

/-- What the expression of a node evaluates to now. -/
def computed (e : Engine) (n : OutputNode) : Expr.Eval Value :=
  (e.evaluator.evaluate n.expression e.resolve e.rows).1.1

/-- A value that is not held back: it neither repeats the last values nor goes back and forth
between them. -/
def accepts (e : Engine) (n : OutputNode) (v : Value) (entry : QueueEntry) : Bool :=
  (e.detector.observe n.id v (entry.source.any n.linked.contains)).1 == .changed &&
    !(n.evaluated && e.detector.tolerances.converged v n.lastValue)

/-- The engine when a value of a node was computed and judged. -/
structure Judged (e : Engine) (n : OutputNode) (e' : Engine) : Prop where
  eq : ∃ ns, e' = { e with
    evaluator := (e.evaluator.evaluate n.expression e.resolve e.rows).2
    detector := e'.detector
    notices := ns }
  tolerances : e'.detector.tolerances = e.detector.tolerances
  historySize : e'.detector.historySize = e.detector.historySize

/-- Whatever sees neither the evaluator, nor the detector, nor the notices stays the same. -/
theorem Judged.unseen {α : Type} {e e' : Engine} {n : OutputNode} (h : e.Judged n e')
    (f : Engine → α)
    (hf : ∀ evaluator detector notices, f { e with evaluator, detector, notices } = f e) :
    f e' = f e := by
  obtain ⟨⟨ns, heq⟩, -, -⟩ := h
  rw [heq]
  exact hf _ _ _

/-- The ends that the evaluation of a node comes to. -/
inductive Evaluated (e : Engine) (n : OutputNode) (entry : QueueEntry) : Move → Prop where
  | failed (err : Expr.EvalError) (e' : Engine) (value : e.computed n = .error err)
    (judged : e.Judged n e') : Evaluated e n entry (.fail e' (.evaluation err))
  | tooLong (v : Value) (e' : Engine) (value : e.computed n = .ok v)
    (full : e.detector.canRemember = false) (judged : e.Judged n e') :
    Evaluated e n entry (.fail e' .historyTooLong)
  | keptOut (v : Value) (e' : Engine) (value : e.computed n = .ok v)
    (room : e.detector.canRemember = true) (out : e.accepts n v entry = false)
    (judged : e.Judged n e') : Evaluated e n entry e'.finish
  | accepted (v : Value) (e' : Engine) (value : e.computed n = .ok v)
    (room : e.detector.canRemember = true) (new : e.accepts n v entry = true)
    (judged : e.Judged n e') : Evaluated e n entry (e'.accept n v entry)

theorem evaluated_evaluateNode (e : Engine) (n : OutputNode) (entry : QueueEntry) :
    Evaluated e n entry (e.evaluateNode n entry) := by
  unfold evaluateNode
  cases hev : e.evaluator.evaluate n.expression e.resolve e.rows with
  | mk outcome evaluator =>
    obtain ⟨result, notices⟩ := outcome
    have hc : e.computed n = result := by rw [computed, hev]
    have hsnd : (e.evaluator.evaluate n.expression e.resolve e.rows).2 = evaluator := by rw [hev]
    cases result with
    | error err => exact .failed err _ hc ⟨⟨_, by rw [hsnd]; rfl⟩, rfl, rfl⟩
    | ok v =>
      dsimp only
      unfold judge
      split
      · next hd =>
        have hfull : (!e.detector.canRemember) = true := hd
        exact .tooLong v _ hc (by simpa using hfull) ⟨⟨_, by rw [hsnd]; rfl⟩, rfl, rfl⟩
      · next hd =>
        have hnot : ¬ (!e.detector.canRemember) = true := hd
        have hroom : e.detector.canRemember = true := by simpa using hnot
        dsimp only
        generalize hverdict :
          (({ e with evaluator }.report notices).detector.observe n.id v
            (entry.source.any n.linked.contains)).1 = verdict
        have haccepts : e.accepts n v entry = (verdict == .changed &&
            !(n.evaluated && e.detector.tolerances.converged v n.lastValue)) := by
          rw [← hverdict]
          rfl
        cases verdict with
        | oscillating =>
          exact .keptOut v _ hc hroom haccepts ⟨⟨_, by rw [hsnd]; rfl⟩, rfl, rfl⟩
        | converged =>
          exact .keptOut v _ hc hroom haccepts ⟨⟨_, by rw [hsnd]; rfl⟩, rfl, rfl⟩
        | changed =>
          dsimp only
          split
          · next h =>
            have hsame : (n.evaluated && e.detector.tolerances.converged v n.lastValue) = true := h
            refine .keptOut v _ hc hroom ?_ ⟨⟨_, by rw [hsnd]; rfl⟩, rfl, rfl⟩
            rw [haccepts, hsame]
            rfl
          · next h =>
            have hnew : ¬ (n.evaluated && e.detector.tolerances.converged v n.lastValue) = true := h
            refine .accepted v _ hc hroom ?_ ⟨⟨_, by rw [hsnd]; rfl⟩, rfl, rfl⟩
            rw [haccepts, Bool.not_eq_true _ |>.mp hnew]
            rfl

theorem displayable_of_evaluateStrict {ev : Evaluator} {source : String}
    {lookup : String → Value} {rows : List Int} {v : Value}
    (h : (ev.evaluateStrict source lookup rows).1 = .ok v) : v.Displayable := by
  unfold Evaluator.evaluateStrict at h
  split at h
  · cases h
  · next t ev' _ =>
    cases hx : Expr.eval ⟨lookup, rows, ev'.locale⟩ t.tree with
    | error err =>
      rw [hx] at h
      cases h
    | ok x =>
      rw [hx] at h
      exact Expr.displayable_of_finalize h

/-- What an evaluation gives can be displayed. -/
theorem displayable_of_computed {e : Engine} {n : OutputNode} {v : Value}
    (h : e.computed n = .ok v) : v.Displayable := by
  unfold computed Evaluator.evaluate at h
  cases hr : (e.evaluator.evaluateStrict n.expression e.resolve e.rows).1 with
  | ok w =>
    dsimp only at h
    rw [hr] at h
    cases h
    exact displayable_of_evaluateStrict hr
  | error err =>
    dsimp only at h
    rw [hr, Expr.forgive] at h
    split at h
    · cases h
    · cases h
      exact Or.inr ⟨_, rfl, by decide +kernel⟩

/-! ## Accepting a value -/

/-- The text that is written for a value of a node: its display, if writing is wanted and the text
is neither the one written last nor, where none was written, that of the field. -/
def toWrite (e : Engine) (n : OutputNode) (v : Value) : Option String :=
  match (v.display e.locale n.format).1 with
  | .error _ => none
  | .ok text =>
    if (n.lastWritten.orElse fun _ => e.tree.read n.field) == some text || !n.autoApply then none
    else some text

/-- What is written is the display of the value. -/
theorem display_of_toWrite {e : Engine} {n : OutputNode} {v : Value} {text : String}
    (h : e.toWrite n v = some text) :
    n.autoApply = true ∧ (v.display e.locale n.format).1 = .ok text := by
  unfold toWrite at h
  split at h
  · cases h
  · next text' htext =>
    split at h
    · cases h
    · next hkeep =>
      cases h
      rw [Bool.or_eq_true, not_or, Bool.not_eq_true', Bool.not_eq_false] at hkeep
      exact ⟨hkeep.2, htext⟩

/-- Where writing is wanted nothing is written only if the text is there already. -/
theorem shown_of_toWrite_none {e : Engine} {n : OutputNode} {v : Value} {text : String}
    (h : e.toWrite n v = none) (happly : n.autoApply = true)
    (htext : (v.display e.locale n.format).1 = .ok text) :
    (n.lastWritten.orElse fun _ => e.tree.read n.field) = some text := by
  unfold toWrite at h
  rw [htext] at h
  dsimp only at h
  split at h
  · next hkeep =>
    rw [happly, Bool.not_true, Bool.or_false, beq_iff_eq] at hkeep
    exact hkeep
  · cases h

/-- The engine when a value was stored for a node, perhaps written to its field, and announced. -/
def Stored (e : Engine) (n : OutputNode) (v : Value) (e' : Engine) : Prop :=
  ∃ (written : Option String) (ns : List Notice), e' = { e with
    registry := e.registry.modify n.id (·.store v written)
    tree := written.elim e.tree (e.tree.write n.field)
    notices := ns
    changed := if e.changed.contains n.id then e.changed else e.changed ++ [n.id]
    announcing := { n with lastValue := v, evaluated := true } :: e.announcing } ∧
    written = e.toWrite n v

theorem modify_store_some (r : Registry) (id : String) (v : Value) (text : String) :
    ((r.modify id fun m => { m with lastValue := v, evaluated := true }).modify id fun m =>
        { m with lastWritten := some text }) =
      r.modify id (·.store v (some text)) := by
  unfold Registry.modify
  congr 1
  dsimp only
  rw [List.map_map]
  refine List.map_congr_left fun m _ => ?_
  rw [Function.comp_apply]
  by_cases hm : (m.id == id) = true
  · rw [if_pos hm, if_pos hm, if_pos hm]
    rfl
  · rw [if_neg hm, if_neg hm, if_neg hm]

/-- A value that can be displayed is written, unless that is not wanted. -/
theorem applyNode_eq {e : Engine} {n : OutputNode} (hv : n.lastValue.Displayable)
    (hw : e.writing = false) :
    ∃ (written : Option String) (ns : List Notice), e.applyNode n = .ok { e with
      registry := written.elim e.registry fun text =>
        e.registry.modify n.id fun m => { m with lastWritten := some text }
      tree := written.elim e.tree (e.tree.write n.field)
      notices := ns } ∧ written = e.toWrite n n.lastValue := by
  obtain ⟨text, htext⟩ := hv.display e.locale n.format
  unfold applyNode toWrite
  dsimp only
  rw [htext]
  dsimp only
  split
  · next hkeep => exact ⟨none, _, rfl, (if_pos hkeep).symm⟩
  · next hkeep =>
    refine ⟨some text, e.notices ++ (n.lastValue.display e.locale n.format).2, ?_,
      (if_neg hkeep).symm⟩
    simp only [writeField, report, Option.elim_some, ← hw]

/-- A value that can be displayed is stored, and its watchers are told before it is passed on. -/
theorem accept_eq {e : Engine} {n : OutputNode} {v : Value} (entry : QueueEntry)
    (hv : v.Displayable) (hw : e.writing = false) :
    ∃ e' watchers, e.Stored n v e' ∧
      e.accept n v entry =
        .call e' [.own (.watchers n.id n.lastValue v watchers), .own (.propagate entry)] := by
  obtain ⟨written, ns, happly, hwritten⟩ := applyNode_eq
    (e := { e with registry := e.registry.modify n.id fun m =>
      { m with lastValue := v, evaluated := true } })
    (n := { n with lastValue := v, evaluated := true }) hv hw
  unfold accept
  dsimp only
  rw [happly]
  dsimp only
  refine ⟨_, _, ⟨written, ns, ?_, hwritten⟩, rfl⟩
  cases written with
  | none => rfl
  | some text =>
    simp only [Option.elim_some]
    rw [modify_store_some]

/-! ## Passing a change on -/

/-- A linked node hears of a change of another one. -/
def hears (n : OutputNode) (source : Option String) (readers : List String) (e : Engine)
    (peer : String) : Bool :=
  n.linked.contains peer && !(source == some peer) &&
    ((e.registry.find? peer).any fun p => inScope p.scope e.scope) &&
    !e.scheduler.isPending peer && !(e.passes.any (·.1 == peer) && !readers.contains peer)

/-- Lets a linked node wait if it hears of the change. -/
def passOn (n : OutputNode) (source : Option String) (readers : List String) (e : Engine)
    (peer : String) : Engine :=
  if hears n source readers e peer then e.enqueue peer .high (some n.id) else e

/-- The engine when the change of a node was passed on. -/
def passed (e : Engine) (n : OutputNode) (source : Option String) : Engine :=
  e.links.order.foldl (passOn n source (e.links.graph.successors n.id)) e

theorem propagateTo_eq {e : Engine} {n : OutputNode} {source : Option String}
    {readers : List String} {peer : String} (h : e.registry.contains peer = true) :
    propagateTo n source readers e peer = .ok (passOn n source readers e peer) := by
  obtain ⟨p, hp⟩ := Option.isSome_iff_exists.mp h
  have hnode : e.node peer = .ok p := by rw [node, hp]
  unfold propagateTo passOn hears
  simp only [hnode, hp, Bind.bind, Except.bind, Option.any_some]
  -- The guards one after another are one guard
  cases n.linked.contains peer <;> cases source == some peer <;>
    cases inScope p.scope e.scope <;> cases e.scheduler.isPending peer <;>
    cases e.passes.any (·.1 == peer) <;> cases readers.contains peer <;> rfl

/-- Passing on leaves everything but the queue as it is. -/
structure Queued (e e' : Engine) : Prop where
  eq : ∃ queue ns, e' = { e with scheduler := { e.scheduler with queue }, notices := ns }
  maxQueue : e'.scheduler.queue.maxQueue = e.scheduler.queue.maxQueue
  nodup : e.scheduler.queue.nodes.Nodup → e'.scheduler.queue.nodes.Nodup

theorem Queued.refl (e : Engine) : Queued e e := ⟨⟨_, _, rfl⟩, rfl, id⟩

theorem Queued.trans {e e' e'' : Engine} (h : Queued e e') (h' : Queued e' e'') :
    Queued e e'' := by
  obtain ⟨⟨q, ns, rfl⟩, hm, hn⟩ := h
  obtain ⟨⟨q', ns', rfl⟩, hm', hn'⟩ := h'
  exact ⟨⟨q', ns', rfl⟩, hm'.trans hm, hn' ∘ hn⟩

theorem queued_enqueue (e : Engine) (id : String) (priority : Priority)
    (source : Option String) : Queued e (e.enqueue id priority source) :=
  ⟨⟨_, _, rfl⟩, UpdateQueue.enqueue_maxQueue, UpdateQueue.nodup_enqueue⟩

theorem queued_passOn (n : OutputNode) (source : Option String) (readers : List String)
    (e : Engine) (peer : String) : Queued e (passOn n source readers e peer) := by
  rw [passOn]
  split
  · exact queued_enqueue e peer _ _
  · exact .refl e

theorem queued_passOnAll (n : OutputNode) (source : Option String) (readers peers : List String)
    (e : Engine) : Queued e (peers.foldl (passOn n source readers) e) := by
  induction peers generalizing e with
  | nil => exact .refl e
  | cons peer peers ih => exact (queued_passOn n source readers e peer).trans (ih _)

theorem queued_passed (e : Engine) (n : OutputNode) (source : Option String) :
    Queued e (e.passed n source) := queued_passOnAll n source _ e.links.order e

/-- A linked node that hears of the change waits, or there is no such node. -/
theorem propagateTo_cases (n : OutputNode) (source : Option String) (readers : List String)
    (e : Engine) (peer : String) :
    propagateTo n source readers e peer = .ok (passOn n source readers e peer) ∨
      propagateTo n source readers e peer = .error (.unknownNode peer) := by
  by_cases h : e.registry.contains peer = true
  · exact Or.inl (propagateTo_eq h)
  · have hnone : e.registry.find? peer = none := by
      rw [← Option.isNone_iff_eq_none, ← Option.not_isSome]
      simpa [Registry.contains] using h
    have hnode : e.node peer = .error (.unknownNode peer) := by rw [node, hnone]
    unfold propagateTo passOn hears
    rw [hnode, hnone]
    split
    · exact Or.inl (by simp)
    · exact Or.inr rfl

/-- A change is passed on to some of the nodes, also where the next one is not registered. -/
theorem propagate_cases {e : Engine} (entry : QueueEntry) {n : OutputNode}
    {announcing : List OutputNode} (hn : e.announcing = n :: announcing) :
    ∃ (peers : List String) (r : Reply Response EngineError), e.propagate entry =
      .reply (peers.foldl (passOn n entry.source (e.links.graph.successors n.id))
        { e with announcing }) r := by
  have hall : ∀ (readers order : List String) (e : Engine), ∃ (peers : List String) (r : _),
      propagateAll n entry.source readers e order =
        .reply (peers.foldl (passOn n entry.source readers) e) r := by
    intro readers order
    induction order with
    | nil => exact fun e => ⟨[], _, rfl⟩
    | cons peer order ih =>
      intro e
      rw [propagateAll]
      rcases propagateTo_cases n entry.source readers e peer with h | h
      · rw [h]
        obtain ⟨peers, r, hends⟩ := ih (passOn n entry.source readers e peer)
        exact ⟨peer :: peers, r, hends⟩
      · rw [h]
        exact ⟨[], _, rfl⟩
  unfold propagate
  rw [hn]
  exact hall _ e.links.order { e with announcing }

/-- So it is over at once, and leaves everything as it is but the queue and the announcement. -/
theorem propagate_reply (e : Engine) (entry : QueueEntry) :
    ∃ e' r, e.propagate entry = .reply e' r ∧
      Queued { e with announcing := e.announcing.tail } e' := by
  cases hn : e.announcing with
  | nil =>
    refine ⟨e, .returned (.plain .done), ?_, ?_⟩
    · unfold propagate
      rw [hn]
      rfl
    · rw [List.tail_nil, ← hn]
      exact .refl e
  | cons n announcing =>
    obtain ⟨peers, r, heq⟩ := propagate_cases entry hn
    exact ⟨_, r, heq, queued_passOnAll n entry.source _ peers _⟩

/-- Where the nodes in order are registered, a change can be passed on. -/
theorem propagate_eq {e : Engine} (entry : QueueEntry)
    (h : ∀ peer ∈ e.links.order, e.registry.contains peer = true) {n : OutputNode}
    {announcing : List OutputNode} (hn : e.announcing = n :: announcing) :
    e.propagate entry = ({ e with announcing }.passed n entry.source).finish := by
  have hall : ∀ (peers readers : List String) (e : Engine),
      (∀ peer ∈ peers, e.registry.contains peer = true) →
      propagateAll n entry.source readers e peers =
        (peers.foldl (passOn n entry.source readers) e).finish := by
    intro peers readers
    induction peers with
    | nil => exact fun e _ => rfl
    | cons peer peers ih =>
      intro e hall
      obtain ⟨q, ns, hq⟩ := (queued_passOn n entry.source readers e peer).eq
      rw [propagateAll, propagateTo_eq (hall peer List.mem_cons_self)]
      refine ih _ fun p hp => ?_
      rw [hq]
      exact hall p (List.mem_cons_of_mem _ hp)
  unfold propagate
  rw [hn]
  exact hall _ _ _ h

end Engine

end LiveForm
