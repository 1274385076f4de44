import LiveForm.Proofs.Engine.Cycles
import LiveForm.Proofs.Engine.Reading

/-!
# What lasts

The form, the nodes and the bindings change in few ways: a value is stored, the form is read again,
a field is bound, or an operation changes the form.  What each of these keeps holds of every
configuration that an engine comes to.
-/

namespace LiveForm.Engine

open Machine (after state_after Runs)

variable {settings : Settings} {mode : YieldMode} {e e' : Engine} {P : Engine → Prop}

/-- What is kept by whatever an engine does on its own accord. -/
structure Lasts (settings : Settings) (mode : YieldMode) (P : Engine → Prop) : Prop where
  congr : ∀ {e e'}, P e → e'.holdings = e.holdings → P e'
  rescan : ∀ {e}, Sound settings mode e → P e → P e.rescan.1
  withValue : ∀ {e n v}, Sound settings mode e → n ∈ e.registry.nodes → v.Displayable →
    P e → P (e.withValue n v)
  bound : ∀ {e} name, P e → P (e.bound name)

/-! ## Steps that change no holdings -/

theorem holdings_ofScheduler (e : Engine) (m : Scheduler.Move EngineError) :
    (e.ofScheduler m).state.holdings = e.holdings := by
  rw [ofScheduler, Move.state_embed]
  rfl

theorem holdings_ofDebouncer (e : Engine) (m : Debouncer.Move Trigger Trigger EngineError) :
    (e.ofDebouncer m).state.holdings = e.holdings := by
  rw [ofDebouncer, Move.state_embed]
  rfl

theorem holdings_drain (e : Engine) : e.drain.state.holdings = e.holdings := by
  unfold drain
  dsimp only
  rw [holdings_ofScheduler]
  split
  · rfl
  · rfl

theorem holdings_complete (e : Engine) : e.complete.state.holdings = e.holdings := by
  unfold complete
  dsimp only
  split
  · rfl
  · rw [state_tellListeners]
    rfl

theorem holdings_edited (e : Engine) (name : String) (user : Bool) :
    (e.edited name user).holdings = e.holdings := by
  unfold edited
  split
  · rfl
  · rfl

theorem holdings_pump (e : Engine) (m : Scheduler.Move EngineError) :
    (e.pump m).state.holdings = e.holdings := by
  unfold pump
  split
  · exact holdings_ofScheduler e m
  · rfl

namespace Lasts

variable (h : Lasts settings mode P)
include h

/-! ## Going on -/

theorem process (hc : Sound settings mode e) (hp : P e) (entry : QueueEntry) :
    P (e.process entry).state := by
  rw [process_eq]
  split
  · exact hp
  · exact h.congr hp rfl
  · next n hfate =>
    obtain ⟨hmem, -⟩ := Registry.mem_of_find? (evaluates_of_fate hfate).found
    have hp' : P (e.counted n) := h.congr hp rfl
    have hm := (e.counted n).evaluated_evaluateNode n entry
    generalize (e.counted n).evaluateNode n entry = m at hm ⊢
    cases hm with
    | failed err e' value judged => exact h.congr hp' (holdings_judged judged)
    | tooLong v e' value full judged => exact h.congr hp' (holdings_judged judged)
    | keptOut v e' value room out judged => exact h.congr hp' (holdings_judged judged)
    | accepted v e' value room new judged =>
      have hc' := (hc.counted n).judged judged
      have hv := displayable_of_computed value
      obtain ⟨e'', watchers, hstored, heq⟩ := accept_eq entry hv hc'.writing
      have hmem' : n ∈ e'.registry.nodes := by
        rw [judged.unseen registry fun _ _ _ => rfl]
        exact hmem
      rw [heq]
      exact h.congr (h.withValue hc' hmem' hv (h.congr hp' (holdings_judged judged)))
        (holdings_stored hstored)

theorem schedule_drain (hp : P e) (ids : List String) (priority : Priority)
    (source scope : Option String) : P (e.schedule ids priority source scope).drain.state :=
  h.congr hp ((holdings_drain _).trans (holdings_schedule e ids priority source scope))

theorem handle (hc : Sound settings mode e) (hp : P e) (t : Trigger) :
    P (e.handle t).state := by
  rcases handle_cases e t with heq | ⟨e₁, ids, priority, source, rfl | rfl, heq⟩
  · exact heq ▸ h.rescan hc hp
  · exact heq ▸ h.schedule_drain hp _ _ _ _
  · exact heq ▸ h.schedule_drain (h.rescan hc hp) _ _ _ _

theorem recompute (hc : Sound settings mode e) (hp : P e) (scope : Option String) :
    P (e.recompute scope).state := by
  rcases recompute_cases e scope with ⟨err, heq⟩ | ⟨ids, heq⟩
  · exact heq ▸ h.rescan hc hp
  · exact heq ▸ h.schedule_drain (h.rescan hc hp) _ _ _ _

theorem resume (hc : Sound settings mode e) (hp : P e) (f : Frame) : P (e.resume f).state := by
  cases f with
  | queue f => exact h.congr hp (holdings_ofScheduler e _)
  | clock f => exact h.congr hp (holdings_ofDebouncer e _)
  | handle t => exact h.handle hc hp t
  | process entry => exact h.process hc hp entry
  | batchDone => exact hp
  | watchers id old new rest => exact (state_tellWatchers e id old new rest).symm ▸ hp
  | propagate entry =>
    obtain ⟨e', r, heq, hq⟩ := propagate_reply e entry
    show P (e.propagate entry).state
    rw [heq]
    exact h.congr hp (holdings_queued (e := { e with announcing := e.announcing.tail }) hq)
  | complete => exact h.congr hp (holdings_complete e)
  | listeners changed rest => exact (state_tellListeners e changed rest).symm ▸ hp

theorem recover (hp : P e) (f : Frame) (err : EngineError) : P (e.recover f err).state := by
  cases f with
  | queue f => exact h.congr hp rfl
  | watchers id old new rest =>
    rw [Engine.recover, state_tellWatchers]
    exact h.congr hp rfl
  | listeners changed rest =>
    rw [Engine.recover, state_tellListeners]
    exact h.congr hp rfl
  | clock _ | handle _ | process _ | batchDone | propagate _ | complete => exact hp

/-! ## Operations -/

theorem settle (hc : Sound settings mode e) (hp : P e) (t : Trigger) (delay : Binary64) :
    P (e.settle t delay).state := by
  unfold Engine.settle
  split
  · exact h.congr hp rfl
  · exact h.handle hc hp t

theorem notifyInput (hc : Sound settings mode e) (hp : P e) (name : String) (user : Bool) :
    P (e.notifyInput name user).state := by
  rw [notifyInput_eq hc.writing]
  split
  · exact h.bound name hp
  · exact h.settle ((hc.bound name).congr (core_edited _ name user))
      (h.congr (h.bound name hp) (holdings_edited _ name user)) _ _

theorem changeTree (hc : Sound settings mode e) (hp : P e)
    {change : Except TreeError FormTree}
    (ht : ∀ tree, change = .ok tree → tree.Proper ∧ P { e with tree }) (event : TreeEvent)
    (notify : Bool) : P (e.changeTree change event notify).state := by
  unfold Engine.changeTree
  split
  · exact hp
  · next tree =>
    obtain ⟨hproper, hp'⟩ := ht tree rfl
    have hc' := hc.withTree hproper
    dsimp only
    split
    · unfold deliver
      split
      · split
        · exact h.notifyInput hc' hp' _ _
        · exact h.settle hc' hp' _ _
      · exact hp'
    · exact hp'

end Lasts

/-- The form when an operation has changed it. -/
def Operation.change (tree : FormTree) : Operation → Except TreeError FormTree
  | .addField name value scope _ => tree.addField name value scope
  | .addOutput spec value _ => tree.addOutput spec value
  | .removeField name _ => tree.remove name
  | .setValue name value _ => tree.setValue name value
  | .focus name => .ok (tree.focus name)
  | .write name text => .ok (tree.write name text)
  | _ => .ok tree

/-- An operation keeps what its change of the form keeps. -/
theorem Lasts.perform (h : Lasts settings mode P) (hc : Sound settings mode e) (hp : P e)
    {op : Operation} (ht : ∀ tree, op.change e.tree = .ok tree → P { e with tree }) :
    P (e.perform op).state := by
  cases op with
  | attach compute =>
    have hc' : Sound settings mode { e with attached := true } := hc.congr rfl
    have hp' : P { e with attached := true } := h.congr hp rfl
    cases compute with
    | true => exact h.recompute hc' hp' none
    | false =>
      obtain ⟨r, heq⟩ := reply_attach e
      exact heq ▸ h.rescan hc' hp'
  | detach => exact h.congr hp rfl
  | recompute scope => exact h.recompute hc hp scope
  | rescan =>
    obtain ⟨r, heq⟩ := reply_rescan e
    exact heq ▸ h.rescan hc hp
  | notifyInput name user => exact h.notifyInput hc hp name user
  | notifyLayout => exact h.settle hc hp _ _
  | flush =>
    unfold Engine.perform
    dsimp only
    split
    · exact h.congr hp (holdings_ofDebouncer e _)
    · exact hp
  | advance seconds => exact h.congr hp (holdings_ofDebouncer e _)
  | runTimers => exact h.congr hp (holdings_ofDebouncer e _)
  | runNext => exact h.congr hp (holdings_pump e _)
  | runAll => exact h.congr hp (holdings_pump e _)
  | addField name value scope notify =>
    exact h.changeTree hc hp (fun tree htree => ⟨hc.tree.addField htree, ht tree htree⟩) _ _
  | addOutput spec value notify =>
    exact h.changeTree hc hp (fun tree htree => ⟨hc.tree.addOutput htree, ht tree htree⟩) _ _
  | removeField name notify =>
    exact h.changeTree hc hp (fun tree htree => ⟨hc.tree.remove htree, ht tree htree⟩) _ _
  | setValue name value user =>
    exact h.changeTree hc hp (fun tree htree => ⟨hc.tree.setValue htree, ht tree htree⟩) _ _
  | focus name => exact ht _ rfl
  | write name text =>
    exact h.changeTree hc hp (fun tree htree =>
      ⟨Except.ok.inj htree ▸ hc.tree.write name text, ht tree htree⟩) _ _

/-! ## Any use -/

/-- The configurations that an engine comes to on a form of some kind, when only permitted
operations are performed, from outside or by watchers and listeners. -/
inductive Arises (settings : Settings) (mode : YieldMode) (start : FormTree → Prop)
    (permits : Engine → Operation → Prop) : Running → Prop where
  | create {tree : FormTree} (proper : tree.Proper) (kind : start tree) (debounces : Bool) :
    Arises settings mode start permits
      ⟨.create tree settings mode debounces, [], .returned default⟩
  | perform {e : Engine} {r : Reply Response EngineError}
    (h : Arises settings mode start permits ⟨e, [], r⟩) {op : Operation}
    (permitted : permits e op) :
    Arises settings mode start permits (after [] (e.perform op))
  | resume {e : Engine} {f : Frame} {below : List (Activity Frame Ask)}
    {r : Reply Response EngineError}
    (h : Arises settings mode start permits ⟨e, .own f :: below, r⟩) :
    Arises settings mode start permits (machine.step ⟨e, .own f :: below, r⟩)
  | reenter {e : Engine} {k : Ask} {below : List (Activity Frame Ask)}
    {r : Reply Response EngineError}
    (h : Arises settings mode start permits ⟨e, .ask k :: below, r⟩)
    {op : Operation} (permitted : permits e op) :
    Arises settings mode start permits (after (.ask k :: below) (e.perform op))
  | answer {e : Engine} {k : Ask} {below : List (Activity Frame Ask)}
    {r : Reply Response EngineError}
    (h : Arises settings mode start permits ⟨e, .ask k :: below, r⟩)
    (r' : Reply Response EngineError) : Arises settings mode start permits ⟨e, below, r'⟩
  | aside {e e' : Engine} {stack : List (Activity Frame Ask)} {r : Reply Response EngineError}
    (h : Arises settings mode start permits ⟨e, stack, r⟩) (beside : e.Aside e') :
    Arises settings mode start permits ⟨e', stack, r⟩

variable {start : FormTree → Prop} {permits : Engine → Operation → Prop} {c : Running}

/-- Whatever is done to an engine, its parts are sound. -/
theorem Arises.sound (h : Arises settings mode start permits c) :
    Sound settings mode c.state := by
  induction h with
  | create proper _ debounces => exact (coherent_create proper settings mode debounces).toSound
  | perform _ _ ih => exact state_after (ρ := Response) _ _ ▸ ih.perform _
  | @resume e f below r _ ih =>
    cases r with
    | returned r => exact state_after below (e.resume f) ▸ ih.resume f
    | raised err => exact state_after below (e.recover f err) ▸ ih.congr (core_recover e f err)
  | reenter _ _ ih => exact state_after (ρ := Response) _ _ ▸ ih.perform _
  | answer _ r' ih => exact ih
  | aside _ beside ih => exact ih.aside beside

/-- What lasts holds of every configuration if it holds at first and the permitted operations keep
it. -/
theorem Lasts.arises (h : Lasts settings mode P)
    (hstart : ∀ tree debounces, tree.Proper → start tree → P (.create tree settings mode debounces))
    (hchange : ∀ {e op tree}, Sound settings mode e → P e → permits e op →
      op.change e.tree = .ok tree → P { e with tree })
    (ha : Arises settings mode start permits c) : P c.state := by
  induction ha with
  | create proper kind debounces => exact hstart _ debounces proper kind
  | perform harises permitted ih =>
    have hc := harises.sound
    exact state_after (ρ := Response) _ _ ▸ h.perform hc ih fun _ ht => hchange hc ih permitted ht
  | @resume e f below r harises ih =>
    have hc := harises.sound
    cases r with
    | returned r => exact state_after below (e.resume f) ▸ h.resume hc ih f
    | raised err => exact state_after below (e.recover f err) ▸ h.recover ih f err
  | reenter harises permitted ih =>
    have hc := harises.sound
    exact state_after (ρ := Response) _ _ ▸ h.perform hc ih fun _ ht => hchange hc ih permitted ht
  | answer _ r' ih => exact ih
  | aside _ beside ih =>
    obtain ⟨ws, ls, k, ns, writes, rfl⟩ := beside
    exact h.congr ih rfl

/-- An operation goes on to its end among surroundings that answer. -/
theorem Arises.run (h : Arises settings mode start permits c)
    (answer : Engine → Ask → Reply Response EngineError) (n : Nat) :
    Arises settings mode start permits ((among answer).run n c) := by
  refine Machine.run_keeps (fun {c} hc hstack => ?_) h n
  obtain ⟨e, stack, r⟩ := c
  match stack, r with
  | [], _ => exact absurd rfl hstack
  | .own f :: below, .returned r => exact hc.resume
  | .own f :: below, .raised err => exact hc.resume
  | .ask k :: below, _ => exact hc.answer (answer e k)

/-! ## Careful use -/

/-- The configurations that an engine comes to on a form of some kind, when only permitted
operations are performed. -/
inductive Used (settings : Settings) (mode : YieldMode) (start : FormTree → Prop)
    (permits : Engine → Operation → Prop) : Running → Prop where
  | create {tree : FormTree} (proper : tree.Proper) (kind : start tree) (debounces : Bool) :
    Used settings mode start permits
      ⟨.create tree settings mode debounces, [], .returned default⟩
  | perform {e : Engine} {r : Reply Response EngineError}
    (h : Used settings mode start permits ⟨e, [], r⟩) {op : Operation} (permitted : permits e op) :
    Used settings mode start permits (after [] (e.perform op))
  | resume {e : Engine} {f : Frame} {below : List (Activity Frame Ask)}
    {r : Reply Response EngineError}
    (h : Used settings mode start permits ⟨e, .own f :: below, r⟩) :
    Used settings mode start permits (machine.step ⟨e, .own f :: below, r⟩)
  | reenter {e : Engine} {k : Ask} {below : List (Activity Frame Ask)}
    {r : Reply Response EngineError} (h : Used settings mode start permits ⟨e, .ask k :: below, r⟩)
    {op : Operation} (permitted : permits e op) (listening : op ≠ .detach) :
    Used settings mode start permits (after (.ask k :: below) (e.perform op))
  | answer {e : Engine} {k : Ask} {below : List (Activity Frame Ask)}
    {r : Reply Response EngineError} (h : Used settings mode start permits ⟨e, .ask k :: below, r⟩)
    (r' : Reply Response EngineError) : Used settings mode start permits ⟨e, below, r'⟩
  | aside {e e' : Engine} {stack : List (Activity Frame Ask)} {r : Reply Response EngineError}
    (h : Used settings mode start permits ⟨e, stack, r⟩) (beside : e.Aside e') :
    Used settings mode start permits ⟨e', stack, r⟩

theorem Used.reachable (h : Used settings mode start permits c) : Reachable settings mode c := by
  induction h with
  | create proper _ debounces => exact .create proper debounces
  | perform _ _ ih => exact .perform ih _
  | resume _ ih => exact .resume ih
  | reenter _ _ listening ih => exact .reenter ih listening
  | answer _ r' ih => exact .answer ih r'
  | aside _ beside ih => exact .aside ih beside

theorem Used.arises (h : Used settings mode start permits c) :
    Arises settings mode start permits c := by
  induction h with
  | create proper kind debounces => exact .create proper kind debounces
  | perform _ permitted ih => exact .perform ih permitted
  | resume _ ih => exact .resume ih
  | reenter _ permitted _ ih => exact .reenter ih permitted
  | answer _ r' ih => exact .answer ih r'
  | aside _ beside ih => exact .aside ih beside

/-- An operation is careful to its end if its beginning is, since the surroundings only answer. -/
theorem Used.runs {answer : Engine → Ask → Reply Response EngineError} {us : List Update}
    {c' : Running} (h : Used settings mode start permits c)
    (hr : Runs (among answer) updates c us c') : Used settings mode start permits c' := by
  obtain ⟨n, rfl, -⟩ := hr
  refine Machine.run_keeps (fun {c} hc hstack => ?_) h n
  obtain ⟨e, stack, r⟩ := c
  match stack, r with
  | [], _ => exact absurd rfl hstack
  | .own f :: below, .returned r => exact hc.resume
  | .own f :: below, .raised err => exact hc.resume
  | .ask k :: below, _ => exact hc.answer (answer e k)

/-- Any use is careful if everything is permitted. -/
theorem Reachable.used (h : Reachable settings mode c) :
    Used settings mode (fun _ => True) (fun _ _ => True) c := by
  induction h with
  | create proper debounces => exact .create proper trivial debounces
  | perform _ _ ih => exact .perform ih trivial
  | resume _ ih => exact .resume ih
  | reenter _ listening ih => exact .reenter ih trivial listening
  | answer _ r' ih => exact .answer ih r'
  | aside _ beside ih => exact .aside ih beside

/-- In careful use everything that lasts holds of every configuration, as in any use. -/
theorem Lasts.used (h : Lasts settings mode P)
    (hstart : ∀ tree debounces, tree.Proper → start tree → P (.create tree settings mode debounces))
    (hchange : ∀ {e op tree}, Sound settings mode e → P e → permits e op →
      op.change e.tree = .ok tree → P { e with tree })
    (hu : Used settings mode start permits c) : P c.state :=
  h.arises hstart hchange hu.arises

end LiveForm.Engine
