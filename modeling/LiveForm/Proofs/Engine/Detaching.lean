import LiveForm.Proofs.Engine.Confluent
import LiveForm.Proofs.Engine.Scoping
import LiveForm.Proofs.Engine.Timing

/-!
# An engine that was detached

Detaching lets go of the queue, of the batch that runs and of the changes that rest, but not of
continuations that wait at a manual yield point, and not of the drain that they belong to.  Such a
continuation finds nothing to do: it ends its cycle, for which the listeners are told.  Where no
drain is going on nothing is left at all, and the engine can be attached like a new one.
-/

namespace LiveForm.Engine

open Machine (after state_after Runs Visits)

variable {settings : Settings} {mode : YieldMode} {e e₀ e' : Engine}
  {below : List (Activity Frame Ask)} {c c' : Running} {r : Reply Response EngineError}
  {op : Operation} {answer : Engine → Ask → Reply Response EngineError}

/-! ## Nothing is left to be done -/

/-- What is left of an engine when it was detached: what it knows, and the work that it has. -/
def residue (e : Engine) :=
  (e.tree, e.registry, e.attached, e.debounces, e.scheduler.line, e.debouncer.timers.live,
    e.debouncer.pending)

/-- The engine does not listen, and no work waits or rests. -/
structure Detached (e : Engine) : Prop where
  deaf : e.attached = false
  line : e.scheduler.line = []
  timers : e.debouncer.timers.live = []
  rests : e.debounces = true → e.debouncer.pending = []

theorem Detached.congr (h : Detached e) (hr : e'.residue = e.residue) : Detached e' := by
  simp only [residue, Prod.mk.injEq] at hr
  obtain ⟨-, -, hattached, hdebounces, hline, htimers, hpending⟩ := hr
  exact ⟨hattached ▸ h.deaf, hline ▸ h.line, htimers ▸ h.timers,
    fun hd => hpending ▸ h.rests (hdebounces ▸ hd)⟩

/-- A frame that has no work: a batch that finds nothing waiting, timers and a yield point that go
on, and the end of a cycle. -/
def spent : Activity Frame Ask → Bool
  | .own (.queue (.begin _)) | .own (.queue (.yielding _)) | .own .complete
  | .own (.listeners _ _) | .ask (.listener _ _) | .own (.clock (.clock _))
  | .own (.clock (.flushing [] _)) => true
  | _ => false

/-- A frame that does not even end a cycle. -/
def silent : Activity Frame Ask → Bool
  | .own (.queue (.yielding _)) | .own (.clock (.clock _)) | .own (.clock (.flushing [] _)) => true
  | _ => false

/-- The yield point goes on, perhaps with a batch that waited there. -/
theorem idles_yield (e : Engine) (m : YieldPoint.Move Bool EngineError) :
    Idles residue spent below e (after below (e.ofScheduler (e.scheduler.ofYield m))) := by
  cases m with
  | reply y a =>
    cases a with
    | returned a => exact ⟨rfl, [], rfl, List.forall_mem_nil _⟩
    | raised err => exact ⟨rfl, [], rfl, List.forall_mem_nil _⟩
  | call y fs =>
    refine ⟨rfl, _, rfl, fun f hf => ?_⟩
    obtain ⟨g, hg, rfl⟩ := List.mem_map.mp hf
    obtain ⟨k, -, rfl⟩ := List.mem_map.mp hg
    cases k with
    | own f => rfl
    | ask reports => rfl

/-- A batch that begins where nothing waits ends its drain. -/
theorem idles_begin (h : Detached e) (reports : Bool) :
    Idles residue spent below e
      (after below (e.ofScheduler (e.scheduler.resume (.begin reports)))) := by
  obtain ⟨-, hq⟩ := List.append_eq_nil_iff.mp h.line
  obtain ⟨hqueue, hbatch⟩ := Scheduler.takeBatch_of_empty hq
  have hresume : e.ofScheduler (e.scheduler.resume (.begin reports)) =
      e.taken.ofScheduler (e.taken.scheduler.handOut reports (e.scheduler.takeBatch none).1) := rfl
  have htaken : e.taken.residue = e.residue := by
    have hline : e.taken.scheduler.line = e.scheduler.line := by
      rw [h.line]
      exact List.append_eq_nil_iff.mpr ⟨hbatch, hqueue⟩
    simp only [residue, hline]
    rfl
  rw [hresume]
  unfold Scheduler.handOut
  rw [show e.taken.scheduler.inFlight = [] from hbatch, hbatch]
  simp only [List.isEmpty_nil, Bool.not_true, Bool.and_false, Bool.false_eq_true, if_false]
  unfold Scheduler.goOn
  rw [if_pos (by rw [show e.taken.scheduler.queue.entries = [] from hqueue]; rfl)]
  cases reports with
  | true =>
    refine ⟨htaken, [.own .complete], rfl, fun f hf => ?_⟩
    rw [List.mem_singleton.mp hf]
    rfl
  | false => exact ⟨htaken, [], rfl, List.forall_mem_nil _⟩

theorem idles_listeners (he : e'.residue = e.residue) (changed : List String) (ls : List Nat) :
    Idles residue spent below e (after below (e'.tellListeners changed ls)) :=
  idles_tellListeners he (fun _ _ => rfl) (fun _ _ => rfl) changed ls

theorem idles_complete (e : Engine) : Idles residue spent below e (after below e.complete) := by
  unfold complete
  dsimp only
  split
  · exact ⟨rfl, [], rfl, List.forall_mem_nil _⟩
  · refine idles_listeners ?_ _ _
    rfl

/-- No timer is left that could ring, and time goes on. -/
theorem clock_eq (h : Detached e) (f : Timers.Frame) : ∃ now n,
    e.ofDebouncer (e.debouncer.resume (.clock f)) = .ret { e with debouncer :=
      { e.debouncer with timers := { e.debouncer.timers with now } } } (.plain (.count n)) := by
  have hresume : ∃ now n, (e.debouncer.timers.resume f : Timers.Move _ EngineError) =
      .ret { e.debouncer.timers with now } (.count n) := by
    rcases Timers.resume_cases (ε := EngineError) f e.debouncer.timers with
      ⟨t, rest, now, f', hlive, -⟩ | hret
    · rw [h.timers] at hlive
      cases hlive
    · exact hret
  obtain ⟨now, n, hresume⟩ := hresume
  have hmove : (e.debouncer.resume (.clock f) : Debouncer.Move Trigger Trigger EngineError) =
      .ret { e.debouncer with timers := { e.debouncer.timers with now } } (.count n) := by
    show e.debouncer.ofTimers (e.debouncer.timers.resume f) = _
    rw [hresume]
    rfl
  exact ⟨now, n, by rw [hmove]; rfl⟩

/-- A frame that has no work leaves only such frames, and the engine as it is. -/
theorem idles_step (h : Detached e) {f : Frame} (hf : spent (.own f) = true)
    (r : Reply Response EngineError) :
    Idles residue spent below e (machine.step ⟨e, .own f :: below, r⟩) := by
  have hleft : ∀ err, (∀ e : Engine, e.recover f err = .fail e err) →
      Idles residue spent below e (machine.step ⟨e, .own f :: below, .raised err⟩) := by
    intro err hfail
    show Idles residue spent below e (after below (e.recover f err))
    rw [hfail]
    exact ⟨rfl, [], rfl, List.forall_mem_nil _⟩
  cases f with
  | queue f =>
    cases f with
    | begin reports =>
      cases r with
      | returned a => exact idles_begin h reports
      | raised err => exact hleft err fun e => rfl
    | yielding f =>
      cases r with
      | returned a => exact idles_yield e _
      | raised err => exact ⟨rfl, [], rfl, List.forall_mem_nil _⟩
    | batch _ _ | next _ => cases hf
  | clock f =>
    cases f with
    | clock f =>
      cases r with
      | returned a =>
        obtain ⟨now, n, hclock⟩ := clock_eq h f
        show Idles residue spent below e (after below (e.ofDebouncer _))
        rw [hclock]
        exact ⟨rfl, [], rfl, List.forall_mem_nil _⟩
      | raised err => exact hleft err fun e => rfl
    | ring _ => cases hf
    | flushing rest total =>
      cases rest with
      | nil =>
        cases r with
        | returned a => exact ⟨rfl, [], rfl, List.forall_mem_nil _⟩
        | raised err => exact hleft err fun e => rfl
      | cons _ _ => cases hf
  | complete =>
    cases r with
    | returned a => exact idles_complete e
    | raised err => exact hleft err fun e => rfl
  | listeners changed rest =>
    cases r with
    | returned a => exact idles_listeners rfl changed rest
    | raised err =>
      have hreport : (e.report [.listenerFailed]).residue = e.residue := rfl
      exact idles_listeners hreport changed rest
  | handle _ | process _ | batchDone | watchers _ _ _ _ | propagate _ => cases hf

/-! ## Operations that may come -/

/-- The operation lets work go on that was deferred: by timers, or at the yield point. -/
def Operation.defers : Operation → Bool
  | .flush | .advance _ | .runTimers | .runNext | .runAll => true
  | _ => false

/-- The operation changes the form. -/
def Operation.edits : Operation → Bool
  | .addField .. | .addOutput .. | .removeField .. | .setValue .. | .focus _ | .write .. => true
  | _ => false

/-- There is nothing that could go on. -/
theorem idles_perform (h : Detached e) (hop : op.defers = true) :
    Idles residue spent [] e (after [] (e.perform op)) := by
  have hpump : ∀ m : YieldPoint.Move Bool EngineError,
      Idles residue spent [] e (after [] (e.pump (e.scheduler.ofYield m))) := by
    intro m
    unfold pump
    split
    · exact idles_yield e m
    · exact ⟨rfl, [], rfl, List.forall_mem_nil _⟩
  have hclock : ∀ f : Timers.Frame, Idles residue spent [] e
      ⟨e, [.own (.clock (.clock f))], .returned default⟩ := by
    intro f
    refine ⟨rfl, [_], rfl, fun g hg => ?_⟩
    rw [List.mem_singleton.mp hg]
    rfl
  cases op with
  | flush =>
    unfold perform
    dsimp only
    split
    · next hdebounces =>
      have hpending := h.rests hdebounces
      unfold Debouncer.flush
      rw [hpending]
      refine ⟨?_, [.own (.clock (.flushing [] 0))], rfl, fun f hf => ?_⟩
      · simp only [residue, hpending]
        rfl
      · rw [List.mem_singleton.mp hf]
        rfl
    · exact ⟨rfl, [], rfl, List.forall_mem_nil _⟩
  | advance seconds => exact hclock _
  | runTimers => exact hclock _
  | runNext => exact hpump _
  | runAll => exact hpump _
  | _ => cases hop

/-- Where nobody listens the form may be changed. -/
theorem perform_edit (hdeaf : e.attached = false) (hop : op.edits = true) :
    ∃ tree r, after [] (e.perform op) = ⟨{ e with tree }, [], r⟩ := by
  have hchange : ∀ (change : Except TreeError FormTree) (event : TreeEvent) (notify : Bool),
      ∃ tree r, after [] (e.changeTree change event notify) = ⟨{ e with tree }, [], r⟩ := by
    intro change event notify
    unfold changeTree
    split
    · exact ⟨e.tree, _, rfl⟩
    · next tree =>
      have hdeliver : ({ e with tree } : Engine).deliver event =
          ({ e with tree } : Engine).finish := if_neg (by simp [hdeaf])
      dsimp only
      rw [hdeliver, ite_self]
      exact ⟨tree, _, rfl⟩
  cases op with
  | addField _ _ _ _ | addOutput _ _ _ | removeField _ _ | setValue _ _ _ | write _ _ =>
    unfold perform
    exact hchange _ _ _
  | focus name => exact ⟨_, _, rfl⟩
  | _ => cases hop

/-! ## Courses behind a detachment -/

/-- What happens behind a detachment: the form is changed, and deferred work may go on. -/
abbrev Trailing (c c' : Running) : Prop :=
  Happens (fun op => op.defers = true ∨ op.edits = true) (fun _ => False) c c'

/-- Any number of such steps. -/
abbrev Trail : Running → Running → Prop :=
  Course (fun op => op.defers = true ∨ op.edits = true) (fun _ => False) fun _ => True

/-- The engine has no work, and no frame has any; nothing is known that was not known. -/
structure Spent (e₀ : Engine) (c : Running) : Prop where
  detached : Detached c.state
  registry : c.state.registry = e₀.registry
  stack : ∀ f ∈ c.stack, spent f = true

theorem Spent.idles (h : Spent e₀ c) (hbelow : ∀ f ∈ below, spent f = true)
    (hi : Idles residue spent below c.state c') : Spent e₀ c' := by
  obtain ⟨hresidue, fs, hstack, hfs⟩ := hi
  refine ⟨h.detached.congr hresidue, ?_, fun f hf => ?_⟩
  · have hregistry : c'.state.registry = c.state.registry := congrArg (·.2.1) hresidue
    exact hregistry.trans h.registry
  · rw [hstack] at hf
    rcases List.mem_append.mp hf with hf | hf
    · exact hfs f hf
    · exact hbelow f hf

theorem Spent.trails (h : Spent e₀ c) (hstep : Trailing c c') : Spent e₀ c' := by
  cases hstep with
  | @perform e r op may =>
    rcases may with hdefers | hedits
    · exact h.idles (List.forall_mem_nil _) (idles_perform h.detached hdefers)
    · obtain ⟨tree, r', heq⟩ := perform_edit h.detached.deaf hedits
      rw [heq]
      have hdetached : Detached { e with tree } :=
        ⟨h.detached.deaf, h.detached.line, h.detached.timers, h.detached.rests⟩
      exact ⟨hdetached, h.registry, List.forall_mem_nil _⟩
  | resume e f below r =>
    have hbelow : ∀ g ∈ below, spent g = true := fun g hg =>
      h.stack g (List.mem_cons_of_mem _ hg)
    exact h.idles hbelow (idles_step h.detached (h.stack _ List.mem_cons_self) r)
  | reenter may => exact may.elim
  | answer e k below r r' =>
    exact ⟨h.detached, h.registry, fun g hg => h.stack g (List.mem_cons_of_mem _ hg)⟩
  | aside beside stack r =>
    obtain ⟨ws, ls, k, ns, writes, rfl⟩ := beside
    exact ⟨⟨h.detached.deaf, h.detached.line, h.detached.timers, h.detached.rests⟩, h.registry,
      h.stack⟩

theorem Spent.trail (h : Spent e₀ c) (ht : Trail c c') : Spent e₀ c' := by
  induction ht with
  | refl => exact h
  | tail _ hstep ih => exact ih.trails hstep.1

/-- No update begins. -/
theorem Spent.updates_eq_none (h : Spent e₀ c) : updates c = none := by
  unfold updates
  split
  · next entry below a hstack _ =>
    have hspent := h.stack (.own (.process entry)) (by simp [hstack])
    cases hspent
  · rfl

/-- What goes on by itself writes nothing. -/
theorem Spent.tree_step (h : Spent e₀ c) : (machine.step c).state.tree = c.state.tree := by
  obtain ⟨e, stack, r⟩ := c
  match stack with
  | [] => rfl
  | .ask k :: below => rfl
  | .own f :: below =>
    exact congrArg Prod.fst (idles_step h.detached (h.stack _ List.mem_cons_self) r).1

/-! ## Where no drain was going on -/

/-- What a detached engine keeps where no drain was going on. -/
def slack (e : Engine) := (e.scheduler.draining, e.scheduler.yieldPoint.waiting, e.phase)

/-- No drain is going on, and no batch waits; the engine is idle and tells nobody anything. -/
structure Silent (c : Running) : Prop where
  undrained : c.state.scheduler.draining = false
  waiting : c.state.scheduler.yieldPoint.waiting = []
  idle : c.state.phase = .idle
  stack : ∀ f ∈ c.stack, silent f = true

theorem Silent.idles (h : Silent c) (hbelow : ∀ f ∈ below, silent f = true)
    (hi : Idles slack silent below c.state c') : Silent c' := by
  obtain ⟨hslack, fs, hstack, hfs⟩ := hi
  simp only [slack, Prod.mk.injEq] at hslack
  obtain ⟨hdraining, hwaiting, hphase⟩ := hslack
  refine ⟨hdraining.trans h.undrained, hwaiting.trans h.waiting, hphase.trans h.idle, ?_⟩
  intro f hf
  rw [hstack] at hf
  rcases List.mem_append.mp hf with hf | hf
  · exact hfs f hf
  · exact hbelow f hf

/-- Where no batch waits the yield point does nothing. -/
theorem silent_yield {m : YieldPoint.Move Bool EngineError}
    (hm : (∃ running a, m = .ret { e.scheduler.yieldPoint with running } a) ∨
      ∃ f, m = .call e.scheduler.yieldPoint [.own f]) :
    Idles slack silent below e (after below (e.ofScheduler (e.scheduler.ofYield m))) := by
  rcases hm with ⟨running, a, rfl⟩ | ⟨f, rfl⟩
  · exact ⟨rfl, [], rfl, List.forall_mem_nil _⟩
  · refine ⟨rfl, [_], rfl, fun g hg => ?_⟩
    rw [List.mem_singleton.mp hg]
    rfl

theorem silent_step (h : Detached e) (hw : e.scheduler.yieldPoint.waiting = []) {f : Frame}
    (hf : silent (.own f) = true) (r : Reply Response EngineError) :
    Idles slack silent below e (machine.step ⟨e, .own f :: below, r⟩) := by
  cases r with
  | raised err =>
    cases f with
    | queue f =>
      cases f with
      | yielding f => cases f <;> exact ⟨rfl, [], rfl, List.forall_mem_nil _⟩
      | begin _ | batch _ _ | next _ => cases hf
    | clock f => exact ⟨rfl, [], rfl, List.forall_mem_nil _⟩
    | _ => cases hf
  | returned a =>
    cases f with
    | queue f =>
      cases f with
      | yielding f =>
        refine silent_yield (.inl ?_)
        cases f with
        | loop =>
          refine ⟨false, .done, ?_⟩
          exact YieldPoint.resume_loop_eq hw
        | ran => exact ⟨_, .flag true, rfl⟩
        | pump n =>
          refine ⟨e.scheduler.yieldPoint.running, .count n, ?_⟩
          show e.scheduler.yieldPoint.runNextThen _ _ = _
          unfold YieldPoint.runNextThen
          rw [hw]
      | begin _ | batch _ _ | next _ => cases hf
    | clock f =>
      cases f with
      | clock f =>
        obtain ⟨now, n, hclock⟩ := clock_eq h f
        show Idles slack silent below e (after below (e.ofDebouncer _))
        rw [hclock]
        exact ⟨rfl, [], rfl, List.forall_mem_nil _⟩
      | ring _ => cases hf
      | flushing rest total =>
        cases rest with
        | nil => exact ⟨rfl, [], rfl, List.forall_mem_nil _⟩
        | cons _ _ => cases hf
    | _ => cases hf

theorem silent_perform (h : Detached e) (hw : e.scheduler.yieldPoint.waiting = [])
    (hop : op.defers = true) : Idles slack silent [] e (after [] (e.perform op)) := by
  have hpump : ∀ m : YieldPoint.Move Bool EngineError,
      ((∃ running a, m = .ret { e.scheduler.yieldPoint with running } a) ∨
        ∃ f, m = .call e.scheduler.yieldPoint [.own f]) →
      Idles slack silent [] e (after [] (e.pump (e.scheduler.ofYield m))) := by
    intro m hm
    unfold pump
    split
    · exact silent_yield hm
    · exact ⟨rfl, [], rfl, List.forall_mem_nil _⟩
  have hclock : ∀ f : Timers.Frame, Idles slack silent [] e
      ⟨e, [.own (.clock (.clock f))], .returned default⟩ := by
    intro f
    refine ⟨rfl, [_], rfl, fun g hg => ?_⟩
    rw [List.mem_singleton.mp hg]
    rfl
  cases op with
  | flush =>
    unfold perform
    dsimp only
    split
    · next hdebounces =>
      unfold Debouncer.flush
      rw [h.rests hdebounces]
      refine ⟨rfl, [.own (.clock (.flushing [] 0))], rfl, fun f hf => ?_⟩
      rw [List.mem_singleton.mp hf]
      rfl
    · exact ⟨rfl, [], rfl, List.forall_mem_nil _⟩
  | advance seconds => exact hclock _
  | runTimers => exact hclock _
  | runNext =>
    refine hpump _ (.inl ⟨e.scheduler.yieldPoint.running, .flag false, ?_⟩)
    unfold YieldPoint.runNext YieldPoint.runNextThen
    rw [hw]
  | runAll => exact hpump _ (.inr ⟨_, rfl⟩)
  | _ => cases hop

theorem Silent.trails (h : Silent c) (hd : Detached c.state) (hstep : Trailing c c') :
    Silent c' := by
  cases hstep with
  | @perform e r op may =>
    rcases may with hdefers | hedits
    · exact h.idles (List.forall_mem_nil _) (silent_perform hd h.waiting hdefers)
    · obtain ⟨tree, r', heq⟩ := perform_edit hd.deaf hedits
      rw [heq]
      exact ⟨h.undrained, h.waiting, h.idle, List.forall_mem_nil _⟩
  | resume e f below r =>
    have hbelow : ∀ g ∈ below, silent g = true := fun g hg =>
      h.stack g (List.mem_cons_of_mem _ hg)
    exact h.idles hbelow (silent_step hd h.waiting (h.stack _ List.mem_cons_self) r)
  | reenter may => exact may.elim
  | answer e k below r r' =>
    exact ⟨h.undrained, h.waiting, h.idle, fun g hg => h.stack g (List.mem_cons_of_mem _ hg)⟩
  | aside beside stack r =>
    obtain ⟨ws, ls, k, ns, writes, rfl⟩ := beside
    exact ⟨h.undrained, h.waiting, h.idle, h.stack⟩

theorem Silent.trail (h : Silent c) (hs : Spent e₀ c) (ht : Trail c c') : Silent c' := by
  induction ht with
  | refl => exact h
  | tail hbefore hstep ih => exact ih.trails (hs.trail hbefore).detached hstep.1

/-! ## Detaching -/

/-- Detaching leaves no work behind. -/
theorem detached_detach (ht : Timely e) : Detached e.detach where
  deaf := rfl
  line := rfl
  timers := by
    by_contra hn
    obtain ⟨t, hmem⟩ := List.exists_mem_of_ne_nil _ hn
    unfold detach at hmem
    dsimp only at hmem
    split at hmem
    · next hdebounces =>
      have hlive : t ∈ (Debouncer.cancelTimers e.debouncer.timers e.debouncer.pending).live := hmem
      obtain ⟨-, p, hp, hserial⟩ := ht t (Debouncer.mem_cancelTimers hlive)
      exact Debouncer.ne_serial_of_mem_cancelTimers hlive p hp hserial.symm
    · next hdebounces => exact hdebounces (ht t hmem).1
  rests := by
    intro hdebounces
    have hpending : e.debounces = true := hdebounces
    show (if e.debounces = true then e.debouncer.cancelAll else e.debouncer).pending = []
    rw [if_pos hpending]
    rfl

/-! ## Attaching again -/

/-- The engine that listens and has let all its nodes wait, as the form declares them. -/
def enlisted (e : Engine) : Engine :=
  let e := ({ e with attached := true } : Engine).rescan.1
  e.schedule (e.inOrder none) .normal none none

theorem perform_attach_eq (hc : Sound settings mode e) (hr : e.Readable) :
    e.perform (.attach true) = e.enlisted.drain := by
  have hc' : Sound settings mode { e with attached := true } := hc.congr rfl
  have hr' : ({ e with attached := true } : Engine).Readable := hr
  rw [perform_attach, recompute_eq hc' hr']
  rfl

/-- Each node that waits is to have its first pass. -/
def Fresh (e : Engine) : Prop := ∀ x ∈ e.scheduler.line, e.passesOf x.node = 0

/-- A node that has its passes back has had none. -/
theorem passesOf_restored (e : Engine) (id other : String) :
    ({ e with passes := e.passes.filter (·.1 != id) } : Engine).passesOf other =
      if other = id then 0 else e.passesOf other := by
  unfold passesOf
  dsimp only
  split
  · next h =>
    have hnone : (e.passes.filter (·.1 != id)).lookup other = none := by
      refine List.lookup_eq_none_iff.mpr fun p hp => ?_
      have hne : p.1 ≠ id := bne_iff_ne.mp (List.mem_filter.mp hp).2
      exact bne_iff_ne.mpr (h ▸ hne.symm)
    rw [hnone]
    rfl
  · next h => rw [lookup_filter_ne _ h]

/-- Nodes that are scheduled get their passes back. -/
theorem Fresh.schedule (h : Fresh e) (ids : List String) (priority : Priority)
    (source scope : Option String) : Fresh (e.schedule ids priority source scope) := by
  have hall : ∀ e : Engine, Fresh e → Fresh (ids.foldl (fun e id =>
      { e with passes := e.passes.filter (·.1 != id) }.enqueue id priority source) e) := by
    induction ids with
    | nil => exact fun e h => h
    | cons id ids ih =>
      intro e h
      refine ih _ fun x hx => ?_
      show ({ e with passes := e.passes.filter (·.1 != id) } : Engine).passesOf x.node = 0
      rw [passesOf_restored]
      split
      · rfl
      · next hne => exact h x ((mem_line_enqueue hx).resolve_left hne)
  exact hall { e with
    scope := if e.phase = .evaluating then (if e.scope = scope then scope else none) else scope } h

/-- The batch that is taken has no node twice if the queue has none. -/
theorem nodup_flight_taken (h : e.scheduler.queue.nodes.Nodup) :
    (e.taken.scheduler.inFlight.map (·.node)).Nodup := by
  have hpending : (e.scheduler.queue.pending.map (·.node)).Nodup :=
    ((UpdateQueue.pending_perm e.scheduler.queue).map QueueEntry.node).nodup_iff.mpr h
  show ((UpdateQueue.front e.scheduler.batchSize e.scheduler.queue.pending).map (·.node)).Nodup
  exact ((UpdateQueue.front_prefix _ _).sublist.map QueueEntry.node).nodup hpending

/-- Where no drain is going on and nothing waits, a cycle takes its first batch at once. -/
theorem runs_first (hs : settings.InRange)
    (hmost : settings.historySize ≤ ConvergenceDetector.maxHistory)
    (hc : Coherent settings mode e) (hstalled : e.Stalled) (hline : e.scheduler.line = [])
    {ids : List String} {priority : Priority} {source scope : Option String}
    (calm : Calm answer (after [] (e.schedule ids priority source scope).drain)) :
    ∃ us c, Runs (among answer) updates
        (after [] (e.schedule ids priority source scope).drain) us c ∧
      us.map (·.entry) =
        ((e.schedule ids priority source scope).scheduler.takeBatch none).1 := by
  have hc₁ := hc.schedule ids priority source scope
  have hfresh : Fresh (e.schedule ids priority source scope) := by
    refine Fresh.schedule (fun x hx => ?_) ids priority source scope
    rw [hline] at hx
    cases hx
  have hnodup : (e.schedule ids priority source scope).scheduler.queue.nodes.Nodup := by
    obtain ⟨scope', passes, hqueued⟩ := queued_schedule e ids priority source scope
    refine hqueued.nodup ?_
    show (e.scheduler.queue.entries.map (·.node)).Nodup
    rw [(List.append_eq_nil_iff.mp hline).2]
    exact List.nodup_nil
  obtain ⟨hscheduler, -, -⟩ := scheduler_schedule e ids priority source scope
  generalize e.schedule ids priority source scope = e₁ at *
  have hbegin : Runs (among answer) updates (after [] e₁.drain) []
      (e₁.begun.taken.handing (e₁.begun.scheduler.takeBatch none).1 []) := by
    refine runs_begin ?_ ?_
    · rw [hscheduler]
      exact hstalled.drained
    · rw [hscheduler]
      exact hstalled.unlooped
  have hbegun : Coherent settings mode e₁.begun.taken := hc₁.congr rfl
  obtain ⟨us, e₂, hslice, hr⟩ := runs_slice hmost [] _ hbegun _ (calm.runs hbegin)
  refine ⟨us, _, hbegin.trans hr, hslice.map_entry ?_ ?_ fun x hx => ?_⟩
  · rw [hbegun.ofSettings]
    exact hs.counts .maxPasses (by decide)
  · exact nodup_flight_taken (e := e₁.begun) hnodup
  · have hwaits : x ∈ e₁.scheduler.queue.entries := mem_line_taken (List.mem_append_left _ hx)
    exact hfresh x (List.mem_append_right _ hwaits)

/-- So does an attachment. -/
theorem attach_takes (hs : settings.InRange)
    (hmost : settings.historySize ≤ ConvergenceDetector.maxHistory)
    (hc : Sound settings mode e) (hstalled : e.Stalled) (hline : e.scheduler.line = [])
    (hr : e.Readable) (calm : Calm answer (after [] (e.perform (.attach true)))) :
    ∃ us c, Runs (among answer) updates (after [] (e.perform (.attach true))) us c ∧
      us.map (·.entry) = (e.enlisted.scheduler.takeBatch none).1 := by
  rw [perform_attach_eq hc hr] at calm ⊢
  have hc' : Sound settings mode { e with attached := true } := hc.congr rfl
  have hr' : ({ e with attached := true } : Engine).Readable := hr
  have hstalled₀ : ({ e with attached := true } : Engine).Stalled := hstalled.congr rfl
  have hstalled' := hstalled₀.congr (progress_rescan _)
  have hline' : ({ e with attached := true } : Engine).rescan.1.scheduler.line = [] := by
    rw [scheduler_rescan]
    exact hline
  exact runs_first hs hmost (hc'.coherent_rescan hr') hstalled' hline' calm

/-- A cycle that begins where no drain is going on begins with a phase that tells the truth. -/
theorem honest_cycle (hdraining : e.scheduler.draining = false) (ids : List String)
    (priority : Priority) (source scope : Option String) :
    Honest (after below (e.schedule ids priority source scope).drain) := by
  refine honest_told (truthful_drain fun hdrains => ?_)
  obtain ⟨hscheduler, -, -⟩ := scheduler_schedule e ids priority source scope
  rw [hscheduler, hdraining] at hdrains
  cases hdrains

theorem honest_attach (hc : Sound settings mode e) (hr : e.Readable)
    (hdraining : e.scheduler.draining = false) :
    Honest (after [] (e.perform (.attach true))) := by
  have hdraining' : ({ e with attached := true } : Engine).rescan.1.scheduler.draining = false := by
    rw [scheduler_rescan]
    exact hdraining
  rw [perform_attach_eq hc hr]
  exact honest_cycle hdraining' _ _ _ _

/-- What an honest course comes to between two operations. -/
theorem evaluating_iff_of_honest (hreachable : Reachable settings mode ⟨e, [], r⟩)
    (h : Honest ⟨e, [], r⟩) :
    (e.phase = .evaluating ↔ e.scheduler.draining = true) ∧
      (e.scheduler.draining = false → e.scheduler.line = []) := by
  have ht : e.Truthful := h.truthful (by simp)
  refine ⟨⟨fun hp => ?_, ht.evaluating⟩, fun hd => ?_⟩
  · by_contra hn
    rw [ht.resting (Bool.not_eq_true _ |>.mp hn)] at hp
    split at hp
    · cases hp
    · cases hp
  · rw [Scheduler.line, (stalled_of_undrained hreachable hd).flight, (ht.cleared hd).queue]
    rfl

/-- An engine that is detached between two operations, whose timers all belong to changes that rest,
is idle and has no work left.  Whatever becomes of the form later, and whatever deferred work is let
go on, no node is evaluated, no output is stored and no field is written.  Where no drain was going
on nobody is told anything either, and an attachment that can read the form does what it does to an
idle engine: it takes its first batch at once, and from then on the engine evaluates just while
something is left to do. -/
theorem detach_stops {place : String} {entries : List (String × Data)}
    (hsettings : Settings.ofEntries place entries = .ok settings)
    (hmost : settings.historySize ≤ ConvergenceDetector.maxHistory)
    (reachable : Reachable settings mode ⟨e, [], r⟩) (timely : Timely e)
    (trail : Trail (after [] (e.perform .detach)) c) :
    e.detach.phase = .idle ∧ Detached e.detach ∧
    Detached c.state ∧ c.state.registry = e.registry ∧ updates c = none ∧
    (machine.step c).state.tree = c.state.tree ∧
    (∀ op, op.defers = true → (c.state.perform op).state.tree = c.state.tree) ∧
    (e.scheduler.draining = false →
      (∀ k, .ask k ∉ c.stack) ∧ c.state.phase = .idle ∧ c.state.scheduler.draining = false ∧
      (c.stack = [] → c.state.Readable →
        (∀ answer, Calm answer (after [] (c.state.perform (.attach true))) →
          ∃ us c', Runs (among answer) updates (after [] (c.state.perform (.attach true))) us c' ∧
            us.map (·.entry) = (c.state.enlisted.scheduler.takeBatch none).1) ∧
        ∀ c', Course (· ≠ .detach) (· ≠ .detach) (breaks · = false)
            (after [] (c.state.perform (.attach true))) c' → c'.stack = [] →
          (c'.state.phase = .evaluating ↔ c'.state.scheduler.draining = true) ∧
            (c'.state.scheduler.draining = false → c'.state.scheduler.line = []))) := by
  have hdetached := detached_detach timely
  have hbegins : Spent e (after [] (e.perform .detach)) :=
    ⟨hdetached, rfl, List.forall_mem_nil _⟩
  have hspent := hbegins.trail trail
  have hreached : Reachable settings mode c :=
    trail.reachable (fun _ h => h.elim) (.perform reachable .detach)
  refine ⟨rfl, hdetached, hspent.detached, hspent.registry, hspent.updates_eq_none,
    hspent.tree_step, fun op hop => ?_, fun hdraining => ?_⟩
  · have hresidue := (idles_perform hspent.detached hop).1
    rw [state_after] at hresidue
    exact congrArg Prod.fst hresidue
  · have hstalled := stalled_of_undrained reachable hdraining
    have hsilent : Silent (after [] (e.perform .detach)) :=
      ⟨hdraining, hstalled.waiting, rfl, List.forall_mem_nil _⟩
    have hsilent := hsilent.trail hbegins trail
    refine ⟨fun k hk => ?_, hsilent.idle, hsilent.undrained, fun hstack hr => ?_⟩
    · cases hsilent.stack _ hk
    · obtain ⟨e₁, stack, r₁⟩ := c
      cases hstack
      obtain ⟨hc, -⟩ := steady_of_reachable hreached
      have hstalled₁ := stalled_of_undrained hreached hsilent.undrained
      refine ⟨fun answer calm => ?_, fun c' hcourse hstack' => ?_⟩
      · exact attach_takes (Settings.inRange_of_ofEntries hsettings) hmost hc hstalled₁
          hspent.detached.line hr calm
      · have hattached : Reachable settings mode (after [] (e₁.perform (.attach true))) :=
          .perform hreached _
        have hunbroken : breaks (after [] (e₁.perform (.attach true))) = false := by
          obtain ⟨phase, draining, fs, hfs, hdrain⟩ := drain_cases e₁.enlisted
          rw [perform_attach_eq hc hr, hdrain]
          rcases hfs with rfl | rfl
          · rfl
          · rfl
        have hhonest : Honest c' := hcourse.keeps (fun _ hop => hop)
          (fun hreachable hkind hp hstep hkind' =>
            honest_happens (fun _ hop => hop) (fun _ hop => hop) hreachable hkind hkind' hp hstep)
          hattached hunbroken (honest_attach hc hr hsilent.undrained)
        obtain ⟨e₂, stack, r₂⟩ := c'
        cases hstack'
        exact evaluating_iff_of_honest (hcourse.reachable (fun _ hop => hop) hattached) hhonest

/-- An edit by hand rests. -/
def restingCopy : Running :=
  after [] (shownCopy.state.perform (.setValue "x" (.text "5") true))

/-- The engine was detached, and time has passed. -/
def detachedCopy : Running :=
  (among fun _ _ => .returned default).run 5 (after [] (restingCopy.state.detach.perform
    (.advance 10)))

/-- The edit is dropped, and the engine can be attached again. -/
theorem detach_stops_resting :
    ∃ e r c us c', Reachable {} .manual ⟨e, [], r⟩ ∧ e.debouncer.pending ≠ [] ∧
      Trail (after [] (e.perform .detach)) c ∧ c.stack = [] ∧ c.state.registry = e.registry ∧
      c.state.phase = .idle ∧
      Runs (among fun _ _ => .returned default) updates
        (after [] (c.state.perform (.attach true))) us c' ∧
      us.map (·.entry.node) = ["a"] := by
  have hsettings : Settings.ofEntries "" [] = .ok {} := rfl
  have hgives : ∀ n ≤ 40, givesUp ((among fun _ _ => .returned default).run n
      (after [] ((Engine.create copyTree {} .manual true).perform (.attach true)))) = false := by
    decide +kernel
  have hstack : shownCopy.stack = [] := List.isEmpty_iff.mp (by decide +kernel)
  have hshown : Course (fun _ => True) (fun _ => False) (givesUp · = false)
      ⟨.create copyTree {} .manual true, [], .returned default⟩ shownCopy :=
    (Course.single (.perform trivial) (hgives 0 (by decide))).trans (Course.runs 40 hgives)
  have hkept : givesUp restingCopy = false := by decide +kernel
  have hcourse : Course (fun _ => True) (fun _ => False) (givesUp · = false)
      ⟨.create copyTree {} .manual true, [], .returned default⟩ restingCopy :=
    hshown.trans (Course.single (.next hstack trivial) hkept)
  have hstack' : restingCopy.stack = [] := List.isEmpty_iff.mp (by decide +kernel)
  have hcourse' : Course (fun _ => True) (fun _ => False) (givesUp · = false)
      ⟨.create copyTree {} .manual true, [], .returned default⟩
      ⟨restingCopy.state, [], restingCopy.reply⟩ :=
    hstack' ▸ hcourse
  have hrests : Reachable {} .manual ⟨restingCopy.state, [], restingCopy.reply⟩ :=
    hcourse'.reachable (fun _ h => h.elim) (.create proper_copyTree true)
  have htimely : Timely restingCopy.state :=
    timely_of_course proper_copyTree (fun _ h => h.elim) hcourse'
  have htrail : Trail (after [] (restingCopy.state.perform .detach)) detachedCopy :=
    (Course.single (.perform (.inl rfl)) trivial).trans (.runs 5 fun _ _ => trivial)
  have hempty : detachedCopy.stack = [] := List.isEmpty_iff.mp (by decide +kernel)
  obtain ⟨-, -, -, hregistry, -, -, -, hattaches⟩ := detach_stops hsettings (by decide) hrests
    htimely htrail
  obtain ⟨-, hidle, -, hattaches⟩ := hattaches (by decide +kernel)
  obtain ⟨htakes, -⟩ := hattaches hempty (by decide +kernel)
  have hcalm : endsSmoothly (fun _ _ => .returned default) 60
      (after [] (detachedCopy.state.perform (.attach true))) = true := by
    decide +kernel
  obtain ⟨us, c', hruns, hbatch⟩ := htakes _ (calm_of_endsSmoothly hcalm)
  refine ⟨_, _, _, us, c', hrests, List.isEmpty_eq_false_iff.mp (by decide +kernel), htrail,
    hempty, hregistry, hidle, hruns, ?_⟩
  have hnodes : (detachedCopy.state.enlisted.scheduler.takeBatch none).1.map (·.node) = ["a"] := by
    decide +kernel
  rw [← hbatch, List.map_map] at hnodes
  exact hnodes

/-! ## In the middle of a drain -/

/-- An engine that somebody listens to, and that takes one update at a time. -/
def heardChain : Engine := (Engine.create chainTree oneByOne .manual false).listen.2

/-- It has taken its first batch, and the next one waits. -/
def midwayChain : Running :=
  (among fun _ _ => .returned default).run 40 (after [] (heardChain.perform (.attach true)))

/-- When it is detached then, the batch that waited still ends the drain, and tells the listener;
and until that has happened an attachment takes no batch and leaves the engine idle. -/
theorem detach_leaves :
    ∃ entries settings e r c, Settings.ofEntries "" entries = .ok settings ∧
      Reachable settings .manual ⟨e, [], r⟩ ∧ Timely e ∧ e.phase = .evaluating ∧
      Trail (after [] (e.perform .detach)) c ∧ (∃ l changed, .ask (.listener l changed) ∈ c.stack) ∧
      (after [] (e.detach.perform (.attach true))).stack = [] ∧
      (after [] (e.detach.perform (.attach true))).state.phase = .idle ∧
      (after [] (e.detach.perform (.attach true))).state.scheduler.queue.nodes = ["a", "b"] := by
  have hsettings : Settings.ofEntries "" [("batch_size", .scalar (.integer 1))] = .ok oneByOne :=
    Settings.ofEntries_count (by decide +kernel) (by decide)
  have hheard : Reachable oneByOne .manual ⟨heardChain, [], .returned default⟩ :=
    .aside (.create proper_chainTree false) ⟨_, _, _, _, _, rfl⟩
  have hmidway : Reachable oneByOne .manual midwayChain :=
    (Reachable.perform hheard (.attach true)).run (fun _ _ => .returned default) 40
  have hstack : midwayChain.stack = [] := List.isEmpty_iff.mp (by decide +kernel)
  have hmidway' : Reachable oneByOne .manual ⟨midwayChain.state, [], midwayChain.reply⟩ :=
    hstack ▸ hmidway
  have htrail : Trail (after [] (midwayChain.state.perform .detach))
      ((among fun _ _ => .returned default).run 2
        (after [] (midwayChain.state.detach.perform .runNext))) :=
    (Course.single (.perform (.inl rfl)) trivial).trans (.runs 2 fun _ _ => trivial)
  have htold : ((among fun _ _ => .returned default).run 2
      (after [] (midwayChain.state.detach.perform .runNext))).stack.any
        (Activity.elim (fun _ => false) (· == .listener 0 ["a"])) = true := by
    decide +kernel
  have hlistens : .ask (.listener 0 ["a"]) ∈ ((among fun _ _ => .returned default).run 2
      (after [] (midwayChain.state.detach.perform .runNext))).stack := by
    obtain ⟨f, hf, hk⟩ := List.any_eq_true.mp htold
    cases f with
    | own f => cases hk
    | ask k => exact beq_iff_eq.mp hk ▸ hf
  exact ⟨_, _, _, _, _, hsettings, hmidway', by decide +kernel, by decide +kernel, htrail,
    ⟨_, _, hlistens⟩, List.isEmpty_iff.mp (by decide +kernel), by decide +kernel,
    by decide +kernel⟩

end LiveForm.Engine
