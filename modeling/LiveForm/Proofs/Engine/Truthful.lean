import LiveForm.Proofs.Engine.Course

/-!
# The phase tells the truth

What belongs to a cycle is set in many places and let go of in one, at the end of the drain.  Still
the phase says at any time from outside what the engine is doing: a drain is going on, or nothing
of one is left, and then the phase says whether changes rest.  Only an update that fails in the
middle of a drain leaves something behind.
-/

namespace LiveForm.Engine

open Machine (after state_after Runs)

/-- Nothing of a cycle is left. -/
structure Cleared (e : Engine) : Prop where
  queue : e.scheduler.queue.entries = []
  passes : e.passes = []
  changed : e.changed = []
  scope : e.scope = none

/-- The engine evaluates while a drain is going on, and nothing of one is left behind. -/
structure Clean (e : Engine) : Prop where
  evaluating : e.scheduler.draining = true → e.phase = .evaluating
  cleared : e.scheduler.draining = false → e.Cleared

/-- The phase says what is going on. -/
structure Truthful (e : Engine) : Prop extends Clean e where
  resting : e.scheduler.draining = false → e.phase = if e.rests then .queued else .idle

/-- Work that rested was taken up and is about to be handled. -/
def Owes : List (Activity Frame Ask) → Prop
  | .own (.handle _) :: _ | .own (.clock (.flushing (_ :: _) _)) :: _ => True
  | _ => False

/-- A failure comes out of an update, or reading the form breaks off while changes rest. -/
def breaks : Running → Bool
  | ⟨_, .own (.queue (.batch _ _)) :: _, .raised _⟩ => true
  | ⟨e, _, .raised .tooManyDigits⟩ => e.phase == .queued
  | _ => false

/-- The phase tells the truth but for two moments: when resting work was taken up, and when a drain
has just ended. -/
inductive Honest (c : Running) : Prop where
  | told (truthful : c.state.Truthful)
  | owing (clean : c.state.Clean) (stack : Owes c.stack) (returned : ∃ r, c.reply = .returned r)
    (busy : c.state.scheduler.draining = false → c.state.phase = .queued)
  | completing (below : List (Activity Frame Ask)) (stack : c.stack = .own .complete :: below)
    (done : c.state.scheduler.draining = false) (empty : c.state.scheduler.queue.entries = [])
    (returned : ∃ r, c.reply = .returned r) (busy : c.state.phase ≠ .idle)

variable {settings : Settings} {mode : YieldMode} {e e' : Engine}
  {below : List (Activity Frame Ask)}

/-! ## Truthful engines -/

/-- What belongs to a cycle, with the phase. -/
def standing (e : Engine) :=
  (e.scheduler.draining, e.scheduler.queue, e.phase, e.passes, e.changed, e.scope)

theorem Clean.congr (h : e.Clean) (hs : e'.standing = e.standing) : e'.Clean := by
  simp only [standing, Prod.mk.injEq] at hs
  obtain ⟨hd, hq, hp, hpasses, hchanged, hscope⟩ := hs
  refine ⟨fun h' => hp.trans (h.evaluating (hd ▸ h')), fun h' => ?_⟩
  obtain ⟨h1, h2, h3, h4⟩ := h.cleared (hd ▸ h')
  exact ⟨hq ▸ h1, hpasses.trans h2, hchanged.trans h3, hscope.trans h4⟩

theorem Truthful.congr (h : e.Truthful) (hs : e'.standing = e.standing)
    (hr : e'.rests = e.rests) : e'.Truthful := by
  refine ⟨h.toClean.congr hs, fun hd => ?_⟩
  simp only [standing, Prod.mk.injEq] at hs
  rw [hs.2.2.1, hr]
  exact h.resting (hs.1 ▸ hd)

/-- While a drain is going on there is nothing else to say. -/
theorem truthful_of_draining (hd : e.scheduler.draining = true) (hp : e.phase = .evaluating) :
    e.Truthful :=
  ⟨⟨fun _ => hp, fun h => absurd (hd.symm.trans h) (by decide)⟩,
    fun h => absurd (hd.symm.trans h) (by decide)⟩

/-- The drain and the phase. -/
def drainPhase (e : Engine) := (e.scheduler.draining, e.phase)

theorem truthful_of_drainPhase (hd : e.scheduler.draining = true) (hp : e.phase = .evaluating)
    (hs : e'.drainPhase = e.drainPhase) : e'.Truthful := by
  simp only [drainPhase, Prod.mk.injEq] at hs
  exact truthful_of_draining (hs.1.trans hd) (hs.2.trans hp)

/-- Where the engine is idle nothing rests. -/
theorem Truthful.rests_of_idle (h : e.Truthful) (hp : e.phase = .idle) : e.rests = false := by
  cases hd : e.scheduler.draining with
  | true =>
    rw [h.evaluating hd] at hp
    cases hp
  | false =>
    by_contra hr
    rw [h.resting hd, if_pos (by simpa using hr)] at hp
    cases hp

/-- Where changes rest the phase is not idle, and where nothing is drained it says so. -/
theorem Truthful.busy (h : e.Truthful) (hp : e.phase ≠ .idle) :
    e.scheduler.draining = false → e.phase = .queued := fun hd => by
  rw [h.resting hd] at hp ⊢
  split
  · rfl
  · next hr => exact absurd (if_neg hr) hp

theorem Clean.rescan (h : e.Clean) : e.rescan.1.Clean := by
  refine ⟨fun hd => ?_, fun hd => ?_⟩
  · rw [phase_rescan]
    exact h.evaluating (scheduler_rescan e ▸ hd)
  · have hcleared := h.cleared (scheduler_rescan e ▸ hd)
    refine ⟨scheduler_rescan e ▸ hcleared.queue, ?_, (changed_rescan e).trans hcleared.changed,
      (scope_rescan e).trans hcleared.scope⟩
    rw [passes_rescan]
    show e.passes.filter _ = []
    rw [hcleared.passes]
    rfl

theorem Truthful.rescan (h : e.Truthful) : e.rescan.1.Truthful := by
  have hrests : e.rescan.1.rests = e.rests :=
    rescan_unseen e rests fun _ _ _ _ _ _ _ _ _ => rfl
  refine ⟨h.toClean.rescan, fun hd => ?_⟩
  rw [phase_rescan, hrests]
  exact h.resting (scheduler_rescan e ▸ hd)

/-- A drain that starts is known to be going on. -/
theorem truthful_drain (h : e.scheduler.draining = true → e.phase = .evaluating) :
    e.drain.state.Truthful := by
  unfold drain Scheduler.drain
  by_cases hd : e.scheduler.draining = true
  · simp only [hd, if_true]
    exact truthful_of_draining hd (h hd)
  · simp only [hd, Bool.false_eq_true, if_false]
    exact truthful_of_draining rfl rfl

theorem Clean.schedule_drain (h : e.Clean) (ids : List String) (priority : Priority)
    (source scope : Option String) :
    (e.schedule ids priority source scope).drain.state.Truthful := by
  obtain ⟨hscheduler, hphase, -⟩ := scheduler_schedule e ids priority source scope
  refine truthful_drain fun hdraining => ?_
  rw [hscheduler] at hdraining
  exact hphase.trans (h.evaluating hdraining)

/-- A change that is handled starts a drain, unless the form cannot be read. -/
theorem Clean.handle (h : e.Clean) {t : Trigger}
    (hfails : e.handle t = .fail e.rescan.1 .tooManyDigits → e.rescan.1.Truthful) :
    (e.handle t).state.Truthful := by
  rcases handle_cases e t with heq | ⟨e₁, ids, priority, source, rfl | rfl, heq⟩
  · exact heq ▸ hfails heq
  · exact heq ▸ h.schedule_drain _ _ _ _
  · exact heq ▸ h.rescan.schedule_drain _ _ _ _

theorem Truthful.handle (h : e.Truthful) (t : Trigger) : (e.handle t).state.Truthful :=
  h.toClean.handle fun _ => h.rescan

theorem Truthful.recompute (h : e.Truthful) (scope : Option String) :
    (e.recompute scope).state.Truthful := by
  rcases recompute_cases e scope with ⟨err, heq⟩ | ⟨ids, heq⟩
  · exact heq ▸ h.rescan
  · exact heq ▸ h.rescan.schedule_drain _ _ _ _

theorem Truthful.settle (h : e.Truthful) (t : Trigger) (delay : Binary64) :
    (e.settle t delay).state.Truthful := by
  unfold Engine.settle
  split
  · next hdebounces =>
    -- Something rests now, and the phase is raised if it said that nothing does
    have hrests : (e.debounces && !(e.debouncer.schedule t delay t).pending.isEmpty) = true := by
      simp [hdebounces, Debouncer.schedule]
    refine ⟨⟨fun hd => ?_, fun hd => ?_⟩, fun hd => ?_⟩
    · show (if e.phase = .idle then Phase.queued else e.phase) = .evaluating
      rw [if_neg (by rw [h.evaluating hd]; exact nofun), h.evaluating hd]
    · obtain ⟨hqueue, hpasses, hchanged, hscope⟩ := h.cleared hd
      exact ⟨hqueue, hpasses, hchanged, hscope⟩
    · show (if e.phase = .idle then Phase.queued else e.phase) =
        if e.debounces && !(e.debouncer.schedule t delay t).pending.isEmpty then .queued else .idle
      rw [if_pos hrests, h.resting hd]
      cases e.rests with
      | true => rfl
      | false => rfl
  · exact h.handle t

theorem Truthful.bound (h : e.Truthful) (name : String) : (e.bound name).Truthful := by
  rcases bound_cases e name with heq | ⟨rows, -, heq⟩ | heq
  · exact heq.symm ▸ h
  · exact heq.symm ▸ h.congr rfl rfl
  · exact heq.symm ▸ h.congr rfl rfl

theorem Truthful.edited (h : e.Truthful) (name : String) (user : Bool) :
    (e.edited name user).Truthful := by
  unfold Engine.edited
  split
  · exact h.congr rfl rfl
  · exact h

theorem Truthful.notifyInput (h : e.Truthful) (hw : e.writing = false) (name : String)
    (user : Bool) : (e.notifyInput name user).state.Truthful := by
  rw [notifyInput_eq hw]
  split
  · exact h.bound name
  · exact ((h.bound name).edited name user).settle _ _

theorem Truthful.changeTree (h : e.Truthful) (hw : e.writing = false)
    (change : Except TreeError FormTree) (event : TreeEvent) (notify : Bool) :
    (e.changeTree change event notify).state.Truthful := by
  unfold Engine.changeTree
  split
  · exact h
  · next tree =>
    have h' : { e with tree }.Truthful := h.congr rfl rfl
    dsimp only
    split
    · unfold deliver
      split
      · split
        · exact h'.notifyInput hw _ _
        · exact h'.settle _ _
      · exact h'
    · exact h'

/-! ## Moves -/

theorem honest_told {m : Move} (h : m.state.Truthful) : Honest (after below m) :=
  .told (state_after below m ▸ h)

/-- A move of the yield point changes nothing that the phase tells of. -/
theorem Truthful.ofYield (h : e.Truthful) (m : YieldPoint.Move Bool EngineError) :
    (e.ofScheduler (e.scheduler.ofYield m)).state.Truthful := by
  rw [ofScheduler, Move.state_embed, Scheduler.ofYield, Move.state_embed]
  exact h.congr rfl rfl

/-- A move of the debouncer that leaves the work that rests. -/
theorem Truthful.ofDebouncer (h : e.Truthful) {m : Debouncer.Move Trigger Trigger EngineError}
    (hm : m.state.pending = e.debouncer.pending) : (e.ofDebouncer m).state.Truthful := by
  rw [Engine.ofDebouncer, Move.state_embed]
  exact h.congr rfl (by simp only [rests, hm])

/-- Behind a batch the drain goes on, or ends. -/
theorem honest_goOn (hd : e.scheduler.draining = true) (hp : e.phase = .evaluating) :
    Honest (after below (e.ofScheduler (e.scheduler.goOn true))) := by
  unfold Scheduler.goOn
  by_cases hq : e.scheduler.queue.entries.isEmpty = true
  · rw [if_pos hq]
    refine .completing below rfl rfl (List.isEmpty_iff.mp hq) ⟨_, rfl⟩ ?_
    show e.phase ≠ .idle
    rw [hp]
    exact nofun
  · rw [if_neg hq]
    exact honest_told ((truthful_of_draining hd hp).ofYield _)

theorem honest_handOut (hd : e.scheduler.draining = true) (hp : e.phase = .evaluating)
    (taken : List QueueEntry) :
    Honest (after below (e.ofScheduler (e.scheduler.handOut true taken))) := by
  unfold Scheduler.handOut
  split
  · exact honest_told (truthful_of_draining hd hp)
  · split
    · exact honest_told (truthful_of_draining hd hp)
    · exact honest_goOn hd hp

/-- A frame of a drain on the stack tells that it is going on. -/
theorem Balanced.draining {s : Scheduler} {phase : Phase} {stack : List (Activity Frame Ask)}
    (h : Balanced s phase stack) {f : Activity Frame Ask} (hf : f ∈ stack)
    (hdrain : isDrain f = true) : s.draining = true := by
  have hpos : 0 < stack.countP isDrain := List.countP_pos_iff.mpr ⟨f, hf, hdrain⟩
  have hdrains := h.drains
  by_contra hn
  rw [Bool.not_eq_true _ |>.mp hn, Bool.toNat_false] at hdrains
  omega

theorem honest_queue {f : Scheduler.Frame}
    (hb : Balanced e.scheduler e.phase (.own (.queue f) :: below)) (h : e.Truthful) :
    Honest (after below (e.ofScheduler (e.scheduler.resume f))) := by
  cases f with
  | begin reports =>
    obtain ⟨rfl, -⟩ : reports = true ∧ Settled below := hb.nested.1
    have hd := hb.draining List.mem_cons_self rfl
    exact honest_handOut (e := { e with scheduler :=
      { (e.scheduler.takeBatch none).2 with inFlight := (e.scheduler.takeBatch none).1 } })
      hd (h.evaluating hd) _
  | batch reports taken =>
    obtain ⟨rfl, -⟩ : reports = true ∧ Settled below := hb.nested.1
    have hd := hb.draining List.mem_cons_self rfl
    exact honest_handOut hd (h.evaluating hd) taken
  | next reports =>
    obtain ⟨rfl, -⟩ : reports = true ∧ Settled below := hb.nested.1
    have hd := hb.draining List.mem_cons_self rfl
    exact honest_goOn hd (h.evaluating hd)
  | yielding f => exact honest_told (h.ofYield _)

theorem honest_clock (h : e.Truthful) (f : Debouncer.Frame Trigger Trigger) :
    Honest (after below (e.ofDebouncer (e.debouncer.resume f))) := by
  cases f with
  | clock f =>
    refine honest_told (h.ofDebouncer ?_)
    show (e.debouncer.ofTimers _).state.pending = _
    rw [Debouncer.ofTimers, Move.state_embed]
  | ring a =>
    cases a with
    | keyed key work =>
      by_cases hp : e.phase = .idle
      · -- Nothing rests, so that there is nothing to forget
        have hrests := h.rests_of_idle hp
        have hstill : (e.debounces && !(e.debouncer.forget key).pending.isEmpty) = false := by
          rw [rests, Bool.and_eq_false_iff] at hrests
          rcases hrests with hn | hn
          · rw [hn, Bool.false_and]
          · rw [Bool.not_eq_false', List.isEmpty_iff] at hn
            simp [Debouncer.forget, hn]
        exact honest_told (h.congr rfl (hstill.trans hrests.symm))
      · exact .owing (h.toClean.congr rfl) trivial ⟨_, rfl⟩ (h.busy hp)
    | plain work => exact honest_told (h.ofDebouncer rfl)
  | flushing rest total =>
    cases rest with
    | nil => exact honest_told (h.ofDebouncer rfl)
    | cons p rest => exact honest_told (h.ofDebouncer rfl)

/-! ## Steps -/

theorem drainPhase_judged {n : OutputNode} (h : e.Judged n e') :
    e'.drainPhase = e.drainPhase :=
  h.unseen drainPhase fun _ _ _ => rfl

theorem drainPhase_process (hw : e.writing = false) (entry : QueueEntry) :
    (e.process entry).state.drainPhase = e.drainPhase := by
  rw [process_eq]
  split
  · rfl
  · rfl
  · next n _ =>
    have hm := (e.counted n).evaluated_evaluateNode n entry
    generalize (e.counted n).evaluateNode n entry = m at hm ⊢
    cases hm with
    | failed err e' value judged => exact (drainPhase_judged judged).trans rfl
    | tooLong v e' value full judged => exact (drainPhase_judged judged).trans rfl
    | keptOut v e' value room out judged => exact (drainPhase_judged judged).trans rfl
    | accepted v e' value room new judged =>
      have hw' : e'.writing = false := (judged.unseen writing fun _ _ _ => rfl).trans hw
      obtain ⟨e'', watchers, ⟨written, ns, rfl, -⟩, heq⟩ :=
        accept_eq entry (displayable_of_computed value) hw'
      rw [heq]
      exact (drainPhase_judged judged).trans rfl

theorem drainPhase_propagate (e : Engine) (entry : QueueEntry) :
    (e.propagate entry).state.drainPhase = e.drainPhase := by
  obtain ⟨e', r, heq, ⟨⟨queue, ns, rfl⟩, -, -⟩⟩ := propagate_reply e entry
  rw [heq]
  rfl

/-- At the end of a cycle everything is let go of. -/
theorem truthful_complete (hd : e.scheduler.draining = false)
    (hq : e.scheduler.queue.entries = []) : e.complete.state.Truthful := by
  unfold complete
  dsimp only
  split
  · exact ⟨⟨fun hn => absurd (hd.symm.trans hn) (by decide), fun _ => ⟨hq, rfl, rfl, rfl⟩⟩,
      fun _ => rfl⟩
  · rw [state_tellListeners]
    exact ⟨⟨fun hn => absurd (hd.symm.trans hn) (by decide), fun _ => ⟨hq, rfl, rfl, rfl⟩⟩,
      fun _ => rfl⟩

/-- The stack accounts for the scheduler unless the frame on top completes a cycle. -/
theorem Steady.balanced {c : Running} (h : Steady c)
    (ht : ∀ below, c.stack ≠ .own .complete :: below) :
    Balanced c.state.scheduler c.state.phase c.stack := by
  cases h with
  | going balanced running failing => exact balanced
  | ending balanced ending => exact balanced
  | completing below stack => exact absurd stack (ht below)

theorem phase_of_breaks_eq_false
    (h : breaks (after below (.fail e .tooManyDigits)) = false) : e.phase ≠ .queued := by
  intro hp
  change breaks ⟨e, below, .raised .tooManyDigits⟩ = false at h
  unfold breaks at h
  split at h
  · cases h
  · next heq =>
    cases heq
    rw [hp] at h
    cases h
  · next hn => exact hn _ _ rfl

/-- A frame goes on after an answer. -/
theorem honest_resume (hc : Sound settings mode e) {f : Frame} {r : Response}
    (hs : Steady ⟨e, .own f :: below, .returned r⟩)
    (hbreaks : breaks (after below (e.resume f)) = false)
    (h : Honest ⟨e, .own f :: below, .returned r⟩) : Honest (after below (e.resume f)) := by
  cases h with
  | told h =>
    have hb : f ≠ .complete → Balanced e.scheduler e.phase (.own f :: below) := fun hf =>
      hs.balanced fun rest hn => hf (Activity.own.inj (List.cons.inj hn).1)
    cases f with
    | queue f => exact honest_queue (hb nofun) h
    | clock f => exact honest_clock h f
    | handle t => exact honest_told (h.handle t)
    | process entry =>
      obtain ⟨taken, rest, rfl⟩ : ∃ taken rest, below = .own (.queue (.batch true taken)) :: rest :=
        (hb nofun).nested.1
      have hd := (hb nofun).draining (List.mem_cons_of_mem _ List.mem_cons_self) rfl
      exact honest_told
        (truthful_of_drainPhase hd (h.evaluating hd) (drainPhase_process hc.writing entry))
    | propagate entry =>
      obtain ⟨taken, rest, rfl⟩ : ∃ taken rest, below = .own (.queue (.batch true taken)) :: rest :=
        (hb nofun).nested.1
      have hd := (hb nofun).draining (List.mem_cons_of_mem _ List.mem_cons_self) rfl
      exact honest_told
        (truthful_of_drainPhase hd (h.evaluating hd) (drainPhase_propagate e entry))
    | batchDone => exact honest_told h
    | watchers id old new rest =>
      exact honest_told ((state_tellWatchers e id old new rest).symm ▸ h)
    | listeners changed rest =>
      exact honest_told ((state_tellListeners e changed rest).symm ▸ h)
    | complete =>
      cases hs with
      | going hb => exact (hb.nested.1 : False).elim
      | ending hb => exact (hb.nested.1 : False).elim
      | completing rest stack hb hsettled done empty =>
        exact honest_told (truthful_complete done empty)
  | owing clean stack returned busy =>
    cases f with
    | handle t =>
      refine honest_told (clean.handle fun heq => ?_)
      -- Where nothing is drained the failure would be one while changes rest
      have hd : e.scheduler.draining = true := by
        by_contra hd
        have hm : e.resume (.handle t) = .fail e.rescan.1 .tooManyDigits := heq
        rw [hm] at hbreaks
        exact phase_of_breaks_eq_false hbreaks
          ((phase_rescan e).trans (busy (Bool.not_eq_true _ |>.mp hd)))
      exact truthful_of_draining (scheduler_rescan e ▸ hd)
        ((phase_rescan e).trans (clean.evaluating hd))
    | clock f =>
      cases f with
      | flushing rest total =>
        cases rest with
        | nil => exact (stack : False).elim
        | cons p rest => exact .owing (clean.congr rfl) trivial ⟨_, rfl⟩ busy
      | _ => exact (stack : False).elim
    | _ => exact (stack : False).elim
  | completing rest stack done empty returned busy =>
    cases stack
    exact honest_told (truthful_complete done empty)

/-- A failure passes through a frame, but does not come out of an update. -/
theorem honest_recover {f : Frame} {err : EngineError}
    (hbreaks : breaks ⟨e, .own f :: below, .raised err⟩ = false)
    (h : Honest ⟨e, .own f :: below, .raised err⟩) : Honest (after below (e.recover f err)) := by
  cases h with
  | told h =>
    cases f with
    | queue f =>
      cases f with
      | batch reports taken => cases hbreaks
      | begin reports | next reports | yielding f => exact honest_told (h.congr rfl rfl)
    | watchers id old new rest =>
      have h' : (e.report [.watcherFailed id]).Truthful := h.congr rfl rfl
      exact honest_told ((state_tellWatchers _ id old new rest).symm ▸ h')
    | listeners changed rest =>
      have h' : (e.report [.listenerFailed]).Truthful := h.congr rfl rfl
      exact honest_told ((state_tellListeners _ changed rest).symm ▸ h')
    | clock _ | handle _ | process _ | batchDone | propagate _ | complete => exact honest_told h
  | owing clean stack returned busy =>
    obtain ⟨r, hr⟩ := returned
    cases hr
  | completing rest stack done empty returned busy =>
    obtain ⟨r, hr⟩ := returned
    cases hr

/-- Resting work that is flushed is about to be handled. -/
theorem honest_flush (h : e.Truthful) (hdebounces : e.debounces = true) :
    Honest (after below (e.ofDebouncer e.debouncer.flush)) := by
  cases hp : e.debouncer.pending with
  | nil => exact honest_told (h.ofDebouncer hp.symm)
  | cons p rest =>
    refine .owing (h.toClean.congr rfl) ?_ ⟨_, rfl⟩ (h.busy fun hidle => ?_)
    · show Owes (.own (.clock (.flushing e.debouncer.pending _)) :: below)
      rw [hp]
      trivial
    · have hrests := h.rests_of_idle hidle
      rw [rests, hdebounces, hp] at hrests
      cases hrests

/-- An operation begins. -/
theorem honest_perform (hc : Sound settings mode e) (h : e.Truthful) {op : Operation}
    (listening : op ≠ .detach) : Honest (after below (e.perform op)) := by
  cases op with
  | attach compute =>
    have h' : { e with attached := true }.Truthful := h.congr rfl rfl
    cases compute with
    | true => exact honest_told (h'.recompute none)
    | false =>
      obtain ⟨r, heq⟩ := reply_attach e
      exact heq ▸ honest_told h'.rescan
  | detach => exact absurd rfl listening
  | recompute scope => exact honest_told (h.recompute scope)
  | rescan =>
    obtain ⟨r, heq⟩ := reply_rescan e
    exact heq ▸ honest_told h.rescan
  | notifyInput name user => exact honest_told (h.notifyInput hc.writing name user)
  | notifyLayout => exact honest_told (h.settle _ _)
  | flush =>
    unfold perform
    dsimp only
    split
    · next hdebounces => exact honest_flush h hdebounces
    · exact honest_told h
  | advance seconds => exact honest_told (h.ofDebouncer rfl)
  | runTimers => exact honest_told (h.ofDebouncer rfl)
  | runNext =>
    unfold perform pump
    dsimp only
    split
    · exact honest_told (h.ofYield _)
    · exact honest_told h
  | runAll =>
    unfold perform pump
    dsimp only
    split
    · exact honest_told (h.ofYield _)
    · exact honest_told h
  | addField name value scope notify =>
    exact honest_told (h.changeTree hc.writing _ .layout notify)
  | addOutput spec value notify =>
    exact honest_told (h.changeTree hc.writing _ .layout notify)
  | removeField name notify => exact honest_told (h.changeTree hc.writing _ _ _)
  | setValue name value user => exact honest_told (h.changeTree hc.writing _ _ _)
  | focus name => exact honest_told (h.congr rfl rfl)
  | write name text => exact honest_told (h.changeTree hc.writing (.ok _) (.input name false) _)

/-! ## Courses -/

/-- Where no frame of the engine is on top the phase tells the truth. -/
theorem Honest.truthful {c : Running} (h : Honest c) (ho : ∀ f below, c.stack ≠ .own f :: below) :
    c.state.Truthful := by
  cases h with
  | told h => exact h
  | owing clean stack returned busy =>
    unfold Owes at stack
    split at stack
    · next hstack => exact absurd hstack (ho _ _)
    · next hstack => exact absurd hstack (ho _ _)
    · exact stack.elim
  | completing below stack => exact absurd stack (ho _ _)

/-- An engine that is idle drains nothing, and nothing rests with it. -/
theorem Honest.idle {c : Running} (h : Honest c) (hp : c.state.phase = .idle) :
    c.state.Truthful ∧ c.state.scheduler.draining = false ∧ c.state.rests = false := by
  cases h with
  | told h =>
    refine ⟨h, ?_, h.rests_of_idle hp⟩
    by_contra hd
    rw [h.evaluating (Bool.not_eq_false _ ▸ hd)] at hp
    cases hp
  | owing clean stack returned busy =>
    cases hd : c.state.scheduler.draining with
    | true =>
      rw [clean.evaluating hd] at hp
      cases hp
    | false =>
      rw [busy hd] at hp
      cases hp
  | completing below stack done empty returned busy => exact absurd hp busy

theorem honest_happens {outside inside : Operation → Prop} {c c' : Running}
    (houtside : ∀ op, outside op → op ≠ .detach) (hinside : ∀ op, inside op → op ≠ .detach)
    (hreachable : Reachable settings mode c) (hbreaks : breaks c = false)
    (hbreaks' : breaks c' = false) (h : Honest c) (hstep : Happens outside inside c c') :
    Honest c' := by
  obtain ⟨hc, hs⟩ := steady_of_reachable hreachable
  cases hstep with
  | perform may => exact honest_perform hc (h.truthful (by simp)) (houtside _ may)
  | resume e f below r =>
    cases r with
    | returned r => exact honest_resume hc hs hbreaks' h
    | raised err => exact honest_recover hbreaks h
  | reenter may => exact honest_perform hc (h.truthful (by simp)) (hinside _ may)
  | answer e k below r r' => exact .told (h.truthful (by simp))
  | aside beside stack r =>
    obtain ⟨ws, ls, k, ns, writes, rfl⟩ := beside
    cases h with
    | told h => exact .told (h.congr rfl rfl)
    | owing clean stack returned busy =>
      exact .owing (clean.congr rfl) stack returned busy
    | completing below stack done empty returned busy =>
      exact .completing below stack done empty returned busy

theorem truthful_create (tree : FormTree) (settings : Settings) (mode : YieldMode)
    (debounces : Bool) : (Engine.create tree settings mode debounces).Truthful := by
  refine ⟨⟨nofun, fun _ => ⟨rfl, rfl, rfl, rfl⟩⟩, fun _ => ?_⟩
  cases debounces <;> rfl

/-- Whatever is done to an engine, and whenever, as long as it goes on listening, no update fails,
and no reading of the form breaks off while changes rest: at any time from outside it evaluates just
while a drain is going on, and else nothing of a cycle is left and it says whether changes rest. -/
theorem phase_truthful {tree : FormTree} (proper : tree.Proper) {debounces : Bool} {c : Running}
    (h : Course (· ≠ .detach) (· ≠ .detach) (breaks · = false)
      ⟨.create tree settings mode debounces, [], .returned default⟩ c) (outside : c.stack = []) :
    (c.state.phase = .evaluating ↔ c.state.scheduler.draining = true) ∧
      (c.state.scheduler.draining = false →
        c.state.scheduler.queue.entries = [] ∧ c.state.scheduler.inFlight = [] ∧
        c.state.passes = [] ∧ c.state.changed = [] ∧ c.state.scope = none ∧
        c.state.halted = false ∧ c.state.writing = false ∧
        (c.state.phase = .queued ↔
          c.state.debounces = true ∧ c.state.debouncer.pending ≠ []) ∧
        (c.state.phase ≠ .queued → c.state.phase = .idle)) := by
  have hcreate : Reachable settings mode
      ⟨.create tree settings mode debounces, [], .returned default⟩ := .create proper debounces
  have hhonest : Honest c := h.keeps (fun _ hop => hop)
    (fun hreachable hkind hp hstep hkind' =>
      honest_happens (fun _ hop => hop) (fun _ hop => hop) hreachable hkind hkind' hp hstep)
    hcreate rfl (.told (truthful_create tree settings mode debounces))
  have ho : ∀ f below, c.stack ≠ .own f :: below := fun f below hn => by
    rw [outside] at hn
    cases hn
  obtain ⟨hc, hs⟩ := steady_of_reachable (h.reachable (fun _ hop => hop) hcreate)
  obtain ⟨hb, hh⟩ := hs.outside ho
  have ht := hhonest.truthful ho
  refine ⟨⟨fun hp => ?_, ht.evaluating⟩, fun hd => ?_⟩
  · by_contra hn
    rw [ht.resting (Bool.not_eq_true _ |>.mp hn)] at hp
    split at hp
    · cases hp
    · cases hp
  · obtain ⟨hqueue, hpasses, hchanged, hscope⟩ := ht.cleared hd
    have hflight : c.state.scheduler.inFlight = [] := by
      by_contra hn
      have hpos := hb.flight hn
      rw [outside] at hpos
      cases hpos
    have hrests : c.state.rests = true ↔
        c.state.debounces = true ∧ c.state.debouncer.pending ≠ [] := by
      rw [rests, Bool.and_eq_true, Bool.not_eq_true', List.isEmpty_eq_false_iff]
    refine ⟨hqueue, hflight, hpasses, hchanged, hscope, hh, hc.writing, ?_, fun hp => ?_⟩
    · rw [← hrests, ht.resting hd]
      cases c.state.rests with
      | true => exact ⟨fun _ => rfl, fun _ => rfl⟩
      | false => exact ⟨nofun, nofun⟩
    · rw [ht.resting hd] at hp ⊢
      exact if_neg fun hr => hp (if_pos hr)

/-- A field was shown, and nothing is left to do. -/
def shownCopy : Running :=
  (among fun _ _ => .returned default).run 40
    (after [] ((Engine.create copyTree {} .manual true).perform (.attach true)))

/-- An edit by hand rests, and the phase says so. -/
theorem phase_truthful_resting :
    ∃ c, Course (· ≠ .detach) (· ≠ .detach) (breaks · = false)
        ⟨.create copyTree {} .manual true, [], .returned default⟩ c ∧
      c.stack = [] ∧ c.state.debouncer.pending ≠ [] ∧ c.state.phase = .queued := by
  have hruns : ∀ k ≤ 40, breaks ((among fun _ _ => .returned default).run k
      (after [] ((Engine.create copyTree {} .manual true).perform (.attach true)))) = false := by
    decide +kernel
  have hstarted : Course (· ≠ .detach) (· ≠ .detach) (breaks · = false)
      ⟨.create copyTree {} .manual true, [], .returned default⟩
      (after [] ((Engine.create copyTree {} .manual true).perform (.attach true))) :=
    .single (.perform nofun) (hruns 0 (by decide))
  have hshown : shownCopy.stack = [] := List.isEmpty_iff.mp (by decide +kernel)
  have hedit : Happens (· ≠ .detach) (· ≠ .detach) shownCopy
      (after [] (shownCopy.state.perform (.setValue "x" (.text "5") true))) :=
    .next hshown nofun
  have hedited := (hstarted.trans (.runs 40 hruns)).trans (.single hedit (by decide +kernel))
  have hstack : (after [] (shownCopy.state.perform (.setValue "x" (.text "5") true))).stack = [] :=
    List.isEmpty_iff.mp (by decide +kernel)
  have hpending : (after [] (shownCopy.state.perform
      (.setValue "x" (.text "5") true))).state.debouncer.pending ≠ [] :=
    List.isEmpty_eq_false_iff.mp (by decide +kernel)
  obtain ⟨-, hrest⟩ := phase_truthful proper_copyTree hedited hstack
  obtain ⟨-, -, -, -, -, -, -, hqueued, -⟩ := hrest (by decide +kernel)
  exact ⟨_, hedited, hstack, hpending, hqueued.mpr ⟨by decide +kernel, hpending⟩⟩

end LiveForm.Engine
