import LiveForm.Proofs.Engine.Reachable

/-!
# How a drain goes on

In surroundings that only answer, a drain is a sequence of updates: each one is processed to its
end, watchers included, before the next one is taken.  `Drains` is that sequence, and the engine
runs through it.
-/

namespace LiveForm.Engine

/-- The engine in surroundings that answer what they are asked and do nothing else. -/
def among (answer : Engine → Ask → Reply Response EngineError) :
    Machine Engine (Activity Frame Ask) Response EngineError
  | .own f, .returned _, e => e.resume f
  | .own f, .raised err, e => e.recover f err
  | .ask k, _, e => .reply e (answer e k)

/-- An operation goes on to its end among surroundings that answer. -/
theorem Reachable.run {settings : Settings} {mode : YieldMode} {c : Running}
    (h : Reachable settings mode c) (answer : Engine → Ask → Reply Response EngineError) (n : Nat) :
    Reachable settings mode ((among answer).run n c) := by
  refine Machine.run_keeps (fun {c} hc hstack => ?_) h n
  obtain ⟨e, stack, r⟩ := c
  match stack, r with
  | [], _ => exact absurd rfl hstack
  | .own f :: below, .returned r => exact hc.resume
  | .own f :: below, .raised err => exact hc.resume
  | .ask k :: below, _ => exact hc.answer (answer e k)

/-- An update that begins. -/
structure Update where
  engine : Engine
  entry : QueueEntry

/-- What is observed of a run: the updates. -/
def updates (c : Running) : Option Update :=
  match c.stack, c.reply with
  | .own (.process entry) :: _, .returned _ => some ⟨c.state, entry⟩
  | _, _ => none

/-- The node that an update evaluates. -/
def Update.evaluated? (u : Update) : Option String :=
  match u.engine.fate u.entry with
  | .evaluated n => some n.id
  | _ => none

open Machine (after Runs)

variable {settings : Settings} {e e' : Engine} {below : List (Activity Frame Ask)}
  {answer : Engine → Ask → Reply Response EngineError}

/-- The reply is no failed evaluation. -/
def isCalm : Reply Response EngineError → Bool
  | .raised (.evaluation _) => false
  | _ => true

theorem exists_of_isCalm_eq_false {r : Reply Response EngineError} (h : isCalm r = false) :
    ∃ err, r = .raised (.evaluation err) := by
  unfold isCalm at h
  split at h
  · next err => exact ⟨err, rfl⟩
  · cases h

/-- From here on no evaluation fails. -/
def Calm (answer : Engine → Ask → Reply Response EngineError) (c : Running) : Prop :=
  ∀ c', (among answer).Visits c c' → isCalm c'.reply = true

theorem Calm.runs {c c' : Running} {us : List Update} (h : Calm answer c)
    (hr : Runs (among answer) updates c us c') : Calm answer c' :=
  fun c'' hv => h c'' (hr.visits.trans hv)

/-- The reply is neither a failed evaluation nor a reading of the form that broke off. -/
def isSmooth : Reply Response EngineError → Bool
  | .raised (.evaluation _) | .raised .tooManyDigits => false
  | _ => true

theorem isCalm_of_isSmooth {r : Reply Response EngineError} (h : isSmooth r = true) :
    isCalm r = true := by
  by_contra hn
  obtain ⟨err, rfl⟩ := exists_of_isCalm_eq_false (Bool.not_eq_true _ |>.mp hn)
  cases h

/-- The run ends within so many steps, and all replies in it are smooth. -/
def endsSmoothly (answer : Engine → Ask → Reply Response EngineError) :
    (steps : Nat) → Running → Bool
  | 0, c => isSmooth c.reply && c.stack.isEmpty
  | n + 1, c =>
    isSmooth c.reply && (c.stack.isEmpty || endsSmoothly answer n ((among answer).step c))

theorem isSmooth_of_endsSmoothly {steps : Nat} {c : Running}
    (h : endsSmoothly answer steps c = true) (k : Nat) :
    isSmooth ((among answer).run k c).reply = true := by
  induction steps generalizing c k with
  | zero =>
    obtain ⟨hc, hstack⟩ := Bool.and_eq_true_iff.mp h
    rw [Machine.run_of_stack_nil (List.isEmpty_iff.mp hstack)]
    exact hc
  | succ n ih =>
    obtain ⟨hc, hrest⟩ := Bool.and_eq_true_iff.mp h
    by_cases hstack : c.stack = []
    · rw [Machine.run_of_stack_nil hstack]
      exact hc
    · cases k with
      | zero => exact hc
      | succ k =>
        rw [Machine.run_succ hstack]
        rw [Bool.or_eq_true, List.isEmpty_iff] at hrest
        exact ih (hrest.resolve_left hstack) k

theorem calm_of_endsSmoothly {steps : Nat} {c : Running} (h : endsSmoothly answer steps c = true) :
    Calm answer c := by
  rintro c' ⟨k, rfl⟩
  exact isCalm_of_isSmooth (isSmooth_of_endsSmoothly h k)

theorem stack_of_endsSmoothly {steps : Nat} {c : Running} (h : endsSmoothly answer steps c = true) :
    ((among answer).run steps c).stack = [] := by
  induction steps generalizing c with
  | zero => exact List.isEmpty_iff.mp (Bool.and_eq_true_iff.mp h).2
  | succ n ih =>
    obtain ⟨-, hrest⟩ := Bool.and_eq_true_iff.mp h
    by_cases hstack : c.stack = []
    · rw [Machine.run_of_stack_nil hstack]
      exact hstack
    · rw [Machine.run_succ hstack]
      rw [Bool.or_eq_true, List.isEmpty_iff] at hrest
      exact ih (hrest.resolve_left hstack)

/-- A step of a frame of the engine in which no update begins. -/
theorem runs_own {f : Frame} {r : Response} {us : List Update} {c : Running}
    (hf : updates ⟨e, .own f :: below, .returned r⟩ = none)
    (h : Runs (among answer) updates (after below (e.resume f)) us c) :
    Runs (among answer) updates ⟨e, .own f :: below, .returned r⟩ us c :=
  .head (List.cons_ne_nil _ _) hf h

/-! ## Telling watchers and listeners -/

/-- Whoever is to be told is told, and a failure is at most reported. -/
theorem runs_telling (frame : List Nat → Frame) (ask : Nat → Ask) (notice : Notice)
    (hnil : ∀ e, resume (frame []) e = e.finish)
    (hcons : ∀ e w ws, resume (frame (w :: ws)) e = .call e [.ask (ask w), .own (frame ws)])
    (hfails : ∀ e err ws, recover (frame ws) err e = resume (frame ws) (e.report [notice]))
    (hupdates : ∀ e ws r, updates ⟨e, .own (frame ws) :: below, r⟩ = none)
    (ws : List Nat) (e : Engine) :
    ∃ ns, Runs (among answer) updates (after below (resume (frame ws) e)) []
      ⟨{ e with notices := ns }, below, .returned default⟩ := by
  induction ws generalizing e with
  | nil =>
    rw [hnil]
    exact ⟨e.notices, .refl _⟩
  | cons w ws ih =>
    rw [hcons]
    cases ha : answer e (ask w) with
    | returned r =>
      obtain ⟨ns, hr⟩ := ih e
      refine ⟨ns, .head (List.cons_ne_nil _ _) rfl (.head (List.cons_ne_nil _ _) ?_ ?_)⟩
      · exact hupdates _ _ _
      · show Runs _ _ ((among answer).step ⟨e, .own (frame ws) :: below, answer e (ask w)⟩) _ _
        rw [ha]
        exact hr
    | raised err =>
      obtain ⟨ns, hr⟩ := ih (e.report [notice])
      refine ⟨ns, .head (List.cons_ne_nil _ _) rfl (.head (List.cons_ne_nil _ _) ?_ ?_)⟩
      · exact hupdates _ _ _
      · show Runs _ _ ((among answer).step ⟨e, .own (frame ws) :: below, answer e (ask w)⟩) _ _
        rw [ha]
        show Runs _ _ (after below (recover (frame ws) err e)) _ _
        rw [hfails]
        exact hr

variable (answer below) in
theorem runs_watchers (id : String) (old new : Value) (ws : List Nat) (e : Engine) :
    ∃ ns, Runs (among answer) updates (after below (e.tellWatchers id old new ws)) []
      ⟨{ e with notices := ns }, below, .returned default⟩ :=
  runs_telling (.watchers id old new) (.watcher · id old new) (.watcherFailed id) (fun _ => rfl)
    (fun _ _ _ => rfl) (fun _ _ _ => rfl) (fun _ _ _ => rfl) ws e

variable (answer below) in
theorem runs_listeners (changed : List String) (ls : List Nat) (e : Engine) :
    ∃ ns, Runs (among answer) updates (after below (e.tellListeners changed ls)) []
      ⟨{ e with notices := ns }, below, .returned default⟩ :=
  runs_telling (.listeners changed) (.listener · changed) .listenerFailed (fun _ => rfl)
    (fun _ _ _ => rfl) (fun _ _ _ => rfl) (fun _ _ _ => rfl) ls e

/-! ## One update -/

/-- What an update leaves behind when it is through, where no evaluation fails. -/
inductive Updated (e : Engine) (entry : QueueEntry) : Engine → Prop where
  | passedOver (fate : e.fate entry = .passedOver) : Updated e entry e
  | brokenOff (n : OutputNode) (fate : e.fate entry = .brokenOff n) :
    Updated e entry (e.brokenOff n)
  | keptOut (n : OutputNode) (v : Value) (e' : Engine) (fate : e.fate entry = .evaluated n)
    (value : (e.counted n).computed n = .ok v) (out : (e.counted n).accepts n v entry = false)
    (judged : (e.counted n).Judged n e') : Updated e entry e'
  | accepted (n : OutputNode) (v : Value) (e₁ e₂ : Engine) (ns : List Notice)
    (fate : e.fate entry = .evaluated n) (value : (e.counted n).computed n = .ok v)
    (new : (e.counted n).accepts n v entry = true) (judged : (e.counted n).Judged n e₁)
    (stored : e₁.Stored n v e₂) :
    Updated e entry ({ e₂ with notices := ns, announcing := e.announcing }.passed
      { n with lastValue := v, evaluated := true } entry.source)

/-- As many values can be remembered as the settings ask for. -/
theorem Coherent.canRemember {mode : YieldMode} (h : Coherent settings mode e)
    (hmost : settings.historySize ≤ ConvergenceDetector.maxHistory) :
    e.detector.canRemember = true := by
  rw [ConvergenceDetector.canRemember, h.historySize]
  exact decide_eq_true (Int.toNat_le.mpr hmost)

/-- A value that is stored is announced. -/
theorem announcing_stored {n : OutputNode} {v : Value} {e₁ e₂ : Engine}
    (judged : (e.counted n).Judged n e₁) (stored : e₁.Stored n v e₂) :
    e₂.announcing = { n with lastValue := v, evaluated := true } :: e.announcing := by
  obtain ⟨written, ns, rfl, -⟩ := stored
  exact congrArg (List.cons _) (judged.unseen announcing fun _ _ _ => rfl)

variable (answer below) in
/-- The watchers of a node are told, and its change is passed on. -/
theorem runs_announced {mode : YieldMode} (hc : Coherent settings mode e) {n : OutputNode}
    {announcing : List OutputNode} (hn : e.announcing = n :: announcing) (entry : QueueEntry)
    (id : String) (old new : Value) (ws : List Nat) :
    ∃ ns, Runs (among answer) updates
      (after below (.call e [.own (.watchers id old new ws), .own (.propagate entry)])) []
      ⟨{ e with notices := ns, announcing }.passed n entry.source, below, .returned default⟩ := by
  obtain ⟨ns, hwatchers⟩ := runs_watchers (.own (.propagate entry) :: below) answer id old new ws e
  have hpropagate := propagate_eq (e := { e with notices := ns }) entry
    (fun _ => hc.contains_of_mem_order) hn
  refine ⟨ns, runs_own rfl (hwatchers.trans (runs_own rfl ?_))⟩
  show Runs _ _ (after below (propagate { e with notices := ns } entry)) _ _
  rw [hpropagate]
  exact .refl _

/-- An update runs to its end. -/
theorem runs_update {mode : YieldMode} (hc : Coherent settings mode e)
    (hmost : settings.historySize ≤ ConvergenceDetector.maxHistory) {entry : QueueEntry}
    {r : Response} (calm : Calm answer ⟨e, .own (.process entry) :: below, .returned r⟩) :
    ∃ e', Updated e entry e' ∧
      Runs (among answer) updates ⟨e, .own (.process entry) :: below, .returned r⟩ [⟨e, entry⟩]
        ⟨e', below, .returned default⟩ := by
  have hstep : Runs (among answer) updates ⟨e, .own (.process entry) :: below, .returned r⟩
      [⟨e, entry⟩] (after below (e.process entry)) :=
    .step (m := among answer) (List.cons_ne_nil _ _)
  have hcalm := calm.runs hstep
  rw [process_eq] at hstep hcalm
  cases hf : e.fate entry with
  | passedOver =>
    rw [hf] at hstep
    exact ⟨e, .passedOver hf, hstep⟩
  | brokenOff n =>
    rw [hf] at hstep
    exact ⟨_, .brokenOff n hf, hstep⟩
  | evaluated n =>
    rw [hf] at hstep hcalm
    dsimp only at hstep hcalm
    have hm := (e.counted n).evaluated_evaluateNode n entry
    generalize (e.counted n).evaluateNode n entry = m at hm hstep hcalm
    cases hm with
    | failed err e' value judged => exact absurd (hcalm _ (.refl _)) Bool.false_ne_true
    | tooLong v e' value full judged =>
      rw [(hc.counted n).canRemember hmost] at full
      cases full
    | keptOut v e' value room out judged => exact ⟨e', .keptOut n v e' hf value out judged, hstep⟩
    | accepted v e₁ value room new judged =>
      have hc₁ := (hc.counted n).judged judged
      obtain ⟨e₂, watchers, stored, heq⟩ :=
        accept_eq entry (displayable_of_computed value) hc₁.writing
      rw [heq] at hstep
      obtain ⟨ns, hruns⟩ := runs_announced below answer (hc₁.stored stored)
        (announcing_stored judged stored) entry n.id n.lastValue v watchers
      exact ⟨_, .accepted n v e₁ e₂ ns hf value new judged stored, hstep.trans hruns⟩

/-! ## What an update keeps -/

theorem Coherent.updated {mode : YieldMode} (h : Coherent settings mode e) {entry : QueueEntry}
    (hu : Updated e entry e') : Coherent settings mode e' := by
  cases hu with
  | passedOver fate => exact h
  | brokenOff n fate => exact h.brokenOff n
  | keptOut n v _ fate value out judged => exact (h.counted n).judged judged
  | accepted n v e₁ e₂ ns fate value new judged stored =>
    have h₂ := ((h.counted n).judged judged).stored stored
    have h₃ : Coherent settings mode { e₂ with notices := ns, announcing := e.announcing } :=
      h₂.congr rfl
    exact h₃.queued (queued_passed _ _ _)

/-- What an update keeps that does not break its cycle off. -/
def ongoing (e : Engine) :=
  (e.halted, e.settings, e.registry.ids, e.scheduler.inFlight, e.scheduler.draining,
    e.scheduler.yieldPoint)

theorem ongoing_judged {n : OutputNode} (h : e.Judged n e') :
    e'.ongoing = e.ongoing ∧ e'.passes = e.passes :=
  ⟨h.unseen ongoing fun _ _ _ => rfl, h.unseen passes fun _ _ _ => rfl⟩

theorem ongoing_stored {n : OutputNode} {v : Value} (h : e.Stored n v e') :
    e'.ongoing = e.ongoing ∧ e'.passes = e.passes := by
  obtain ⟨written, ns, rfl, -⟩ := h
  refine ⟨?_, rfl⟩
  simp only [ongoing, Registry.ids_modify (f := (·.store v written)) fun _ => rfl]

theorem ongoing_queued (h : Queued e e') : e'.ongoing = e.ongoing ∧ e'.passes = e.passes := by
  obtain ⟨⟨queue, ns, rfl⟩, -, -⟩ := h
  exact ⟨rfl, rfl⟩

/-- An update that evaluates a node counts its pass and goes on. -/
theorem Updated.evaluated {entry : QueueEntry} (hu : Updated e entry e') {n : OutputNode}
    (hf : e.fate entry = .evaluated n) :
    e'.ongoing = e.ongoing ∧ e'.passes = (e.counted n).passes := by
  cases hu with
  | passedOver fate | brokenOff m fate => rw [hf] at fate; cases fate
  | keptOut m v _ fate value out judged =>
    rw [hf] at fate
    cases fate
    exact ongoing_judged judged
  | accepted m v e₁ e₂ ns fate value new judged stored =>
    rw [hf] at fate
    cases fate
    obtain ⟨h₁, hp₁⟩ := ongoing_judged judged
    obtain ⟨h₂, hp₂⟩ := ongoing_stored stored
    obtain ⟨h₃, hp₃⟩ := ongoing_queued (queued_passed
      { e₂ with notices := ns, announcing := e.announcing }
      { n with lastValue := v, evaluated := true } entry.source)
    exact ⟨h₃.trans (h₂.trans h₁), hp₃.trans (hp₂.trans hp₁)⟩

/-- An update passes its node over, breaks the cycle off, or evaluates its node. -/
theorem Updated.ends {entry : QueueEntry} (hu : Updated e entry e') :
    e.fate entry = .passedOver ∧ e' = e ∨ (∃ n, e.fate entry = .brokenOff n ∧ e' = e.brokenOff n) ∨
      ∃ n, e.fate entry = .evaluated n := by
  cases hu with
  | passedOver fate => exact Or.inl ⟨fate, rfl⟩
  | brokenOff n fate => exact Or.inr (Or.inl ⟨n, fate, rfl⟩)
  | keptOut n v _ fate value out judged => exact Or.inr (Or.inr ⟨n, fate⟩)
  | accepted n v e₁ e₂ ns fate value new judged stored => exact Or.inr (Or.inr ⟨n, fate⟩)

theorem Updated.yieldPoint {entry : QueueEntry} (hu : Updated e entry e') :
    e'.scheduler.yieldPoint = e.scheduler.yieldPoint := by
  rcases hu.ends with ⟨-, rfl⟩ | ⟨n, -, rfl⟩ | ⟨n, hf⟩
  · rfl
  · rfl
  · have hongoing := (hu.evaluated hf).1
    simp only [ongoing, Prod.mk.injEq] at hongoing
    exact hongoing.2.2.2.2.2

theorem Updated.nodup {entry : QueueEntry} (hu : Updated e entry e')
    (h : e.scheduler.queue.nodes.Nodup) : e'.scheduler.queue.nodes.Nodup := by
  cases hu with
  | passedOver fate => exact h
  | brokenOff n fate => exact List.nodup_nil
  | keptOut n v _ fate value out judged =>
    rw [judged.unseen scheduler fun _ _ _ => rfl]
    exact h
  | accepted n v e₁ e₂ ns fate value new judged stored =>
    obtain ⟨written, ns', rfl, -⟩ := stored
    refine (queued_passed _ _ _).nodup ?_
    rw [judged.unseen scheduler fun _ _ _ => rfl]
    exact h

/-! ## Many updates -/

/-- The engine when the batch in flight was cut down. -/
def withFlight (e : Engine) (rest : List QueueEntry) : Engine :=
  { e with scheduler := { e.scheduler with inFlight := rest } }

/-- The engine when it has taken a batch. -/
def taken (e : Engine) : Engine :=
  { e with scheduler :=
    { (e.scheduler.takeBatch none).2 with inFlight := (e.scheduler.takeBatch none).1 } }

/-- The engine in the loop of its yield point. -/
def looped (e : Engine) : Engine :=
  { e with scheduler :=
    { e.scheduler with yieldPoint := { e.scheduler.yieldPoint with running := true } } }

/-- A drain takes these updates one after another, and then nothing waits. -/
inductive Drains : Engine → List Update → Engine → Prop where
  | done {e : Engine} (queue : e.scheduler.queue.entries = [])
    (flight : e.scheduler.inFlight = []) : Drains e [] e
  | update {e e₁ e₂ : Engine} {entry : QueueEntry} {rest : List QueueEntry} {us : List Update}
    (flight : e.scheduler.inFlight = entry :: rest) (updated : Updated (e.withFlight rest) entry e₁)
    (later : Drains e₁ us e₂) : Drains e (⟨e.withFlight rest, entry⟩ :: us) e₂
  | batch {e e' : Engine} {us : List Update} (flight : e.scheduler.inFlight = [])
    (waits : e.scheduler.queue.entries ≠ []) (later : Drains e.looped.taken us e') : Drains e us e'

/-- A drain is going on. -/
structure Underway (settings : Settings) (e : Engine) : Prop where
  coherent : Coherent settings .immediate e
  nodup : e.scheduler.queue.nodes.Nodup
  draining : e.scheduler.draining = true
  waiting : e.scheduler.yieldPoint.waiting = []
  stopped : e.halted = true → e.scheduler.queue.entries = [] ∧ e.scheduler.inFlight = []

/-- While updates are in flight the cycle was not broken off. -/
theorem Underway.running (h : Underway settings e) {entry : QueueEntry} {rest : List QueueEntry}
    (hf : e.scheduler.inFlight = entry :: rest) : e.halted = false := by
  by_contra hn
  have hempty := (h.stopped (Bool.not_eq_false _ ▸ hn)).2
  rw [hf] at hempty
  cases hempty

theorem Underway.updated (h : Underway settings e) {entry : QueueEntry} {rest : List QueueEntry}
    (hf : e.scheduler.inFlight = entry :: rest) (hu : Updated (e.withFlight rest) entry e') :
    Underway settings e' := by
  have hc : Coherent settings .immediate (e.withFlight rest) := h.coherent.congr rfl
  have hrunning := h.running hf
  rcases hu.ends with ⟨-, rfl⟩ | ⟨n, -, rfl⟩ | ⟨n, hfate⟩
  · exact ⟨hc, h.nodup, h.draining, h.waiting, fun hn => by
      rw [show e.halted = true from hn] at hrunning
      cases hrunning⟩
  · exact ⟨hc.brokenOff n, List.nodup_nil, h.draining, h.waiting, fun _ => ⟨rfl, rfl⟩⟩
  · obtain ⟨hongoing, -⟩ := hu.evaluated hfate
    simp only [ongoing, Prod.mk.injEq] at hongoing
    obtain ⟨hhalted, -, -, -, hdraining, hyield⟩ := hongoing
    refine ⟨hc.updated hu, hu.nodup h.nodup, hdraining.trans h.draining, ?_, fun hn => ?_⟩
    · rw [hyield]
      exact h.waiting
    · rw [hhalted, show (e.withFlight rest).halted = e.halted from rfl, hrunning] at hn
      cases hn

/-- The next batch is taken. -/
theorem Underway.taken (h : Underway settings e) : Underway settings e.taken := by
  refine ⟨h.coherent.congr rfl, ?_, h.draining, h.waiting, fun hn => ?_⟩
  · exact (List.filter_sublist.map QueueEntry.node).nodup h.nodup
  · exact Scheduler.takeBatch_of_empty (h.stopped hn).1

theorem Underway.looped (h : Underway settings e) : Underway settings e.looped :=
  ⟨h.coherent.congr rfl, h.nodup, h.draining, h.waiting, h.stopped⟩

end LiveForm.Engine
