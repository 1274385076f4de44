import LiveForm.Proofs.Clock.Debouncer
import LiveForm.Proofs.Engine.Course

/-!
# The timers of an engine

A timer is set for each change that rests, and cancelled when the change is dropped or handled
early.  When several changes are handled early, each one's timer is cancelled when it has its turn:
if the handling of one fails, the timers of those behind it are left, though nothing is pending
any more.  The same may happen when time passes in the middle of it.  Otherwise each timer belongs
to a change that rests.
-/

namespace LiveForm.Engine

open Machine (after)

variable {settings : Settings} {mode : YieldMode} {e e' : Engine}
  {below : List (Activity Frame Ask)} {c c' : Running} {r : Reply Response EngineError}

/-- A step of the engine that keeps something, and comes to frames of a kind only. -/
def Idles {α : Type} (kept : Engine → α) (kind : Activity Frame Ask → Bool)
    (below : List (Activity Frame Ask)) (e : Engine) (c : Running) : Prop :=
  kept c.state = kept e ∧ ∃ fs, c.stack = fs ++ below ∧ ∀ f ∈ fs, kind f = true

section

variable {α : Type} {kept : Engine → α} {kind : Activity Frame Ask → Bool}

theorem idles_reply (he : kept e' = kept e) (r : Reply Response EngineError) :
    Idles kept kind below e (after below (.reply e' r)) :=
  ⟨he, [], rfl, List.forall_mem_nil _⟩

theorem idles_tellListeners (he : kept e' = kept e)
    (hask : ∀ l changed, kind (.ask (.listener l changed)) = true)
    (hframe : ∀ changed ls, kind (.own (.listeners changed ls)) = true) (changed : List String)
    (ls : List Nat) : Idles kept kind below e (after below (e'.tellListeners changed ls)) := by
  cases ls with
  | nil => exact idles_reply he _
  | cons l ls =>
    refine ⟨he, [_, _], rfl, fun f hf => ?_⟩
    rcases List.mem_pair.mp hf with rfl | rfl
    · exact hask l changed
    · exact hframe changed ls

end

/-! ## Steps that leave the timers alone -/

/-- What the timers are. -/
def clockwork (e : Engine) := (e.debouncer, e.debounces)

/-- The frame is none of the debouncer. -/
def offClock : Activity Frame Ask → Bool
  | .own (.clock _) => false
  | _ => true

theorem idles_ofScheduler (he : e'.clockwork = e.clockwork) (m : Scheduler.Move EngineError) :
    Idles clockwork offClock below e (after below (e'.ofScheduler m)) := by
  match m with
  | .reply s (.returned a) => exact ⟨he, [], rfl, List.forall_mem_nil _⟩
  | .reply s (.raised err) => exact ⟨he, [], rfl, List.forall_mem_nil _⟩
  | .call s fs =>
    refine ⟨he, _, rfl, fun f hf => ?_⟩
    obtain ⟨g, -, rfl⟩ := List.mem_map.mp hf
    match g with
    | .own f => rfl
    | .ask (.process entry) => rfl
    | .ask (.batchDone batch) => rfl
    | .ask .idle => rfl

theorem idles_cycle (he : e'.clockwork = e.clockwork) (ids : List String) (priority : Priority)
    (source scope : Option String) : Idles clockwork offClock below e
      (after below (e'.schedule ids priority source scope).drain) := by
  obtain ⟨scope', passes, ⟨queue, ns, heq⟩, -, -⟩ := queued_schedule e' ids priority source scope
  have hscheduled : (e'.schedule ids priority source scope).clockwork = e.clockwork := by
    rw [heq]
    exact he
  unfold drain
  dsimp only
  refine idles_ofScheduler ?_ _
  split
  · exact hscheduled
  · exact hscheduled

theorem clockwork_rescan (e : Engine) : e.rescan.1.clockwork = e.clockwork :=
  rescan_unseen e clockwork fun _ _ _ _ _ _ _ _ _ => rfl

theorem idles_recompute (he : e'.clockwork = e.clockwork) (scope : Option String) :
    Idles clockwork offClock below e (after below (e'.recompute scope)) := by
  have hrescan := (clockwork_rescan e').trans he
  rcases recompute_cases e' scope with ⟨err, heq⟩ | ⟨ids, heq⟩
  · rw [heq]
    exact idles_reply hrescan _
  · rw [heq]
    exact idles_cycle hrescan _ _ _ _

theorem idles_handle (he : e'.clockwork = e.clockwork) (t : Trigger) :
    Idles clockwork offClock below e (after below (e'.handle t)) := by
  have hrescan := (clockwork_rescan e').trans he
  rcases handle_cases e' t with heq | ⟨e₁, ids, priority, source, rfl | rfl, heq⟩
  · rw [heq]
    exact idles_reply hrescan _
  · rw [heq]
    exact idles_cycle he _ _ _ _
  · rw [heq]
    exact idles_cycle hrescan _ _ _ _

theorem idles_process (hc : Sound settings mode e) (entry : QueueEntry) :
    Idles clockwork offClock below e (after below (e.process entry)) := by
  rw [process_eq]
  split
  · exact idles_reply rfl _
  · exact idles_reply rfl _
  · next n hfate =>
    have hm := (e.counted n).evaluated_evaluateNode n entry
    generalize (e.counted n).evaluateNode n entry = m at hm ⊢
    have hjudged : ∀ {e' : Engine}, (e.counted n).Judged n e' → e'.clockwork = e.clockwork :=
      fun hj => hj.unseen clockwork fun _ _ _ => rfl
    cases hm with
    | failed err e' value judged => exact idles_reply (hjudged judged) _
    | tooLong v e' value full judged => exact idles_reply (hjudged judged) _
    | keptOut v e' value room out judged => exact idles_reply (hjudged judged) _
    | accepted v e' value room new judged =>
      have hc' := (hc.counted n).judged judged
      obtain ⟨e'', ws, ⟨written, ns, hstored, -⟩, heq⟩ :=
        accept_eq entry (displayable_of_computed value) hc'.writing
      rw [heq]
      refine ⟨?_, _, rfl, fun f hf => ?_⟩
      · have hclockwork : e'.clockwork = e.clockwork := hjudged judged
        rw [hstored]
        exact hclockwork
      · rcases List.mem_pair.mp hf with rfl | rfl
        · rfl
        · rfl

theorem idles_propagate (e : Engine) (entry : QueueEntry) :
    Idles clockwork offClock below e (after below (e.propagate entry)) := by
  obtain ⟨e', r, heq, ⟨⟨queue, ns, rfl⟩, -, -⟩⟩ := propagate_reply e entry
  rw [heq]
  exact idles_reply rfl _

theorem idles_tellWatchers (he : e'.clockwork = e.clockwork) (id : String) (old new : Value)
    (ws : List Nat) :
    Idles clockwork offClock below e (after below (e'.tellWatchers id old new ws)) := by
  cases ws with
  | nil => exact idles_reply he _
  | cons w ws =>
    refine ⟨he, [_, _], rfl, fun f hf => ?_⟩
    rcases List.mem_pair.mp hf with rfl | rfl
    · rfl
    · rfl

/-- A frame that is none of the debouncer goes on. -/
theorem idles_resume (hc : Sound settings mode e) {f : Frame}
    (hf : offClock (.own f) = true) :
    Idles clockwork offClock below e (after below (e.resume f)) := by
  cases f with
  | queue f => exact idles_ofScheduler rfl _
  | clock f => cases hf
  | handle t => exact idles_handle rfl t
  | process entry => exact idles_process hc entry
  | batchDone => exact idles_reply rfl _
  | watchers id old new rest => exact idles_tellWatchers rfl id old new rest
  | propagate entry => exact idles_propagate e entry
  | complete =>
    show Idles clockwork offClock below e (after below e.complete)
    unfold complete
    dsimp only
    split
    · exact idles_reply rfl _
    · refine idles_tellListeners ?_ (fun _ _ => rfl) (fun _ _ => rfl) _ _
      rfl
  | listeners changed rest =>
    exact idles_tellListeners rfl (fun _ _ => rfl) (fun _ _ => rfl) changed rest

/-- A failure passes through a frame, or is reported. -/
theorem idles_recover (e : Engine) (f : Frame) (err : EngineError) :
    Idles clockwork offClock below e (after below (e.recover f err)) := by
  cases f with
  | watchers id old new rest =>
    have hreport : (e.report [.watcherFailed id]).clockwork = e.clockwork := rfl
    exact idles_tellWatchers hreport id old new rest
  | listeners changed rest =>
    have hreport : (e.report [.listenerFailed]).clockwork = e.clockwork := rfl
    exact idles_tellListeners hreport (fun _ _ => rfl) (fun _ _ => rfl) changed rest
  | _ => exact ⟨rfl, [], rfl, List.forall_mem_nil _⟩

/-! ## Timers and changes that rest -/

/-- The changes whose handling a frame is to begin, though they rest no more. -/
def flushed : Activity Frame Ask → List (PendingWork Trigger Trigger)
  | .own (.clock (.flushing rest _)) => rest
  | _ => []

theorem flushed_of_offClock {f : Activity Frame Ask} (hf : offClock f = true) : flushed f = [] := by
  unfold flushed
  split
  · cases hf
  · rfl

/-- Timers go on only below everything else. -/
def Grounded : List (Activity Frame Ask) → Prop
  | [] => True
  | f :: below => (∀ g, f = .own (.clock (.clock g)) → below = []) ∧ Grounded below

/-- Each timer belongs to a change that rests, or to one that is about to be handled early. -/
structure Punctual (e : Engine) (stack : List (Activity Frame Ask)) : Prop where
  timed : e.debouncer.Timed (stack.flatMap flushed)
  unused : e.debounces = false → e.debouncer.timers.live = []
  grounded : Grounded stack
  still : ∀ a, .own (.clock (.ring a)) ∉ stack

/-- So it is but when a timer rings: its change is still pending then. -/
def OnTime (c : Running) : Prop :=
  Punctual c.state c.stack ∨ ∃ key work below,
    c.stack = .own (.clock (.ring (.keyed key work))) :: below ∧ Punctual c.state below ∧
      c.state.debouncer.Untimed key

namespace Punctual

theorem congr {stack : List (Activity Frame Ask)} (h : Punctual e stack)
    (he : e'.clockwork = e.clockwork) : Punctual e' stack := by
  simp only [clockwork, Prod.mk.injEq] at he
  obtain ⟨hdebouncer, hdebounces⟩ := he
  refine ⟨?_, ?_, h.grounded, h.still⟩
  · rw [hdebouncer]
    exact h.timed
  · rw [hdebouncer, hdebounces]
    exact h.unused

theorem pop {f : Activity Frame Ask} (h : Punctual e (f :: below)) (hf : flushed f = []) :
    Punctual e below where
  timed := by
    have htimed := h.timed
    rwa [List.flatMap_cons, hf, List.nil_append] at htimed
  unused := h.unused
  grounded := h.grounded.2
  still a ha := h.still a (List.mem_cons_of_mem _ ha)

/-- Frames may be put on top that are none of the debouncer. -/
theorem push (h : Punctual e below) {fs : List (Activity Frame Ask)}
    (hfs : ∀ f ∈ fs, offClock f = true) : Punctual e (fs ++ below) := by
  induction fs with
  | nil => exact h
  | cons f fs ih =>
    have hrest := ih fun g hg => hfs g (List.mem_cons_of_mem _ hg)
    have hf := hfs f List.mem_cons_self
    have hnone := flushed_of_offClock hf
    refine ⟨?_, h.unused, ⟨fun g hg => ?_, hrest.grounded⟩, fun a ha => ?_⟩
    · rw [List.cons_append, List.flatMap_cons, hnone]
      exact hrest.timed
    · rw [hg] at hf
      cases hf
    · rcases List.mem_cons.mp ha with heq | ha
      · rw [← heq] at hf
        cases hf
      · exact hrest.still a ha

theorem idles (h : Punctual e below) (hi : Idles clockwork offClock below e c') : OnTime c' := by
  obtain ⟨hclockwork, fs, hstack, hfs⟩ := hi
  refine Or.inl ?_
  rw [hstack]
  exact (h.congr hclockwork).push hfs

/-! ## Frames of the debouncer -/

/-- Timers go on. -/
theorem clock {f : Timers.Frame} (h : Punctual e (.own (.clock (.clock f)) :: below)) :
    OnTime (after below (e.ofDebouncer (e.debouncer.resume (.clock f)))) := by
  obtain rfl : below = [] := h.grounded.1 f rfl
  rcases Timers.resume_cases (ε := EngineError) f e.debouncer.timers with
    ⟨t, rest, now, f', hlive, hmove⟩ | ⟨now, n, hmove⟩
  · obtain ⟨htimed, key, work, hpayload, huntimed⟩ := Debouncer.Timed.fire h.timed hlive now
    have hfires : after [] (e.ofDebouncer (e.debouncer.resume (.clock f))) =
        ⟨{ e with debouncer := { e.debouncer with
            timers := { e.debouncer.timers with live := rest, now } } },
          [.own (.clock (.ring (.keyed key work))), .own (.clock (.clock f'))],
          .returned default⟩ := by
      show after [] (e.ofDebouncer (e.debouncer.ofTimers (e.debouncer.timers.resume f))) = _
      rw [hmove, ← hpayload]
      rfl
    rw [hfires]
    refine Or.inr ⟨key, work, _, rfl, ⟨htimed, fun hd => ?_, ⟨fun _ _ => rfl, trivial⟩,
      fun a ha => ?_⟩, huntimed⟩
    · have hnone := h.unused hd
      rw [hlive] at hnone
      cases hnone
    · cases List.mem_singleton.mp ha
  · have hends : after [] (e.ofDebouncer (e.debouncer.resume (.clock f))) =
        ⟨{ e with debouncer := { e.debouncer with timers := { e.debouncer.timers with now } } }, [],
          .returned (.plain (.count n))⟩ := by
      show after [] (e.ofDebouncer (e.debouncer.ofTimers (e.debouncer.timers.resume f))) = _
      rw [hmove]
      rfl
    rw [hends]
    exact Or.inl ⟨h.timed.sublist (.refl _) rfl, h.unused, trivial, fun a => List.not_mem_nil⟩

/-- The change is handled whose timer has fired. -/
theorem ring (h : Punctual e below) {key work : Trigger} (huntimed : e.debouncer.Untimed key) :
    OnTime (after below (e.ofDebouncer (e.debouncer.resume (.ring (.keyed key work))))) := by
  have hforgotten : Punctual { e with debouncer := e.debouncer.forget key } below :=
    ⟨h.timed.forget huntimed, h.unused, h.grounded, h.still⟩
  refine Or.inl (hforgotten.push fun f hf => ?_)
  rw [List.mem_singleton.mp hf]
  rfl

/-- The next one of the changes is handled early, and its timer cancelled. -/
theorem flushing {rest : List (PendingWork Trigger Trigger)} {total : Nat}
    (h : Punctual e (.own (.clock (.flushing rest total)) :: below)) :
    OnTime (after below (e.ofDebouncer (e.debouncer.resume (.flushing rest total)))) := by
  cases rest with
  | nil => exact Or.inl (h.pop rfl)
  | cons p rest =>
    have hcancelled : Punctual { e with debouncer := e.debouncer.cancelTimer p.serial }
        (.own (.clock (.flushing rest total)) :: below) := by
      refine ⟨h.timed.turn, fun hd => ?_, ⟨fun g hg => ?_, h.grounded.2⟩, fun a ha => ?_⟩
      · show e.debouncer.timers.live.filter _ = []
        rw [h.unused hd]
        rfl
      · cases hg
      · rcases List.mem_cons.mp ha with ha | ha
        · cases ha
        · exact h.still a (List.mem_cons_of_mem _ ha)
    have hpushed : Punctual { e with debouncer := e.debouncer.cancelTimer p.serial }
        ([.own (.handle p.work)] ++ .own (.clock (.flushing rest total)) :: below) :=
      hcancelled.push fun f hf => by
        rw [List.mem_singleton.mp hf]
        rfl
    exact Or.inl hpushed

end Punctual

/-! ## Operations -/

/-- The operation lets time pass. -/
def Operation.passesTime : Operation → Bool
  | .advance _ | .runTimers => true
  | _ => false

theorem onTime_settle (h : Punctual e below) (t : Trigger) (delay : Binary64) :
    OnTime (after below (e.settle t delay)) := by
  unfold settle
  split
  · next hdebounces =>
    refine Or.inl ⟨h.timed.schedule t delay t, fun hd => ?_, h.grounded, h.still⟩
    have hdebounces' : e.debounces = false := hd
    rw [hdebounces] at hdebounces'
    cases hdebounces'
  · exact h.idles (idles_handle rfl t)

theorem onTime_notifyInput (hc : Sound settings mode e) (h : Punctual e below) (name : String)
    (user : Bool) : OnTime (after below (e.notifyInput name user)) := by
  have hbound : (e.bound name).clockwork = e.clockwork := by
    rcases bound_cases e name with heq | ⟨rows, -, heq⟩ | heq <;> rw [heq] <;> rfl
  have hedited : ((e.bound name).edited name user).clockwork = e.clockwork := by
    refine Eq.trans ?_ hbound
    unfold edited
    split
    · rfl
    · rfl
  rw [notifyInput_eq hc.writing]
  split
  · exact h.idles (idles_reply hbound _)
  · exact onTime_settle (h.congr hedited) _ _

theorem onTime_changeTree (hc : Sound settings mode e) (h : Punctual e below)
    {change : Except TreeError FormTree} (ht : ∀ tree, change = .ok tree → tree.Proper)
    (event : TreeEvent) (notify : Bool) :
    OnTime (after below (e.changeTree change event notify)) := by
  unfold changeTree
  split
  · exact h.idles (idles_reply rfl _)
  · next tree =>
    have hc' := hc.withTree (ht tree rfl)
    have h' : Punctual { e with tree } below := h.congr rfl
    dsimp only
    split
    · unfold deliver
      split
      · split
        · exact onTime_notifyInput hc' h' _ _
        · exact onTime_settle h' _ _
      · exact h'.idles (idles_reply rfl _)
    · exact h'.idles (idles_reply rfl _)

/-- Time passes only where nothing else is going on. -/
theorem onTime_perform (hc : Sound settings mode e) (h : Punctual e below) {op : Operation}
    (hop : op.passesTime = true → below = []) : OnTime (after below (e.perform op)) := by
  have hpump : ∀ m : Scheduler.Move EngineError, OnTime (after below (e.pump m)) := by
    intro m
    unfold pump
    split
    · exact h.idles (idles_ofScheduler rfl m)
    · exact h.idles (idles_reply rfl _)
  have hclock : ∀ f : Timers.Frame, below = [] →
      OnTime ⟨e, .own (.clock (.clock f)) :: below, .returned default⟩ := by
    rintro f rfl
    refine Or.inl ⟨h.timed, h.unused, ⟨fun _ _ => rfl, trivial⟩, fun a ha => ?_⟩
    cases List.mem_singleton.mp ha
  cases op with
  | attach compute =>
    cases compute with
    | true =>
      have hclockwork : ({ e with attached := true } : Engine).clockwork = e.clockwork := rfl
      exact h.idles (idles_recompute hclockwork none)
    | false =>
      obtain ⟨r, heq⟩ := reply_attach e
      rw [heq]
      exact h.idles (idles_reply (clockwork_rescan { e with attached := true }) _)
  | detach =>
    refine Or.inl ⟨?_, fun hd => ?_, h.grounded, h.still⟩
    · show Debouncer.Timed _ (if e.debounces then e.debouncer.cancelAll else e.debouncer)
      split
      · exact h.timed.cancelAll
      · exact h.timed
    · have hdebounces : e.debounces = false := hd
      show (if e.debounces then e.debouncer.cancelAll else e.debouncer).timers.live = []
      rw [if_neg (by rw [hdebounces]; exact Bool.false_ne_true)]
      exact h.unused hdebounces
  | recompute scope => exact h.idles (idles_recompute rfl scope)
  | rescan =>
    obtain ⟨r, heq⟩ := reply_rescan e
    rw [heq]
    exact h.idles (idles_reply (clockwork_rescan e) _)
  | notifyInput name user => exact onTime_notifyInput hc h name user
  | notifyLayout => exact onTime_settle h _ _
  | flush =>
    unfold perform
    dsimp only
    split
    · refine Or.inl ⟨h.timed.flush, h.unused, ⟨fun g hg => ?_, h.grounded⟩, fun a ha => ?_⟩
      · cases hg
      · rcases List.mem_cons.mp ha with ha | ha
        · cases ha
        · exact h.still a ha
    · exact h.idles (idles_reply rfl _)
  | advance seconds => exact hclock _ (hop rfl)
  | runTimers => exact hclock _ (hop rfl)
  | runNext => exact hpump _
  | runAll => exact hpump _
  | addField name value scope notify =>
    exact onTime_changeTree hc h (fun tree ht => hc.tree.addField ht) _ _
  | addOutput spec value notify =>
    exact onTime_changeTree hc h (fun tree ht => hc.tree.addOutput ht) _ _
  | removeField name notify => exact onTime_changeTree hc h (fun tree ht => hc.tree.remove ht) _ _
  | setValue name value user =>
    exact onTime_changeTree hc h (fun tree ht => hc.tree.setValue ht) _ _
  | focus name => exact h.idles (idles_reply rfl _)
  | write name text =>
    exact onTime_changeTree hc h (fun tree ht => Except.ok.inj ht ▸ hc.tree.write name text) _ _

/-! ## Courses -/

/-- Changes that were to be handled early are given up, since the handling of one has failed. -/
def givesUp : Running → Bool
  | ⟨_, .own (.clock (.flushing (_ :: _) _)) :: _, .raised _⟩ => true
  | _ => false

theorem OnTime.punctual (h : OnTime c)
    (hring : ∀ a below, c.stack ≠ .own (.clock (.ring a)) :: below) : Punctual c.state c.stack :=
  h.resolve_right fun ⟨_, _, _, hstack, _⟩ => hring _ _ hstack

/-- A frame goes on. -/
theorem onTime_resume {f : Frame} {a : Response} (hc : Sound settings mode e)
    (h : OnTime ⟨e, .own f :: below, .returned a⟩) : OnTime (after below (e.resume f)) := by
  by_cases hf : offClock (.own f) = true
  · have hpunctual : Punctual e (.own f :: below) := h.punctual fun a below' hstack => by
      cases hstack
      cases hf
    exact (hpunctual.pop (flushed_of_offClock hf)).idles (idles_resume hc hf)
  · cases f with
    | clock f =>
      cases f with
      | clock f => exact (h.punctual (by simp)).clock
      | ring alarm =>
        rcases h with h | ⟨key, work, below', hstack, h, huntimed⟩
        · exact absurd List.mem_cons_self (h.still alarm)
        · cases hstack
          exact h.ring huntimed
      | flushing rest total => exact (h.punctual (by simp)).flushing
    | _ => exact absurd rfl hf

/-- A failure passes through a frame behind which nothing is to be handled early. -/
theorem onTime_recover {f : Frame} {err : EngineError}
    (hgives : givesUp ⟨e, .own f :: below, .raised err⟩ = false)
    (h : OnTime ⟨e, .own f :: below, .raised err⟩) : OnTime (after below (e.recover f err)) := by
  have hrest : Punctual e below := by
    rcases h with h | ⟨key, work, below', hstack, h, -⟩
    · refine h.pop ?_
      unfold flushed
      split
      · next rest total heq =>
        cases heq
        cases rest with
        | nil => rfl
        | cons p rest => cases hgives
      · rfl
    · obtain ⟨-, rfl⟩ := List.cons.inj hstack
      exact h
  exact hrest.idles (idles_recover e f err)

theorem onTime_happens {outside inside : Operation → Prop}
    (hinside : ∀ op, inside op → op.passesTime = false) (hc : Sound settings mode c.state)
    (hgives : givesUp c = false) (h : OnTime c) (hstep : Happens outside inside c c') :
    OnTime c' := by
  cases hstep with
  | perform may => exact onTime_perform hc (h.punctual (by simp)) fun _ => rfl
  | resume e f below r =>
    cases r with
    | returned a => exact onTime_resume hc h
    | raised err => exact onTime_recover hgives h
  | reenter may =>
    refine onTime_perform hc (h.punctual (by simp)) fun hpasses => ?_
    rw [hinside _ may] at hpasses
    cases hpasses
  | answer e k below r r' => exact Or.inl ((h.punctual (by simp)).pop rfl)
  | aside beside stack r =>
    obtain ⟨ws, ls, k, ns, writes, rfl⟩ := beside
    rcases h with h | ⟨key, work, below, hstack, h, huntimed⟩
    · exact Or.inl (h.congr rfl)
    · exact Or.inr ⟨key, work, below, hstack, h.congr rfl, huntimed⟩

/-- Each timer belongs to a change that rests. -/
def Timely (e : Engine) : Prop :=
  ∀ t ∈ e.debouncer.timers.live, e.debounces = true ∧
    ∃ p ∈ e.debouncer.pending, p.serial = t.serial

instance : Decidable (Timely e) :=
  inferInstanceAs (Decidable (∀ t ∈ e.debouncer.timers.live, _ ∧ _))

/-- As long as no change that was to be handled early is given up, and time does not pass in the
middle of anything, each timer belongs to a change that rests. -/
theorem timely_of_course {tree : FormTree} (proper : tree.Proper) {debounces : Bool}
    {inside : Operation → Prop}
    (hinside : ∀ op, inside op → op.passesTime = false ∧ op ≠ .detach)
    (h : Course (fun _ => True) inside (givesUp · = false)
      ⟨.create tree settings mode debounces, [], .returned default⟩ ⟨e, [], r⟩) : Timely e := by
  have hcreated : OnTime ⟨.create tree settings mode debounces, [], .returned default⟩ :=
    Or.inl ⟨⟨List.forall_mem_nil _, List.nodup_nil, List.nodup_nil, List.forall_mem_nil _⟩,
      fun _ => rfl, trivial, fun _ => List.not_mem_nil⟩
  have honTime : OnTime ⟨e, [], r⟩ := h.keeps (fun op hop => (hinside op hop).2)
    (fun hr hkind hp hstep _ =>
      onTime_happens (fun op hop => (hinside op hop).1) (steady_of_reachable hr).1 hkind hp hstep)
    (.create proper debounces) rfl hcreated
  intro t ht
  rcases honTime with honTime | ⟨key, work, below, hstack, -⟩
  · refine ⟨?_, ?_⟩
    · by_contra hd
      have hnone := honTime.unused (Bool.not_eq_true _ |>.mp hd)
      rw [hnone] at ht
      cases ht
    · rcases honTime.timed.timers t ht with ⟨p, hp, hserial, -⟩ | ⟨p, hp, -⟩
      · exact ⟨p, hp, hserial⟩
      · cases hp
  · cases hstack

end LiveForm.Engine
