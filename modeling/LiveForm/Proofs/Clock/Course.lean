import LiveForm.Proofs.Clock.Debouncer
import Mathlib.Data.List.Perm.Subperm

/-!
# What happens to a debouncer

A debouncer among surroundings that do anything: they schedule and cancel, flush, and let time pass
whenever they are in control, that is from outside and whenever they are asked to do some work, and
the work ends well or with an error.  Timers of their own they may set and cancel too, but they have
no hold on those of the debouncer.

What was scheduled goes by the serial number of its timer.  It *starts* when its timer fires, or
when it was flushed and has its turn; then the surroundings are asked to do it
(`Course.map_work_started`).  Nothing starts but what was due before or was scheduled since
(`Course.mem_due`).
-/

namespace LiveForm

namespace Debouncer

open Machine (after)

variable {κ ω ε : Type}

/-! ## Events -/

/-- A debouncer in the middle of its work. -/
abbrev Running (κ ω ε : Type) :=
  Config (Debouncer κ ω) (Activity (Frame κ ω) ω) Answer ε

/-- Something that is done to a debouncer or to its timers. -/
inductive Operation (κ ω : Type) where
  | schedule (key : κ) (delay : Binary64) (work : ω)
  | cancel (key : κ)
  | cancelAll
  | flush
  | advance (seconds : Binary64)
  | runAll
  | callLater (delay : Binary64) (work : ω)
  | cancelTimer (serial : Nat)

/-- Something that happens to a debouncer. -/
inductive Event (κ ω : Type) where
  | perform (op : Operation κ ω)
  /-- A frame goes on. -/
  | resume (f : Frame κ ω)
  /-- An error passes through a frame. -/
  | unwind (f : Frame κ ω)
  /-- The surroundings have done some work. -/
  | answer (work : ω)

/-- The surroundings are in control: nothing is left to do, or they are being asked. -/
def Free : List (Activity (Frame κ ω) ω) → Prop
  | .own _ :: _ => False
  | _ => True

/-- The surroundings have the means for it: a timer that they cancel is one of theirs. -/
def Allows (d : Debouncer κ ω) : Operation κ ω → Prop
  | .cancelTimer serial => ∀ t ∈ d.timers.live, t.serial = serial → ∃ work, t.payload = .plain work
  | _ => True

/-! ## What is scheduled, and what starts -/

/-- What a timer was set for, if it is one of a key. -/
def keyed? (t : Timer (Alarm κ ω)) : Option (PendingWork κ ω) :=
  match t.payload with
  | .keyed key work => some ⟨key, t.serial, work⟩
  | .plain _ => none

/-- What the live timers were set for that are those of keys. -/
def awaited (ts : Timers (Alarm κ ω)) : List (PendingWork κ ω) := ts.live.filterMap keyed?

/-- The flushed work that has not had its turn. -/
def held (stack : List (Activity (Frame κ ω) ω)) : List (PendingWork κ ω) :=
  stack.flatMap fun
    | .own (.flushing rest _) => rest
    | _ => []

/-- What an event schedules. -/
def scheduledBy : Running κ ω ε × Event κ ω → List (PendingWork κ ω)
  | (c, .perform (.schedule key _ work)) => [⟨key, c.state.timers.nextSerial, work⟩]
  | _ => []

/-- What starts with an event: its timer fires, or it was flushed and has its turn. -/
def startedBy : Running κ ω ε × Event κ ω → List (PendingWork κ ω)
  | (c, .resume (.clock f)) => ((c.state.timers.firing? f).bind keyed?).toList
  | (_, .resume (.flushing (p :: _) _)) => [p]
  | _ => []

/-- The work of keys that the surroundings are asked to do. -/
def askedBy : Event κ ω → List ω
  | .resume (.ring (.keyed _ work)) => [work]
  | .resume (.flushing (p :: _) _) => [p.work]
  | _ => []

/-- What was scheduled in a course. -/
def scheduled (events : List (Running κ ω ε × Event κ ω)) : List (PendingWork κ ω) :=
  events.flatMap scheduledBy

/-- What was started in a course. -/
def started (events : List (Running κ ω ε × Event κ ω)) : List (PendingWork κ ω) :=
  events.flatMap startedBy

/-- The work of keys that the surroundings were asked to do in a course. -/
def asked (events : List (Running κ ω ε × Event κ ω)) : List ω :=
  events.flatMap fun e => askedBy e.2

section

variable (events : List (Running κ ω ε × Event κ ω)) (e : Running κ ω ε × Event κ ω)

@[simp]
theorem scheduled_append : scheduled (events ++ [e]) = scheduled events ++ scheduledBy e := by
  rw [scheduled, List.flatMap_append, List.flatMap_singleton]
  rfl

@[simp]
theorem started_append : started (events ++ [e]) = started events ++ startedBy e := by
  rw [started, List.flatMap_append, List.flatMap_singleton]
  rfl

@[simp]
theorem asked_append : asked (events ++ [e]) = asked events ++ askedBy e.2 := by
  rw [asked, List.flatMap_append, List.flatMap_singleton]
  rfl

end

/-! ## Timers that are set and cancelled -/

section

variable (ts : Timers (Alarm κ ω))

theorem serial_of_keyed? {t : Timer (Alarm κ ω)} {p : PendingWork κ ω} (h : keyed? t = some p) :
    p.serial = t.serial := by
  unfold keyed? at h
  split at h
  · cases h
    rfl
  · cases h

theorem awaited_set (delay : Binary64) (a : Alarm κ ω) :
    (awaited (ts.set delay a).2).Perm
      ((keyed? ⟨ts.now + delay.max 0, ts.nextSerial, a⟩).toList ++ awaited ts) := by
  have hperm := (Timers.insert_perm ⟨ts.now + delay.max 0, ts.nextSerial, a⟩ ts.live).filterMap
    (keyed? : Timer (Alarm κ ω) → Option (PendingWork κ ω))
  rw [List.filterMap_cons] at hperm
  cases hentry : keyed? (⟨ts.now + delay.max 0, ts.nextSerial, a⟩ : Timer (Alarm κ ω)) with
  | none => rwa [hentry] at hperm
  | some p => rwa [hentry] at hperm

theorem awaited_cancel (serial : Nat) :
    awaited (ts.cancel serial) = (awaited ts).filter (·.serial != serial) := by
  rw [awaited, awaited, Timers.cancel, List.filter_filterMap, List.filterMap_filter]
  refine List.filterMap_congr fun t _ => ?_
  cases hentry : keyed? t with
  | none => simp
  | some p => simp [Option.filter, serial_of_keyed? hentry]

theorem awaited_cancelTimers (ps : List (PendingWork κ ω)) :
    awaited (cancelTimers ts ps) =
      (awaited ts).filter fun p => !(ps.map (·.serial)).contains p.serial := by
  unfold cancelTimers
  induction ps generalizing ts with
  | nil => simp
  | cons p ps ih =>
    rw [List.foldl_cons, ih, awaited_cancel, List.filter_filter]
    refine List.filter_congr fun q _ => ?_
    rw [List.map_cons, List.contains_cons, Bool.not_or, Bool.and_comm]
    rfl

end

/-! ## What may start -/

/-- What may start: a timer was set for it, it is pending, or it was flushed. -/
def due (c : Running κ ω ε) : List (PendingWork κ ω) :=
  awaited c.state.timers ++ c.state.pending ++ held c.stack

variable {c₀ c c' : Running κ ω ε} {a : Event κ ω} {events : List (Running κ ω ε × Event κ ω)}
  {d d' : Debouncer κ ω} {stack stack' : List (Activity (Frame κ ω) ω)} {r r' : Reply Answer ε}
  {p : PendingWork κ ω}

theorem mem_due : p ∈ due c ↔
    p ∈ awaited c.state.timers ∨ p ∈ c.state.pending ∨ p ∈ held c.stack := by
  rw [due, List.mem_append, List.mem_append, or_assoc]

theorem due_subset (htimers : awaited d'.timers ⊆ awaited d.timers)
    (hpending : d'.pending ⊆ d.pending) (hheld : held stack' ⊆ held stack) :
    due ⟨d', stack', r'⟩ ⊆ due ⟨d, stack, r⟩ := by
  intro p hp
  rw [mem_due] at hp ⊢
  exact hp.imp (@htimers p) (Or.imp (@hpending p) (@hheld p))

theorem awaited_cancelTimers_subset (ts : Timers (Alarm κ ω)) (ps : List (PendingWork κ ω)) :
    awaited (cancelTimers ts ps) ⊆ awaited ts := by
  rw [awaited_cancelTimers]
  exact List.filter_sublist.subset

theorem awaited_cancel_subset (ts : Timers (Alarm κ ω)) (serial : Nat) :
    awaited (ts.cancel serial) ⊆ awaited ts := by
  rw [awaited_cancel]
  exact List.filter_sublist.subset

theorem awaited_of_live {t : Timer (Alarm κ ω)} {rest : List (Timer (Alarm κ ω))}
    {ts : Timers (Alarm κ ω)} (h : ts.live = t :: rest) :
    awaited ts = (keyed? t).toList ++ rest.filterMap keyed? := by
  rw [awaited, h, List.filterMap_cons]
  cases keyed? t <;> rfl

/-! ## A timer that fires -/

/-- The work of a key whose timer has just fired. -/
def ringing (stack : List (Activity (Frame κ ω) ω)) : List ω :=
  match stack with
  | .own (.ring (.keyed _ work)) :: _ => [work]
  | _ => []

/-- A timer that fires is on top, and its frame goes on at once. -/
structure Prompt (c : Running κ ω ε) : Prop where
  top : ∀ a, .own (.ring a) ∉ c.stack.tail
  reply : ∀ a below, c.stack = .own (.ring a) :: below → ∃ answer, c.reply = .returned answer

/-- Where no timer is firing. -/
theorem prompt_of_silent (h : ∀ a, .own (.ring a) ∉ c.stack) :
    Prompt c ∧ ringing c.stack = [] := by
  refine ⟨⟨fun a ha => h a (List.mem_of_mem_tail ha), fun a below hstack => ?_⟩, ?_⟩
  · exact absurd (hstack ▸ List.mem_cons_self) (h a)
  · unfold ringing
    split
    · next key work below hstack => exact absurd (hstack ▸ List.mem_cons_self) (h (.keyed key work))
    · rfl

theorem silent_append {fs : List (Activity (Frame κ ω) ω)} (hfs : ∀ a, .own (.ring a) ∉ fs)
    (h : ∀ a, .own (.ring a) ∉ stack) (a : Alarm κ ω) : .own (.ring a) ∉ fs ++ stack :=
  fun ha => (List.mem_append.mp ha).elim (hfs a) (h a)

variable [BEq κ]

/-! ## Courses of events -/

/-- Does something to a debouncer. -/
def perform (d : Debouncer κ ω) : Operation κ ω → Move κ ω ε
  | .schedule key delay work => .ret (d.schedule key delay work) .done
  | .cancel key => .ret (d.cancel key).2 (.flag (d.cancel key).1)
  | .cancelAll => .ret d.cancelAll .done
  | .flush => d.flush
  | .advance seconds => d.advance seconds
  | .runAll => d.runAll
  | .callLater delay work => .ret (d.callLater delay work).2 .done
  | .cancelTimer serial => .ret (d.cancelTimer serial) .done

/-- One event: the surroundings do something or have done some work, or a frame of the debouncer
goes on. -/
inductive Happens : Running κ ω ε → Event κ ω → Running κ ω ε → Prop where
  | perform {d : Debouncer κ ω} {stack : List (Activity (Frame κ ω) ω)} {r : Reply Answer ε}
    (op : Operation κ ω) (free : Free stack) (allowed : d.Allows op) :
    Happens ⟨d, stack, r⟩ (.perform op) (after stack (d.perform op))
  | resume (d : Debouncer κ ω) (f : Frame κ ω) (below : List (Activity (Frame κ ω) ω))
    (a : Answer) : Happens ⟨d, .own f :: below, .returned a⟩ (.resume f) (after below (d.resume f))
  | unwind (d : Debouncer κ ω) (f : Frame κ ω) (below : List (Activity (Frame κ ω) ω)) (err : ε) :
    Happens ⟨d, .own f :: below, .raised err⟩ (.unwind f) ⟨d, below, .raised err⟩
  | answer (d : Debouncer κ ω) (work : ω) (below : List (Activity (Frame κ ω) ω))
    (r r' : Reply Answer ε) : Happens ⟨d, .ask work :: below, r⟩ (.answer work) ⟨d, below, r'⟩

/-- Any number of events, each with the debouncer in the middle of whose work it happened. -/
inductive Course (c₀ : Running κ ω ε) :
    List (Running κ ω ε × Event κ ω) → Running κ ω ε → Prop where
  | refl : Course c₀ [] c₀
  | tail {events : List (Running κ ω ε × Event κ ω)} {c c' : Running κ ω ε} {a : Event κ ω}
    (h : Course c₀ events c) (step : Happens c a c') : Course c₀ (events ++ [(c, a)]) c'

/-! ## Work that is scheduled -/

section

variable (d : Debouncer κ ω) (key : κ) (delay : Binary64) (work : ω)

theorem nextSerial_cancel : (d.cancel key).2.timers.nextSerial = d.timers.nextSerial :=
  (cancelTimers_sublist d.timers _).2

theorem pending_schedule : (d.schedule key delay work).pending =
    (d.cancel key).2.pending ++ [⟨key, d.timers.nextSerial, work⟩] := by
  rw [← nextSerial_cancel d key]
  rfl

/-- A timer is set for new work when the earlier one is cancelled. -/
theorem awaited_schedule : (awaited (d.schedule key delay work).timers).Perm
    (⟨key, d.timers.nextSerial, work⟩ :: awaited (d.cancel key).2.timers) := by
  rw [← nextSerial_cancel d key]
  exact awaited_set (d.cancel key).2.timers delay (.keyed key work)

end

/-! ## Nothing starts that is not due -/

theorem due_cancel (d : Debouncer κ ω) (key : κ) :
    due ⟨(d.cancel key).2, stack, r'⟩ ⊆ due ⟨d, stack, r⟩ :=
  due_subset (awaited_cancelTimers_subset _ _) List.filter_sublist.subset (List.Subset.refl _)

theorem mem_due_schedule {key : κ} {delay : Binary64} {work : ω}
    (hp : p ∈ due ⟨d.schedule key delay work, stack, r⟩) :
    p = ⟨key, d.timers.nextSerial, work⟩ ∨ p ∈ due ⟨(d.cancel key).2, stack, r⟩ := by
  rw [mem_due]
  rcases mem_due.mp hp with hp | hp | hp
  · exact (List.mem_cons.mp ((awaited_schedule d key delay work).subset hp)).imp_right Or.inl
  · rw [show (⟨d.schedule key delay work, stack, r⟩ : Running κ ω ε).state.pending = _ from
      pending_schedule d key delay work, List.mem_append, List.mem_singleton] at hp
    exact hp.symm.imp_right fun hp => Or.inr (Or.inl hp)
  · exact Or.inr (Or.inr (Or.inr hp))

/-- An operation makes nothing due but what it schedules. -/
theorem due_perform {op : Operation κ ω}
    (hp : p ∈ due (after stack (d.perform op : Move κ ω ε))) :
    p ∈ due ⟨d, stack, r⟩ ∨ p ∈ scheduledBy (⟨d, stack, r⟩, .perform op) := by
  cases op with
  | schedule key delay work =>
    rcases mem_due_schedule hp with rfl | hp
    · exact Or.inr (List.mem_singleton_self _)
    · exact Or.inl (due_cancel d key hp)
  | cancel key => exact Or.inl (due_cancel d key hp)
  | cancelAll =>
    exact Or.inl (due_subset (awaited_cancelTimers_subset _ _) (List.nil_subset _)
      (List.Subset.refl _) hp)
  | flush =>
    refine Or.inl (mem_due.mpr ?_)
    rcases mem_due.mp hp with hp | hp | hp
    · exact Or.inl hp
    · cases hp
    · exact Or.inr (List.mem_append.mp hp)
  | advance seconds | runAll => exact Or.inl hp
  | callLater delay work =>
    have hset : due ⟨(d.callLater delay work).2, stack, .returned .done⟩ ⊆ due ⟨d, stack, r⟩ :=
      due_subset (awaited_set d.timers delay (.plain work)).subset (List.Subset.refl _)
        (List.Subset.refl _)
    exact Or.inl (hset hp)
  | cancelTimer serial =>
    have hcancelled : due ⟨d.cancelTimer serial, stack, .returned .done⟩ ⊆ due ⟨d, stack, r⟩ :=
      due_subset (awaited_cancel_subset _ _) (List.Subset.refl _) (List.Subset.refl _)
    exact Or.inl (hcancelled hp)

/-- When timers go on, the first one fires, or time has come to its target. -/
theorem clock_cases (d : Debouncer κ ω) (stack : List (Activity (Frame κ ω) ω))
    (r : Reply Answer ε) (f : Timers.Frame) :
    (∃ t rest now f', d.timers.live = t :: rest ∧
      startedBy (⟨d, .own (.clock f) :: stack, r⟩, .resume (.clock f)) = (keyed? t).toList ∧
      after stack (d.resume (.clock f) : Move κ ω ε) =
        ⟨{ d with timers := { d.timers with live := rest, now } },
          .own (.ring t.payload) :: .own (.clock f') :: stack, .returned default⟩) ∨
    ∃ now n, startedBy (⟨d, .own (.clock f) :: stack, r⟩, .resume (.clock f)) = [] ∧
      after stack (d.resume (.clock f) : Move κ ω ε) =
        ⟨{ d with timers := { d.timers with now } }, stack, .returned (.count n)⟩ := by
  have hafter : after stack (d.resume (.clock f) : Move κ ω ε) =
      after stack (d.ofTimers (d.timers.resume f)) := rfl
  rw [hafter, startedBy]
  rcases Timers.firing_cases (ε := ε) f d.timers with
    ⟨t, rest, now, f', hlive, hfiring, hmove⟩ | ⟨now, n, hfiring, hmove⟩
  · exact Or.inl ⟨t, rest, now, f', hlive, by rw [hfiring]; rfl, by rw [hmove]; rfl⟩
  · exact Or.inr ⟨now, n, by rw [hfiring]; rfl, by rw [hmove]; rfl⟩

/-- What starts with a frame was due, and so was what is due afterwards. -/
theorem due_resume {f : Frame κ ω} (hp : p ∈ startedBy (⟨d, .own f :: stack, r⟩, .resume f) ∨
    p ∈ due (after stack (d.resume f : Move κ ω ε))) : p ∈ due ⟨d, .own f :: stack, r⟩ := by
  cases f with
  | clock f =>
    rcases clock_cases d stack r f with
      ⟨t, rest, now, f', hlive, hstarted, hafter⟩ | ⟨now, n, hstarted, hafter⟩
    · have hfired : awaited d.timers = (keyed? t).toList ++ rest.filterMap keyed? :=
        awaited_of_live hlive
      rw [hstarted, hafter, mem_due] at hp
      rw [mem_due, hfired, List.mem_append, or_assoc]
      exact hp
    · rw [hstarted, hafter] at hp
      exact hp.resolve_left List.not_mem_nil
  | ring alarm =>
    cases alarm with
    | keyed key work =>
      have hforgotten : due ⟨d.forget key, .ask work :: stack, .returned default⟩ ⊆
          due ⟨d, .own (.ring (.keyed key work)) :: stack, r⟩ :=
        due_subset (List.Subset.refl _) List.filter_sublist.subset (List.Subset.refl _)
      exact hforgotten (hp.resolve_left List.not_mem_nil)
    | plain work => exact hp.resolve_left List.not_mem_nil
  | flushing rest total =>
    cases rest with
    | nil => exact hp.resolve_left List.not_mem_nil
    | cons q rest =>
      have hturn : due ⟨d.cancelTimer q.serial, .ask q.work :: .own (.flushing rest total) :: stack,
          .returned default⟩ ⊆ due ⟨d, .own (.flushing (q :: rest) total) :: stack, r⟩ :=
        due_subset (awaited_cancel_subset _ _) (List.Subset.refl _) (List.subset_cons_self _ _)
      rcases hp with hp | hp
      · obtain rfl : p = q := List.mem_singleton.mp hp
        exact mem_due.mpr (Or.inr (Or.inr List.mem_cons_self))
      · exact hturn hp

/-- What starts with an event was due or is scheduled by it, and so is what is due afterwards. -/
theorem Happens.mem_due (h : Happens c a c') (hp : p ∈ startedBy (c, a) ∨ p ∈ due c') :
    p ∈ due c ∨ p ∈ scheduledBy (c, a) := by
  cases h with
  | perform op free allowed => exact due_perform (hp.resolve_left List.not_mem_nil)
  | resume d f below answer => exact Or.inl (due_resume hp)
  | unwind d f below err =>
    have hpopped : held below ⊆ held (.own f :: below) := List.subset_append_right _ _
    exact Or.inl (due_subset (List.Subset.refl _) (List.Subset.refl _) hpopped
      (hp.resolve_left List.not_mem_nil))
  | answer d work below r r' => exact Or.inl (hp.resolve_left List.not_mem_nil)

/-- What starts in a course was due in the beginning or is scheduled in it. -/
theorem Course.mem_due (h : Course c₀ events c) (hp : p ∈ started events ∨ p ∈ due c) :
    p ∈ due c₀ ∨ p ∈ scheduled events := by
  induction h with
  | refl => exact Or.inl (hp.resolve_left List.not_mem_nil)
  | @tail events c c' a h step ih =>
    rw [started_append, List.mem_append, or_assoc] at hp
    rw [scheduled_append, List.mem_append, ← or_assoc]
    rcases hp with hp | hp
    · exact Or.inl (ih (Or.inl hp))
    · exact (step.mem_due hp).imp_left fun hdue => ih (Or.inr hdue)

/-! ## Serial numbers -/

/-- An event takes the next serial number for what it schedules. -/
theorem Happens.nextSerial (h : Happens c a c') :
    c.state.timers.nextSerial ≤ c'.state.timers.nextSerial ∧
      ∀ p ∈ scheduledBy (c, a), p.serial = c.state.timers.nextSerial ∧
        c.state.timers.nextSerial < c'.state.timers.nextSerial := by
  have hkept : scheduledBy (c, a) = [] →
      c'.state.timers.nextSerial = c.state.timers.nextSerial →
      c.state.timers.nextSerial ≤ c'.state.timers.nextSerial ∧
        ∀ p ∈ scheduledBy (c, a), p.serial = c.state.timers.nextSerial ∧
          c.state.timers.nextSerial < c'.state.timers.nextSerial := by
    intro hnone hsame
    rw [hnone]
    exact ⟨Nat.le_of_eq hsame.symm, List.forall_mem_nil _⟩
  cases h with
  | @perform d stack r op free allowed =>
    cases op with
    | schedule key delay work =>
      have hnext : (d.schedule key delay work).timers.nextSerial = d.timers.nextSerial + 1 :=
        congrArg (· + 1) (nextSerial_cancel d key)
      have hlt : d.timers.nextSerial < (d.schedule key delay work).timers.nextSerial :=
        hnext ▸ Nat.lt_succ_self _
      refine ⟨Nat.le_of_lt hlt, fun p hp => ?_⟩
      rw [List.mem_singleton.mp hp]
      exact ⟨rfl, hlt⟩
    | cancel key => exact hkept rfl (nextSerial_cancel d key)
    | cancelAll => exact hkept rfl (cancelTimers_sublist d.timers d.pending).2
    | callLater delay work => exact ⟨Nat.le_succ _, List.forall_mem_nil _⟩
    | flush | advance seconds | runAll | cancelTimer serial => exact hkept rfl rfl
  | resume d f below answer =>
    refine hkept rfl ?_
    cases f with
    | clock f =>
      rcases clock_cases d below (.returned answer) f with ⟨t, rest, now, f', -, -, hafter⟩ |
        ⟨now, n, -, hafter⟩ <;> rw [hafter]
    | ring alarm => cases alarm <;> rfl
    | flushing rest total => cases rest <;> rfl
  | unwind d f below err => exact hkept rfl rfl
  | answer d work below r r' => exact hkept rfl rfl

/-- What is scheduled in a course has serial numbers of its own. -/
theorem Course.serials (h : Course c₀ events c) :
    c₀.state.timers.nextSerial ≤ c.state.timers.nextSerial ∧
    (∀ p ∈ scheduled events, c₀.state.timers.nextSerial ≤ p.serial ∧
      p.serial < c.state.timers.nextSerial) ∧
    ((scheduled events).map (·.serial)).Nodup := by
  induction h with
  | refl => exact ⟨Nat.le_refl _, List.forall_mem_nil _, List.nodup_nil⟩
  | @tail events c c' a h step ih =>
    obtain ⟨hle, hrange, hnodup⟩ := ih
    obtain ⟨hnext, hscheduled⟩ := step.nextSerial
    rw [scheduled_append]
    refine ⟨Nat.le_trans hle hnext, fun p hp => ?_, ?_⟩
    · rcases List.mem_append.mp hp with hp | hp
      · exact ⟨(hrange p hp).1, Nat.lt_of_lt_of_le (hrange p hp).2 hnext⟩
      · obtain ⟨hserial, hlt⟩ := hscheduled p hp
        exact ⟨hserial ▸ hle, hserial ▸ hlt⟩
    · have hone : ((scheduledBy (c, a)).map (·.serial)).Nodup := by
        unfold scheduledBy
        split
        · exact List.nodup_singleton _
        · exact List.nodup_nil
      rw [List.map_append]
      refine List.nodup_append.mpr ⟨hnodup, hone, fun s hs s' hs' heq => ?_⟩
      obtain ⟨p, hp, rfl⟩ := List.mem_map.mp hs
      obtain ⟨q, hq, rfl⟩ := List.mem_map.mp hs'
      have hlt := (hrange p hp).2
      have hserial := (hscheduled q hq).1
      omega

/-! ## What is pending and what was flushed -/

/-- What is pending or was flushed is what was so before, and what is scheduled. -/
theorem Happens.subperm (h : Happens c a c') :
    (c'.state.pending ++ held c'.stack).Subperm
      (c.state.pending ++ held c.stack ++ scheduledBy (c, a)) := by
  have hsublist : ∀ {l : List (PendingWork κ ω)}, l.Sublist (c.state.pending ++ held c.stack) →
      l.Subperm (c.state.pending ++ held c.stack ++ scheduledBy (c, a)) := fun hl =>
    (hl.trans (List.sublist_append_left _ _)).subperm
  cases h with
  | @perform d stack r op free allowed =>
    cases op with
    | schedule key delay work =>
      have hmoved : ((d.schedule key delay work).pending ++ held stack).Perm
          ((d.cancel key).2.pending ++ held stack ++ [⟨key, d.timers.nextSerial, work⟩]) := by
        rw [pending_schedule, List.append_assoc, List.append_assoc]
        exact List.perm_append_comm.append_left _
      exact hmoved.subperm.trans
        ((List.filter_sublist.append_right (held stack)).append_right _).subperm
    | cancel key => exact hsublist (List.filter_sublist.append_right _)
    | cancelAll => exact hsublist ((List.nil_sublist _).append_right _)
    | flush | advance seconds | runAll | callLater delay work | cancelTimer serial =>
      exact hsublist (List.Sublist.refl _)
  | resume d f below answer =>
    cases f with
    | clock f =>
      rcases clock_cases d below (.returned answer) f with ⟨t, rest, now, f', -, -, hafter⟩ |
        ⟨now, n, -, hafter⟩
      · rw [hafter]
        exact hsublist (List.Sublist.refl _)
      · rw [hafter]
        exact hsublist (List.Sublist.refl _)
    | ring alarm =>
      cases alarm with
      | keyed key work => exact hsublist (List.filter_sublist.append_right _)
      | plain work => exact hsublist (List.Sublist.refl _)
    | flushing rest total =>
      cases rest with
      | nil => exact hsublist (List.Sublist.refl _)
      | cons p rest => exact hsublist ((List.sublist_cons_self p _).append_left _)
  | unwind d f below err =>
    exact hsublist ((List.sublist_append_right _ _).append_left _)
  | answer d work below r r' => exact hsublist (List.Sublist.refl _)

theorem Course.subperm (h : Course c₀ events c) :
    (c.state.pending ++ held c.stack).Subperm
      (c₀.state.pending ++ held c₀.stack ++ scheduled events) := by
  induction h with
  | refl => exact (List.sublist_append_left _ _).subperm
  | @tail events c c' a h step ih =>
    rw [scheduled_append, ← List.append_assoc]
    exact step.subperm.trans ((List.subperm_append_right _).mpr ih)

/-! ## What starts is done -/

/-- An operation fires no timer. -/
theorem silent_perform (h : ∀ a, .own (.ring a) ∉ stack) (op : Operation κ ω) :
    ∀ a, .own (.ring a) ∉ (after stack (d.perform op : Move κ ω ε)).stack := by
  cases op with
  | flush | advance seconds | runAll => exact silent_append (by simp [Activity.elim]) h
  | schedule key delay work | cancel key | cancelAll | callLater delay work
  | cancelTimer serial => exact h

/-- An event asks for what has started, up to a timer that has just fired. -/
theorem Happens.asks (h : Happens c a c') (hc : Prompt c) : Prompt c' ∧
    ringing c.stack ++ (startedBy (c, a)).map (·.work) = askedBy a ++ ringing c'.stack := by
  have hbelow : ∀ {f : Activity (Frame κ ω) ω} {below : List (Activity (Frame κ ω) ω)},
      c.stack = f :: below → ∀ a, .own (.ring a) ∉ below := fun hstack a ha =>
    hc.top a (hstack ▸ ha)
  have hasked : ∀ {c' : Running κ ω ε}, (∀ a, .own (.ring a) ∉ c'.stack) →
      ringing c.stack ++ (startedBy (c, a)).map (·.work) = askedBy a → Prompt c' ∧
      ringing c.stack ++ (startedBy (c, a)).map (·.work) = askedBy a ++ ringing c'.stack := by
    intro c' hsilent heq
    obtain ⟨hprompt, hquiet⟩ := prompt_of_silent hsilent
    exact ⟨hprompt, by rw [hquiet, List.append_nil, heq]⟩
  cases h with
  | @perform d stack r op free allowed =>
    have hsilent : ∀ a, .own (.ring a) ∉ stack := by
      intro a ha
      cases stack with
      | nil => cases ha
      | cons f below =>
        rcases List.mem_cons.mp ha with rfl | ha
        · exact free
        · exact hc.top a ha
    refine hasked (silent_perform hsilent op) ?_
    rw [(prompt_of_silent (c := ⟨d, stack, r⟩) hsilent).2]
    rfl
  | resume d f below answer =>
    cases f with
    | clock f =>
      rcases clock_cases d below (.returned answer) f with
        ⟨t, rest, now, f', -, hstarted, hafter⟩ | ⟨now, n, hstarted, hafter⟩
      · rw [hstarted, hafter]
        refine ⟨⟨fun a ha => ?_, fun a below' hstack => ⟨default, rfl⟩⟩, ?_⟩
        · rcases List.mem_cons.mp ha with ha | ha
          · cases ha
          · exact hbelow rfl a ha
        · unfold keyed? ringing askedBy
          cases t.payload <;> rfl
      · refine hasked (fun a ha => ?_) ?_
        · rw [hafter] at ha
          exact hbelow rfl a ha
        · rw [hstarted]
          rfl
    | ring alarm =>
      cases alarm with
      | keyed key work => exact hasked (silent_append (by simp) (hbelow rfl)) rfl
      | plain work => exact hasked (silent_append (by simp) (hbelow rfl)) rfl
    | flushing rest total =>
      cases rest with
      | nil => exact hasked (hbelow rfl) rfl
      | cons p rest => exact hasked (silent_append (by simp) (hbelow rfl)) rfl
  | unwind d f below err =>
    refine hasked (hbelow rfl) ?_
    cases f with
    | ring alarm =>
      obtain ⟨answer, hreply⟩ := hc.reply alarm below rfl
      cases hreply
    | clock f | flushing rest total => rfl
  | answer d work below r r' => exact hasked (hbelow rfl) rfl

/-- What starts in a course the surroundings are asked to do, in this order. -/
theorem Course.map_work_started (h : Course c₀ events c) (hc₀ : Prompt c₀)
    (hquiet : ringing c₀.stack = []) : Prompt c ∧
    (started events).map (·.work) = asked events ++ ringing c.stack := by
  induction h with
  | refl => exact ⟨hc₀, hquiet.symm⟩
  | @tail events c c' a h step ih =>
    obtain ⟨hc, hasked⟩ := ih
    obtain ⟨hc', hstep⟩ := step.asks hc
    refine ⟨hc', ?_⟩
    rw [started_append, List.map_append, hasked, asked_append, List.append_assoc, hstep,
      List.append_assoc]

end Debouncer

end LiveForm
