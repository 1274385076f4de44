import LiveForm.Clock.Debouncer
import LiveForm.Proofs.Machine
import Mathlib.Data.List.Basic
import Mathlib.Data.List.Nodup
import Mathlib.Tactic.Common

/-!
# Work that waits is done

Work is scheduled under a key.  It is pending until its timer fires or it is flushed, and then a
frame of the debouncer is about to do it.  So whatever the debouncer does, no work is lost: it is
pending, or some frame is to do it, or the surroundings are asked to.
-/

namespace LiveForm

namespace Timers

variable {π ε : Type}

theorem insert_perm (t : Timer π) (us : List (Timer π)) : (insert t us).Perm (t :: us) := by
  induction us with
  | nil => exact .refl _
  | cons v us ih =>
    rw [insert]
    split
    · exact .refl _
    · exact (ih.cons v).trans (.swap t v us)

theorem mem_insert {t u : Timer π} {us : List (Timer π)} : u ∈ insert t us ↔ u = t ∨ u ∈ us := by
  rw [(insert_perm t us).mem_iff, List.mem_cons]

/-- The timer that fires when a frame goes on. -/
def firing? (ts : Timers π) (f : Frame) : Option (Timer π) :=
  match (ts.resume f : Move π Empty) with
  | .call .. => ts.live.head?
  | .reply .. => none

/-- Either the first timer fires, or none does and time has come to its target. -/
theorem firing_cases (f : Frame) (ts : Timers π) :
    (∃ t rest now f', ts.live = t :: rest ∧ ts.firing? f = some t ∧
      (ts.resume f : Move π ε) = .call { ts with live := rest, now } [.ask t.payload, .own f']) ∨
    ∃ now n, ts.firing? f = none ∧ (ts.resume f : Move π ε) = .ret { ts with now } (.count n) := by
  unfold firing? resume
  cases f with
  | advancing target fired =>
    cases hlive : ts.live with
    | nil => exact Or.inr ⟨target, fired, rfl, rfl⟩
    | cons t rest =>
      by_cases hdue : t.due ≤ target
      · refine Or.inl ⟨t, rest, ts.now.max t.due, .advancing target (fired + 1), rfl, ?_, ?_⟩
        · simp [hdue, fire]
        · simp [hdue, fire]
      · refine Or.inr ⟨target, fired, ?_, ?_⟩
        · simp [hdue, Move.ret]
        · simp [hdue]
  | exhausting fired =>
    cases hlive : ts.live with
    | nil =>
      refine Or.inr ⟨ts.now, fired, rfl, ?_⟩
      simp [← hlive]
    | cons t rest => exact Or.inl ⟨t, rest, _, .exhausting (fired + 1), rfl, rfl, rfl⟩

/-- Either the first timer fires, or time has come to its target. -/
theorem resume_cases (f : Frame) (ts : Timers π) :
    (∃ t rest now f', ts.live = t :: rest ∧
      (ts.resume f : Move π ε) = .call { ts with live := rest, now } [.ask t.payload, .own f']) ∨
    ∃ now n, (ts.resume f : Move π ε) = .ret { ts with now } (.count n) := by
  rcases firing_cases (ε := ε) f ts with ⟨t, rest, now, f', hlive, -, hmove⟩ | ⟨now, n, -, hmove⟩
  · exact Or.inl ⟨t, rest, now, f', hlive, hmove⟩
  · exact Or.inr ⟨now, n, hmove⟩

end Timers

namespace Debouncer

variable {κ ω ε : Type} {P : κ → ω → Prop} {d : Debouncer κ ω} {key : κ} {work : ω}

/-! ## Work and the keys that it belongs to -/

/-- The pending work. -/
def works (d : Debouncer κ ω) : List ω := d.pending.map (·.work)

/-- The work that a frame is to do. -/
def Frame.works : Frame κ ω → List ω
  | .clock _ => []
  | .ring (.keyed _ work) | .ring (.plain work) => [work]
  | .flushing rest _ => rest.map (·.work)

/-- The work that is to be done by a frame, or by the surroundings. -/
def worksOf : Activity (Frame κ ω) ω → List ω
  | .own f => f.works
  | .ask work => [work]

/-- All work belongs to its key. -/
structure Keyed (P : κ → ω → Prop) (d : Debouncer κ ω) : Prop where
  pending : ∀ p ∈ d.pending, P p.key p.work
  alarms : ∀ t ∈ d.timers.live, ∃ key work, t.payload = .keyed key work ∧ P key work

/-- The work that a frame is to do belongs to its key. -/
def Frame.Keyed (P : κ → ω → Prop) : Frame κ ω → Prop
  | .clock _ => True
  | .ring a => ∃ key work, a = .keyed key work ∧ P key work
  | .flushing rest _ => ∀ p ∈ rest, P p.key p.work

/-- A move that does not fail, after which some work is still to be done. -/
inductive Keeps (P : κ → ω → Prop) (before : List ω) : Move κ ω ε → Prop where
  | call {d : Debouncer κ ω} {fs : List (Activity (Frame κ ω) ω)} (keyed : d.Keyed P)
    (frames : ∀ f, Activity.own f ∈ fs → f.Keyed P)
    (asks : ∀ work, Activity.ask work ∈ fs → ∃ key, P key work)
    (kept : ∀ work ∈ before, work ∈ fs.flatMap worksOf ++ d.works) : Keeps P before (.call d fs)
  | reply {d : Debouncer κ ω} (a : Answer) (keyed : d.Keyed P)
    (kept : ∀ work ∈ before, work ∈ d.works) : Keeps P before (.reply d (.returned a))

/-- Timers may be gone that no work waits for. -/
theorem Keyed.withTimers (h : d.Keyed P) {timers : Timers (Alarm κ ω)}
    (hlive : ∀ t ∈ timers.live, t ∈ d.timers.live) : ({ d with timers } : Debouncer κ ω).Keyed P :=
  ⟨h.pending, fun t ht => h.alarms t (hlive t ht)⟩

theorem cancelTimers_sublist (ts : Timers (Alarm κ ω)) (ps : List (PendingWork κ ω)) :
    (cancelTimers ts ps).live.Sublist ts.live ∧
      (cancelTimers ts ps).nextSerial = ts.nextSerial := by
  unfold cancelTimers
  induction ps generalizing ts with
  | nil => exact ⟨.refl _, rfl⟩
  | cons p ps ih =>
    obtain ⟨hlive, hnext⟩ := ih (ts.cancel p.serial)
    exact ⟨hlive.trans List.filter_sublist, hnext⟩

theorem mem_cancelTimers {ps : List (PendingWork κ ω)} {ts : Timers (Alarm κ ω)}
    {t : Timer (Alarm κ ω)} (h : t ∈ (cancelTimers ts ps).live) : t ∈ ts.live :=
  (cancelTimers_sublist ts ps).1.subset h

/-! ## Timers that go on, and flushing -/

/-- The timers may go on. -/
theorem keeps_clock (h : d.Keyed P) (f : Timers.Frame) :
    Keeps P d.works (d.ofTimers (d.timers.resume f) : Move κ ω ε) := by
  rcases Timers.resume_cases (ε := ε) f d.timers with
    ⟨t, rest, now, f', hlive, hmove⟩ | ⟨now, n, hmove⟩
  · rw [hmove]
    obtain ⟨key, work, hpayload, hw⟩ := h.alarms t (hlive ▸ List.mem_cons_self)
    refine .call (h.withTimers fun u hu => ?_) (fun g hg => ?_) (fun w hw => ?_) fun w hw => ?_
    · rw [hlive]
      exact List.mem_cons_of_mem _ hu
    · rcases List.mem_cons.mp hg with hg | hg
      · cases hg
        exact ⟨key, work, hpayload, hw⟩
      · cases List.mem_singleton.mp hg
        trivial
    · rcases List.mem_cons.mp hw with hw | hw
      · cases hw
      · cases List.mem_singleton.mp hw
    · exact List.mem_append_right _ hw
  · rw [hmove]
    exact .reply _ (h.withTimers fun _ ht => ht) fun _ hw => hw

theorem keeps_advance (h : d.Keyed P) (seconds : Binary64) :
    Keeps P d.works (d.advance seconds : Move κ ω ε) := by
  refine .call (h.withTimers fun _ ht => ht) (fun f hf => ?_) (fun w hw => ?_) fun w hw =>
    List.mem_append_right _ hw
  · cases List.mem_singleton.mp hf
    trivial
  · cases List.mem_singleton.mp hw

theorem keeps_runAll (h : d.Keyed P) : Keeps P d.works (d.runAll : Move κ ω ε) := by
  refine .call (h.withTimers fun _ ht => ht) (fun f hf => ?_) (fun w hw => ?_) fun w hw =>
    List.mem_append_right _ hw
  · cases List.mem_singleton.mp hf
    trivial
  · cases List.mem_singleton.mp hw

/-- Flushed work is with the frame that does it. -/
theorem keeps_flush (h : d.Keyed P) : Keeps P d.works (d.flush : Move κ ω ε) := by
  refine .call ⟨fun p hp => absurd hp List.not_mem_nil, h.alarms⟩ (fun f hf => ?_)
    (fun w hw => ?_) fun w hw => ?_
  · cases List.mem_singleton.mp hf
    exact h.pending
  · cases List.mem_singleton.mp hw
  · refine List.mem_append_left _ ?_
    rw [List.flatMap_singleton]
    exact hw

/-- What is pending when a frame went on was pending before. -/
theorem mem_pending_resume [BEq κ] (f : Frame κ ω) :
    ∀ p ∈ (d.resume f : Move κ ω ε).state.pending, p ∈ d.pending := by
  cases f with
  | clock f =>
    show ∀ p ∈ (d.ofTimers (d.timers.resume f) : Move κ ω ε).state.pending, _
    rw [ofTimers, Move.state_embed]
    exact fun _ hp => hp
  | ring a =>
    cases a with
    | keyed key work => exact fun _ hp => List.mem_of_mem_filter hp
    | plain work => exact fun _ hp => hp
  | flushing rest total =>
    cases rest with
    | nil => exact fun _ hp => hp
    | cons p rest => exact fun _ hp => hp

/-! ## Timers and the work that they belong to -/

/-- Each timer was set for a key whose work is pending, or for work that is being flushed. -/
structure Timed (flushed : List (PendingWork κ ω)) (d : Debouncer κ ω) : Prop where
  timers : ∀ t ∈ d.timers.live,
    (∃ p ∈ d.pending, p.serial = t.serial ∧ ∃ work, t.payload = .keyed p.key work) ∨
      ∃ p ∈ flushed, p.serial = t.serial
  keys : (d.pending.map (·.key)).Nodup
  serials : (d.timers.live.map (·.serial)).Nodup
  fresh : ∀ t ∈ d.timers.live, t.serial < d.timers.nextSerial

/-- No timer is left that was set for the pending work of a key. -/
def Untimed (d : Debouncer κ ω) (key : κ) : Prop :=
  ∀ p ∈ d.pending, p.key = key → ∀ t ∈ d.timers.live, t.serial ≠ p.serial

variable {flushed : List (PendingWork κ ω)}

theorem ne_serial_of_mem_cancelTimers {ps : List (PendingWork κ ω)} {ts : Timers (Alarm κ ω)}
    {t : Timer (Alarm κ ω)} (h : t ∈ (cancelTimers ts ps).live) :
    ∀ p ∈ ps, t.serial ≠ p.serial := by
  induction ps generalizing ts with
  | nil => exact List.forall_mem_nil _
  | cons p ps ih =>
    have hcancelled : t ∈ (ts.cancel p.serial).live := mem_cancelTimers h
    intro q hq
    rcases List.mem_cons.mp hq with rfl | hq
    · exact bne_iff_ne.mp (List.mem_filter.mp hcancelled).2
    · exact ih h q hq

theorem Timed.sublist (h : d.Timed flushed) {timers : Timers (Alarm κ ω)}
    (hlive : timers.live.Sublist d.timers.live) (hnext : timers.nextSerial = d.timers.nextSerial) :
    ({ d with timers } : Debouncer κ ω).Timed flushed where
  timers t ht := h.timers t (hlive.subset ht)
  keys := h.keys
  serials := h.serials.sublist (hlive.map _)
  fresh t ht := hnext.symm ▸ h.fresh t (hlive.subset ht)

/-- The work of a key may be forgotten when its timer has fired or was cancelled. -/
theorem Timed.forget [BEq κ] [LawfulBEq κ] (h : d.Timed flushed) (hkey : d.Untimed key) :
    (d.forget key).Timed flushed where
  timers t ht := by
    rcases h.timers t ht with ⟨p, hp, hserial, hpayload⟩ | hflushed
    · refine Or.inl ⟨p, List.mem_filter.mpr ⟨hp, ?_⟩, hserial, hpayload⟩
      rw [Bool.not_eq_true', beq_eq_false_iff_ne]
      exact fun hpkey => hkey p hp hpkey t ht hserial.symm
    · exact Or.inr hflushed
  keys := h.keys.sublist (List.filter_sublist.map _)
  serials := h.serials
  fresh := h.fresh

theorem Timed.schedule [BEq κ] [LawfulBEq κ] (h : d.Timed flushed) (key : κ) (delay : Binary64)
    (work : ω) : (d.schedule key delay work).Timed flushed := by
  have hcancelled : (d.cancel key).2.Timed flushed := by
    obtain ⟨hlive, hnext⟩ := cancelTimers_sublist d.timers (d.pending.filter (·.key == key))
    refine (h.sublist hlive hnext).forget fun p hp hpkey t ht => ?_
    exact ne_serial_of_mem_cancelTimers ht p (List.mem_filter.mpr ⟨hp, beq_iff_eq.mpr hpkey⟩)
  have hnone : ∀ p ∈ (d.cancel key).2.pending, p.key ≠ key := fun p hp => by
    simpa using (List.mem_filter.mp hp).2
  unfold Debouncer.schedule
  generalize (d.cancel key).2 = d' at hcancelled hnone
  refine ⟨fun t ht => ?_, ?_, ?_, fun t ht => ?_⟩
  · rcases Timers.mem_insert.mp ht with rfl | ht
    · exact Or.inl ⟨_, List.mem_append_right _ (List.mem_singleton_self _), rfl, work, rfl⟩
    · rcases hcancelled.timers t ht with ⟨p, hp, hserial, hpayload⟩ | hflushed
      · exact Or.inl ⟨p, List.mem_append_left _ hp, hserial, hpayload⟩
      · exact Or.inr hflushed
  · rw [List.map_append]
    refine List.nodup_append.mpr ⟨hcancelled.keys, List.nodup_singleton _, ?_⟩
    rintro k hk k' hk' rfl
    obtain ⟨p, hp, hpkey⟩ := List.mem_map.mp hk
    exact hnone p hp (hpkey.trans (List.mem_singleton.mp hk'))
  · have hperm := (Timers.insert_perm ⟨d'.timers.now + delay.max 0, d'.timers.nextSerial,
      .keyed key work⟩ d'.timers.live).map (·.serial)
    refine hperm.nodup_iff.mpr (List.nodup_cons.mpr ⟨fun hmem => ?_, hcancelled.serials⟩)
    obtain ⟨t, ht, hserial⟩ := List.mem_map.mp hmem
    exact Nat.ne_of_lt (hcancelled.fresh t ht) hserial
  · rcases Timers.mem_insert.mp ht with rfl | ht
    · exact Nat.lt_succ_self _
    · exact Nat.lt_succ_of_lt (hcancelled.fresh t ht)

theorem Timed.cancelAll (h : d.Timed flushed) : d.cancelAll.Timed flushed := by
  obtain ⟨hlive, hnext⟩ := cancelTimers_sublist d.timers d.pending
  refine ⟨fun t ht => ?_, List.nodup_nil, h.serials.sublist (hlive.map _),
    fun t ht => hnext.symm ▸ h.fresh t (hlive.subset ht)⟩
  rcases h.timers t (hlive.subset ht) with ⟨p, hp, hserial, -⟩ | hflushed
  · exact absurd hserial.symm (ne_serial_of_mem_cancelTimers ht p hp)
  · exact Or.inr hflushed

/-- Pending work that is flushed keeps its timers until its turn. -/
theorem Timed.flush (h : d.Timed flushed) :
    ({ d with pending := [] } : Debouncer κ ω).Timed (d.pending ++ flushed) := by
  refine ⟨fun t ht => Or.inr ?_, List.nodup_nil, h.serials, h.fresh⟩
  rcases h.timers t ht with ⟨p, hp, hserial, -⟩ | ⟨p, hp, hserial⟩
  · exact ⟨p, List.mem_append_left _ hp, hserial⟩
  · exact ⟨p, List.mem_append_right _ hp, hserial⟩

/-- When it has its turn its timer is cancelled. -/
theorem Timed.turn {p : PendingWork κ ω} (h : d.Timed (p :: flushed)) :
    (d.cancelTimer p.serial).Timed flushed := by
  have hcancelled : (d.cancelTimer p.serial).Timed (p :: flushed) :=
    h.sublist List.filter_sublist rfl
  refine ⟨fun t ht => ?_, hcancelled.keys, hcancelled.serials, hcancelled.fresh⟩
  rcases hcancelled.timers t ht with hpending | ⟨q, hq, hserial⟩
  · exact Or.inl hpending
  · refine Or.inr ⟨q, ?_, hserial⟩
    have hne := bne_iff_ne.mp (List.mem_filter.mp ht).2
    exact (List.mem_cons.mp hq).resolve_left fun heq => hne (heq ▸ hserial.symm)

/-- A timer fires for its key, for whose work no timer is left. -/
theorem Timed.fire (h : d.Timed []) {t : Timer (Alarm κ ω)} {rest : List (Timer (Alarm κ ω))}
    (hlive : d.timers.live = t :: rest) (now : Binary64) :
    ({ d with timers := { d.timers with live := rest, now } } : Debouncer κ ω).Timed [] ∧
      ∃ key work, t.payload = .keyed key work ∧
        ({ d with timers := { d.timers with live := rest, now } } : Debouncer κ ω).Untimed key := by
  have hmem : t ∈ d.timers.live := hlive ▸ List.mem_cons_self
  refine ⟨h.sublist (hlive ▸ List.sublist_cons_self t rest) rfl, ?_⟩
  rcases h.timers t hmem with ⟨p, hp, hserial, work, hpayload⟩ | ⟨p, hp, -⟩
  · refine ⟨p.key, work, hpayload, fun q hq hkey u hu heq => ?_⟩
    obtain rfl : q = p := List.inj_on_of_nodup_map h.keys hq hp hkey
    -- Two timers of one name would be the same one
    have hserials := h.serials
    rw [hlive, List.map_cons, List.nodup_cons] at hserials
    exact hserials.1 (List.mem_map.mpr ⟨u, hu, heq.trans hserial⟩)
  · cases hp

/-! ## Scheduling and forgetting -/

variable [BEq κ] [LawfulBEq κ]
  (unique : ∀ key work work', P key work → P key work' → work = work')

include unique

/-- When a key is forgotten nothing is lost but its work. -/
theorem mem_works_forget (h : d.Keyed P) (hw : P key work) {other : ω} (ho : other ∈ d.works) :
    other = work ∨ other ∈ (d.forget key).works := by
  obtain ⟨p, hp, rfl⟩ := List.mem_map.mp ho
  by_cases hkey : (p.key == key) = true
  · refine Or.inl (unique _ _ _ (h.pending p hp) ?_)
    rw [beq_iff_eq.mp hkey]
    exact hw
  · exact Or.inr (List.mem_map_of_mem (List.mem_filter.mpr ⟨hp, by simpa using hkey⟩))

/-- Work that is scheduled takes the place of nothing but itself. -/
theorem Keyed.schedule (h : d.Keyed P) (hw : P key work) (delay : Binary64) :
    (d.schedule key delay work).Keyed P ∧
      ∀ other ∈ work :: d.works, other ∈ (d.schedule key delay work).works := by
  have hworks : (d.schedule key delay work).works = (d.forget key).works ++ [work] := by
    show (_ ++ [_]).map _ = _
    rw [List.map_append]
    rfl
  refine ⟨⟨fun p hp => ?_, fun t ht => ?_⟩, fun other ho => ?_⟩
  · rcases List.mem_append.mp hp with hp | hp
    · exact h.pending p (List.mem_of_mem_filter hp)
    · rw [List.mem_singleton.mp hp]
      exact hw
  · rcases Timers.mem_insert.mp ht with rfl | ht
    · exact ⟨key, work, rfl, hw⟩
    · exact h.alarms t (mem_cancelTimers ht)
  · rw [hworks]
    rcases List.mem_cons.mp ho with rfl | ho
    · exact List.mem_append_right _ List.mem_cons_self
    · rcases mem_works_forget unique h hw ho with rfl | ho
      · exact List.mem_append_right _ List.mem_cons_self
      · exact List.mem_append_left _ ho

/-- Whatever frame goes on, its work and the pending work are still to be done. -/
theorem keeps_resume (h : d.Keyed P) {f : Frame κ ω} (hf : f.Keyed P) :
    Keeps P (f.works ++ d.works) (d.resume f : Move κ ω ε) := by
  cases f with
  | clock f => exact keeps_clock h f
  | ring a =>
    obtain ⟨key, work, rfl, hw⟩ := hf
    refine .call ⟨fun p hp => h.pending p (List.mem_of_mem_filter hp), h.alarms⟩ (fun g hg => ?_)
      (fun w hw' => ?_) fun w hw' => ?_
    · cases List.mem_singleton.mp hg
    · cases List.mem_singleton.mp hw'
      exact ⟨key, hw⟩
    · refine List.mem_append.mpr ?_
      rw [List.flatMap_singleton, worksOf, List.mem_singleton]
      rcases List.mem_append.mp hw' with hw' | hw'
      · exact Or.inl (List.mem_singleton.mp hw')
      · exact mem_works_forget unique h hw hw'
  | flushing rest total =>
    cases rest with
    | nil => exact .reply _ h fun _ hw => hw
    | cons p rest =>
      refine .call (h.withTimers fun _ ht => List.mem_of_mem_filter ht) (fun g hg => ?_)
        (fun w hw => ?_) fun w hw => ?_
      · rcases List.mem_cons.mp hg with hg | hg
        · cases hg
        · cases List.mem_singleton.mp hg
          exact fun q hq => hf q (List.mem_cons_of_mem _ hq)
      · rcases List.mem_cons.mp hw with hw | hw
        · cases hw
          exact ⟨p.key, hf p List.mem_cons_self⟩
        · cases List.mem_singleton.mp hw
      · rw [List.flatMap_cons, List.flatMap_singleton]
        exact hw

end Debouncer

end LiveForm
