import LiveForm.Proofs.Clock.Course

/-!
# The table and the timers

A timer that fires strikes its key from the table, whatever is there by then, and flushing takes all
out of the table before it cancels the first timer.  Still the two stay in step: where time passes
only when nothing else is going on and no work fails, the live timers of keys are those of what is
pending and of what was flushed and has not had its turn (`Happens.inStep`).  So between operations
the table mirrors the timers, and nothing that was scheduled has started twice.
-/

namespace LiveForm.Debouncer

open Machine (after)
open scoped List

variable {κ ω ε : Type}

/-- Time passes only where nothing else is going on, and no error passes through a frame. -/
def Gentle : Running κ ω ε × Event κ ω → Prop
  | (c, .perform (.advance _)) | (c, .perform .runAll) => c.stack = []
  | (_, .unwind _) => False
  | _ => True

/-! ## The table and the timers mirror each other -/

/-- The live timers of keys, and those that have just fired, are those of the pending work and of
flushed work. -/
structure Mirrored (fired flushed : List (PendingWork κ ω)) (d : Debouncer κ ω) : Prop where
  entries : (fired ++ awaited d.timers).Perm (d.pending ++ flushed)
  keys : (d.pending.map (·.key)).Nodup
  serials : (d.timers.live.map (·.serial)).Nodup
  fresh : ∀ t ∈ d.timers.live, t.serial < d.timers.nextSerial

/-- Those of a list that are not among some of its members, by a feature that tells them apart. -/
theorem filter_perm_of_nodup {α β : Type} {f : α → β} {q : α → Bool} {l gone rest : List α}
    (h : l.Perm (gone ++ rest)) (hf : (l.map f).Nodup)
    (hq : ∀ a, q a = true ↔ f a ∉ gone.map f) : (l.filter q).Perm rest := by
  have hnodup : (gone.map f ++ rest.map f).Nodup := by
    rw [← List.map_append]
    exact (h.map f).nodup hf
  obtain ⟨-, -, hdisjoint⟩ := List.nodup_append.mp hnodup
  have hgone : gone.filter q = [] := by
    refine List.filter_eq_nil_iff.mpr fun a ha hqa => ?_
    exact (hq a).mp hqa (List.mem_map_of_mem ha)
  have hrest : rest.filter q = rest := by
    refine List.filter_eq_self.mpr fun a ha => (hq a).mpr fun hmem => ?_
    exact hdisjoint _ hmem _ (List.mem_map_of_mem ha) rfl
  have hfilter := h.filter q
  rwa [List.filter_append, hgone, hrest, List.nil_append] at hfilter

theorem nodup_serials_awaited {ts : Timers (Alarm κ ω)} (h : (ts.live.map (·.serial)).Nodup) :
    ((awaited ts).map (·.serial)).Nodup := by
  rw [List.Nodup, List.pairwise_map] at h ⊢
  refine List.pairwise_filterMap.mpr (h.imp fun hne p hp q hq => ?_)
  rw [serial_of_keyed? hp, serial_of_keyed? hq]
  exact hne

namespace Mirrored

variable {flushed flushed' gone pending : List (PendingWork κ ω)} {d : Debouncer κ ω}

/-- Work is dropped together with its timers. -/
theorem drop (h : d.Mirrored [] flushed)
    (hperm : (d.pending ++ flushed).Perm (gone ++ (pending ++ flushed')))
    (hsub : pending.Sublist d.pending) :
    Mirrored [] flushed' ⟨cancelTimers d.timers gone, pending⟩ := by
  obtain ⟨hlive, hnext⟩ := cancelTimers_sublist d.timers gone
  refine ⟨?_, h.keys.sublist (hsub.map _), h.serials.sublist (hlive.map _),
    fun t ht => hnext.symm ▸ h.fresh t (hlive.subset ht)⟩
  rw [List.nil_append, awaited_cancelTimers]
  exact filter_perm_of_nodup (h.entries.trans hperm) (nodup_serials_awaited h.serials) (by simp)

/-- A timer is set, and if it is one of a key its work is pending. -/
theorem set (h : d.Mirrored [] flushed) {delay : Binary64} {a : Alarm κ ω}
    {new : Option (PendingWork κ ω)}
    (hnew : keyed? ⟨d.timers.now + delay.max 0, d.timers.nextSerial, a⟩ = new)
    (hpending : pending = d.pending ++ new.toList) (hkeys : (pending.map (·.key)).Nodup) :
    Mirrored [] flushed ⟨(d.timers.set delay a).2, pending⟩ := by
  have hset := awaited_set d.timers delay a
  rw [hnew] at hset
  refine ⟨?_, hkeys, ?_, fun t ht => ?_⟩
  · calc awaited (d.timers.set delay a).2
      _ ~ new.toList ++ awaited d.timers := hset
      _ ~ new.toList ++ (d.pending ++ flushed) := h.entries.append_left _
      _ = new.toList ++ d.pending ++ flushed := (List.append_assoc ..).symm
      _ ~ d.pending ++ new.toList ++ flushed := List.perm_append_comm.append_right flushed
      _ = pending ++ flushed := by rw [hpending]
  · have hperm := (Timers.insert_perm ⟨d.timers.now + delay.max 0, d.timers.nextSerial, a⟩
      d.timers.live).map (·.serial)
    refine hperm.nodup_iff.mpr (List.nodup_cons.mpr ⟨fun hmem => ?_, h.serials⟩)
    obtain ⟨t, ht, hserial⟩ := List.mem_map.mp hmem
    exact Nat.ne_of_lt (h.fresh t ht) hserial
  · rcases Timers.mem_insert.mp ht with rfl | ht
    · exact Nat.lt_succ_self _
    · exact Nat.lt_succ_of_lt (h.fresh t ht)

/-- Flushed work keeps its timers until its turn. -/
theorem flush (h : d.Mirrored [] flushed) :
    Mirrored [] (d.pending ++ flushed) { d with pending := [] } :=
  ⟨h.entries, List.nodup_nil, h.serials, h.fresh⟩

/-- When it has its turn its timer is cancelled. -/
theorem turn {p : PendingWork κ ω} (h : d.Mirrored [] (p :: flushed)) :
    (d.cancelTimer p.serial).Mirrored [] flushed := by
  show Mirrored [] flushed ⟨cancelTimers d.timers [p], d.pending⟩
  exact h.drop List.perm_middle (List.Sublist.refl _)

/-- A timer fires. -/
theorem fire (h : d.Mirrored [] []) {t : Timer (Alarm κ ω)} {rest : List (Timer (Alarm κ ω))}
    (hlive : d.timers.live = t :: rest) (now : Binary64) :
    Mirrored (keyed? t).toList [] { d with timers := { d.timers with live := rest, now } } where
  entries := by
    have hentries := h.entries
    rwa [List.nil_append, awaited_of_live hlive] at hentries
  keys := h.keys
  serials := by
    have hserials := h.serials
    rw [hlive, List.map_cons] at hserials
    exact hserials.of_cons
  fresh u hu := h.fresh u (hlive ▸ List.mem_cons_of_mem t hu)

/-- The work of the timer that has fired is forgotten, since no other is pending under its key. -/
theorem ring [BEq κ] [LawfulBEq κ] {p : PendingWork κ ω} (h : d.Mirrored [p] []) :
    (d.forget p.key).Mirrored [] [] := by
  refine ⟨?_, h.keys.sublist (List.filter_sublist.map _), h.serials, h.fresh⟩
  have hentries := h.entries
  rw [List.append_nil] at hentries ⊢
  exact (filter_perm_of_nodup hentries.symm h.keys (by simp)).symm

theorem cancelAll (h : d.Mirrored [] flushed) : d.cancelAll.Mirrored [] flushed :=
  h.drop (List.Perm.refl _) (List.nil_sublist _)

theorem cancel [BEq κ] (h : d.Mirrored [] flushed) (key : κ) :
    (d.cancel key).2.Mirrored [] flushed := by
  refine h.drop ?_ List.filter_sublist
  rw [← List.append_assoc]
  exact (List.filter_append_perm (·.key == key) d.pending).symm.append_right flushed

/-- The earlier work of the key makes room for the new one. -/
theorem schedule [BEq κ] [LawfulBEq κ] (h : d.Mirrored [] flushed) (key : κ) (delay : Binary64)
    (work : ω) : (d.schedule key delay work).Mirrored [] flushed := by
  have hcancelled : (d.cancel key).2.Mirrored [] flushed := h.cancel key
  refine hcancelled.set rfl rfl ?_
  rw [List.map_append]
  refine List.nodup_append.mpr ⟨hcancelled.keys, List.nodup_singleton _, ?_⟩
  rintro k hk k' hk' rfl
  obtain ⟨p, hp, hpkey⟩ := List.mem_map.mp hk
  have hne : p.key ≠ key := by simpa using (List.mem_filter.mp hp).2
  exact hne (hpkey.trans (List.mem_singleton.mp hk'))

theorem callLater (h : d.Mirrored [] flushed) (delay : Binary64) (work : ω) :
    (d.callLater delay work).2.Mirrored [] flushed :=
  h.set rfl (List.append_nil _).symm h.keys

/-- A timer may be cancelled that is none of a key. -/
theorem cancelTimer {serial : Nat} (h : d.Mirrored [] flushed)
    (allowed : d.Allows (.cancelTimer serial)) : (d.cancelTimer serial).Mirrored [] flushed := by
  have hsame : awaited (d.timers.cancel serial) = awaited d.timers := by
    rw [awaited_cancel, List.filter_eq_self]
    intro p hp
    obtain ⟨t, ht, hentry⟩ := List.mem_filterMap.mp hp
    rw [bne_iff_ne, serial_of_keyed? hentry]
    intro hserial
    obtain ⟨work, hplain⟩ := allowed t ht hserial
    rw [keyed?, hplain] at hentry
    cases hentry
  refine ⟨?_, h.keys, h.serials.sublist (List.filter_sublist.map _),
    fun t ht => h.fresh t (List.mem_of_mem_filter ht)⟩
  show ([] ++ awaited (d.timers.cancel serial)).Perm _
  rw [hsame]
  exact h.entries

end Mirrored

/-! ## What each event keeps -/

/-- Timers go on only below everything else, and none is firing. -/
def Grounded : List (Activity (Frame κ ω) ω) → Prop
  | [] => True
  | .own (.clock _) :: below => below = []
  | .own (.ring _) :: _ => False
  | .own (.flushing _ _) :: below | .ask _ :: below => Grounded below

/-- The table and the timers are in step.  When a timer has just fired its work is still in the
table, and nothing is being flushed. -/
inductive InStep : Running κ ω ε → Prop where
  | settled {d : Debouncer κ ω} {stack : List (Activity (Frame κ ω) ω)} {r : Reply Answer ε}
    (mirrored : d.Mirrored [] (held stack)) (grounded : Grounded stack) : InStep ⟨d, stack, r⟩
  | firing {d : Debouncer κ ω} {t : Timer (Alarm κ ω)} {f : Timers.Frame} {r : Reply Answer ε}
    (mirrored : d.Mirrored (keyed? t).toList []) :
    InStep ⟨d, [.own (.ring t.payload), .own (.clock f)], r⟩

theorem inStep_fresh {now : Binary64} {r : Reply Answer ε} :
    InStep (⟨{ timers := { now } }, [], r⟩ : Running κ ω ε) :=
  .settled ⟨List.Perm.refl _, List.nodup_nil, List.nodup_nil, List.forall_mem_nil _⟩ trivial

variable [BEq κ] [LawfulBEq κ] {c₀ c c' : Running κ ω ε} {a : Event κ ω}
  {events : List (Running κ ω ε × Event κ ω)} {d : Debouncer κ ω}
  {stack : List (Activity (Frame κ ω) ω)} {r : Reply Answer ε}

/-- An operation keeps the table and the timers in step, and no timer is set but for what it
schedules. -/
theorem inStep_perform {op : Operation κ ω} (h : d.Mirrored [] (held stack)) (hg : Grounded stack)
    (allowed : d.Allows op) (gentle : Gentle (⟨d, stack, r⟩, .perform op)) :
    InStep (after stack (d.perform op : Move κ ω ε)) ∧
      (awaited (after stack (d.perform op : Move κ ω ε)).state.timers).Subperm
        (awaited d.timers ++ scheduledBy (⟨d, stack, r⟩, .perform op)) := by
  have hsubset : ∀ {l : List (PendingWork κ ω)}, l.Sublist (awaited d.timers) →
      l.Subperm (awaited d.timers ++ scheduledBy (⟨d, stack, r⟩, .perform op)) := fun hl =>
    (hl.trans (List.sublist_append_left _ _)).subperm
  have hcancelled : ∀ ps : List (PendingWork κ ω),
      (awaited (cancelTimers d.timers ps)).Sublist (awaited d.timers) := fun ps =>
    (cancelTimers_sublist d.timers ps).1.filterMap keyed?
  cases op with
  | schedule key delay work =>
    refine ⟨.settled (h.schedule key delay work) hg, ?_⟩
    have hset : awaited (d.schedule key delay work).timers ~
        awaited (d.cancel key).2.timers ++ [⟨key, d.timers.nextSerial, work⟩] :=
      (awaited_schedule d key delay work).trans (List.perm_append_singleton _ _).symm
    exact hset.subperm.trans ((hcancelled _).append_right _).subperm
  | cancel key => exact ⟨.settled (h.cancel key) hg, hsubset (hcancelled _)⟩
  | cancelAll => exact ⟨.settled h.cancelAll hg, hsubset (hcancelled _)⟩
  | flush => exact ⟨.settled h.flush hg, hsubset (List.Sublist.refl _)⟩
  | advance seconds | runAll =>
    obtain rfl : stack = [] := gentle
    exact ⟨.settled h rfl, hsubset (List.Sublist.refl _)⟩
  | callLater delay work =>
    exact ⟨.settled (h.callLater delay work) hg,
      (awaited_set d.timers delay (.plain work)).subperm.trans (hsubset (List.Sublist.refl _))⟩
  | cancelTimer serial =>
    exact ⟨.settled (h.cancelTimer allowed) hg, hsubset (List.filter_sublist.filterMap keyed?)⟩

/-- A frame keeps them in step too, and what it starts no timer is set for any more. -/
theorem inStep_resume {f : Frame κ ω} (h : InStep ⟨d, .own f :: stack, r⟩) :
    InStep (after stack (d.resume f : Move κ ω ε)) ∧
      (startedBy (⟨d, .own f :: stack, r⟩, .resume f) ++
        awaited (after stack (d.resume f : Move κ ω ε)).state.timers).Subperm
        (awaited d.timers) := by
  cases h with
  | settled mirrored grounded =>
    cases f with
    | clock f =>
      obtain rfl : stack = [] := grounded
      rcases clock_cases d [] r f with
        ⟨t, rest, now, f', hlive, hstarted, hafter⟩ | ⟨now, n, hstarted, hafter⟩
      · rw [hstarted, hafter]
        refine ⟨.firing (mirrored.fire hlive now), ?_⟩
        rw [awaited_of_live hlive]
        exact List.Subperm.refl _
      · rw [hstarted, hafter]
        exact ⟨.settled ⟨mirrored.entries, mirrored.keys, mirrored.serials, mirrored.fresh⟩ trivial,
          List.Subperm.refl _⟩
    | ring alarm => exact grounded.elim
    | flushing rest total =>
      cases rest with
      | nil => exact ⟨.settled mirrored grounded, List.Subperm.refl _⟩
      | cons p rest =>
        have hturn : (d.cancelTimer p.serial).Mirrored [] (rest ++ held stack) := mirrored.turn
        refine ⟨.settled hturn grounded, List.Perm.subperm ?_⟩
        calc p :: awaited (d.cancelTimer p.serial).timers
          _ ~ p :: (d.pending ++ (rest ++ held stack)) := hturn.entries.cons p
          _ ~ d.pending ++ p :: (rest ++ held stack) := List.perm_middle.symm
          _ ~ awaited d.timers := mirrored.entries.symm
  | @firing d t f' r mirrored =>
    unfold keyed? at mirrored
    cases hpayload : t.payload with
    | keyed key work =>
      rw [hpayload] at mirrored
      exact ⟨.settled mirrored.ring rfl, List.Subperm.refl _⟩
    | plain work =>
      rw [hpayload] at mirrored
      exact ⟨.settled mirrored rfl, List.Subperm.refl _⟩

/-- Each event keeps the table and the timers in step, and what it starts no timer is set for any
more. -/
theorem Happens.inStep (h : Happens c a c') (gentle : Gentle (c, a)) (hc : InStep c) :
    InStep c' ∧ (startedBy (c, a) ++ awaited c'.state.timers).Subperm
      (awaited c.state.timers ++ scheduledBy (c, a)) := by
  cases h with
  | @perform d stack r op free allowed =>
    cases hc with
    | settled mirrored grounded => exact inStep_perform mirrored grounded allowed gentle
    | firing mirrored => exact free.elim
  | resume d f below answer =>
    obtain ⟨hc', hsub⟩ := inStep_resume hc
    refine ⟨hc', ?_⟩
    show List.Subperm _ (_ ++ [])
    rwa [List.append_nil]
  | unwind d f below err => exact gentle.elim
  | answer d work below r r' =>
    cases hc with
    | settled mirrored grounded =>
      refine ⟨.settled mirrored grounded, ?_⟩
      show List.Subperm _ (_ ++ [])
      rw [List.append_nil]
      exact List.Subperm.refl _

/-- In a course in which no work fails and time passes only where nothing else is going on, the
table and the timers stay in step, and nothing starts or is awaited that was not scheduled. -/
theorem Course.inStep (h : Course c₀ events c) (gentle : ∀ e ∈ events, Gentle e)
    (hc₀ : InStep c₀) (hnone : awaited c₀.state.timers = []) :
    InStep c ∧ (started events ++ awaited c.state.timers).Subperm (scheduled events) := by
  induction h with
  | refl => exact ⟨hc₀, hnone ▸ List.Subperm.refl _⟩
  | @tail events c c' a h step ih =>
    obtain ⟨hc, hsub⟩ := ih fun e he => gentle e (List.mem_append_left _ he)
    obtain ⟨hc', hstep⟩ := step.inStep (gentle _ (by simp)) hc
    refine ⟨hc', ?_⟩
    rw [started_append, scheduled_append, List.append_assoc]
    have hmoved : (started events ++ (startedBy (c, a) ++ awaited c'.state.timers)).Subperm
        (started events ++ (awaited c.state.timers ++ scheduledBy (c, a))) :=
      (List.subperm_append_left _).mpr hstep
    refine hmoved.trans ?_
    rw [← List.append_assoc]
    exact (List.subperm_append_right _).mpr hsub

/-! ## Between operations -/

/-- In a course in which no work fails, and time passes only where nothing else is going on, the
table of pending work and the live timers of keys correspond whenever nothing is left to do: each
entry has the timer that was set for it, under one key and one number each.  What was asked for is
what has started, and nothing has started that was not scheduled, nor more than once. -/
theorem table_mirrors_timers {now : Binary64} {r₀ : Reply Answer ε}
    (h : Course ⟨{ timers := { now } }, [], r₀⟩ events ⟨d, [], r⟩)
    (gentle : ∀ e ∈ events, Gentle e) :
    d.pending ~ d.timers.live.filterMap keyed? ∧
    (d.pending.map (·.key)).Nodup ∧ (d.timers.live.map (·.serial)).Nodup ∧
    asked events = (started events).map (·.work) ∧
    (started events).Subperm (scheduled events) ∧
    ((scheduled events).map (·.serial)).Nodup := by
  obtain ⟨hinStep, hsub⟩ := h.inStep gentle inStep_fresh rfl
  obtain ⟨hprompt, hquiet⟩ : Prompt ⟨{ timers := { now } }, [], r₀⟩ ∧ _ :=
    prompt_of_silent fun _ => List.not_mem_nil
  obtain ⟨-, hasked⟩ := h.map_work_started hprompt hquiet
  have hmirrored : d.Mirrored [] [] := by
    cases hinStep with
    | settled mirrored grounded => exact mirrored
  have hentries := hmirrored.entries.symm
  rw [List.append_nil, List.nil_append] at hentries
  refine ⟨hentries, hmirrored.keys, hmirrored.serials, ?_, ?_, h.serials.2.2⟩
  · rw [hasked]
    exact (List.append_nil _).symm
  · exact (List.sublist_append_left _ _).subperm.trans hsub

/-- While one key is flushed, its work schedules another. -/
theorem table_mirrors_timers_flushed : ∃ events, ∃ d : Debouncer String String,
    ∃ r : Reply Answer Unit,
      Course ⟨{ timers := { now := 0 } }, [], .returned .done⟩ events ⟨d, [], r⟩ ∧
      (∀ e ∈ events, Gentle e) ∧ d.pending.map (·.key) = ["b"] ∧
      d.pending ~ d.timers.live.filterMap keyed? ∧ asked events = ["x"] ∧
      (started events).Subperm (scheduled events) := by
  have hfresh : Course (⟨{ timers := { now := 0 } }, [], .returned .done⟩ :
      Running String String Unit) [] _ := .refl
  have hflushed := ((hfresh.tail (.perform (.schedule "a" 0 "x") trivial trivial)).tail
    (.perform .flush trivial trivial)).tail (.resume _ _ _ _)
  have hended := ((hflushed.tail (.perform (.schedule "b" 0 "y") trivial trivial)).tail
    (.answer _ _ _ _ (.returned .done))).tail (.resume _ _ _ _)
  refine ⟨_, _, _, hended, ?gentle, by decide +kernel, (table_mirrors_timers hended ?gentle).1,
    by decide +kernel, (table_mirrors_timers hended ?gentle).2.2.2.2.1⟩
  simp [Gentle]

end LiveForm.Debouncer
