import LiveForm.Proofs.Clock.Callbacks
import Mathlib.Data.List.Range

/-!
# Advancing time in two steps

Among callbacks that set and cancel timers but leave time alone, it does not matter whether time is
advanced at once or in two steps to the same target: the same timers fire at the same times, and the
same is left (`fires_iff`).  Each advance fires the timers that are due by its target and are not
cancelled before, those included that are set meanwhile, each once and in order
(`Fires.firesDue`).
-/

namespace LiveForm.Timers

open Machine (after)

variable {π μ : Type} {cb : Callbacks π μ} {ts ts' ts₁ : Timers π} {memory memory' memory₁ : μ}
  {story : List (Happening π)} {n : Nat} {target target' : Binary64} {t : Timer π}
  {rest : List (Timer π)}

/-! ## Callbacks keep timers in order -/

/-- A callback leaves time alone. -/
theorem now_perform (d : Doing π μ) (ts : Timers π) : (d.perform ts).1.now = ts.now := by
  induction d generalizing ts with
  | done memory => rfl
  | set delay finite payload next ih => exact ih _ (ts.set delay payload).2
  | cancel serial next ih => exact ih (ts.cancel serial)
  | look next ih => exact ih _ _ ts

theorem Orderly.perform (h : ts.Orderly) (d : Doing π μ) : (d.perform ts).1.Orderly := by
  induction d generalizing ts with
  | done memory => exact h
  | set delay finite payload next ih => exact ih _ (h.set finite payload)
  | cancel serial next ih => exact ih (h.cancel serial)
  | look next ih => exact ih _ _ h

theorem Orderly.turn (h : ts.Orderly) (cb : Callbacks π μ) (memory : μ)
    (hlive : ts.live = t :: rest) : (cb.turn ts memory t rest).1.Orderly :=
  (h.taken hlive).perform _

theorem now_turn (cb : Callbacks π μ) (ts : Timers π) (memory : μ) (t : Timer π)
    (rest : List (Timer π)) : (cb.turn ts memory t rest).1.now = ts.now.max t.due :=
  now_perform _ _

/-! ## Two steps -/

/-- Where the first timer is not due by a time, it fires as it would if time were that already. -/
theorem taken_of_not_due (h : ts.Orderly) (hnow : ts.now ≤ target) (hlive : ts.live = t :: rest)
    (hdue : ¬ t.due ≤ target) :
    ({ ts with now := target } : Timers π).taken t rest = ts.taken t rest := by
  have ht : t.due.isNaN = false := h.due t (hlive ▸ List.mem_cons_self)
  have htarget : target < t.due :=
    (Binary64.not_le ht (Binary64.isNaN_of_le hnow).2).mp hdue
  have hearlier : ts.now < t.due :=
    (Binary64.not_le ht h.now).mp fun hle => hdue (Binary64.le_trans hle hnow)
  rw [taken, taken]
  dsimp only
  rw [Binary64.max_eq_right htarget, Binary64.max_eq_right hearlier]

theorem turn_of_not_due (cb : Callbacks π μ) (h : ts.Orderly) (hnow : ts.now ≤ target)
    (memory : μ) (hlive : ts.live = t :: rest) (hdue : ¬ t.due ≤ target) :
    cb.turn { ts with now := target } memory t rest = cb.turn ts memory t rest ∧
      cb.turnStory { ts with now := target } memory t rest = cb.turnStory ts memory t rest := by
  have htaken := taken_of_not_due h hnow hlive hdue
  have hmax : target.max t.due = ts.now.max t.due := congrArg Timers.now htaken
  constructor
  · rw [Callbacks.turn, Callbacks.turn, htaken]
  · rw [Callbacks.turnStory, Callbacks.turnStory, htaken, hmax]

/-- Where no timer is due by a time, the same fires from that time on. -/
theorem fires_of_idle (h : ts.Orderly) (hnow : ts.now ≤ target)
    (idle : ∀ t ∈ ts.live.head?, ¬ t.due ≤ target) :
    Fires cb target' { ts with now := target } memory story n ts' memory' ↔
      Fires cb target' ts memory story n ts' memory' := by
  constructor
  · intro hfires
    generalize hts : ({ ts with now := target } : Timers π) = us at hfires
    cases hfires with
    | done idle' =>
      subst hts
      exact Fires.done idle'
    | @next _ _ _ _ t rest _ _ live due others =>
      subst hts
      obtain ⟨hturn, hstory⟩ :=
        turn_of_not_due cb h hnow memory live (idle t (congrArg List.head? live))
      rw [hturn] at others
      rw [hstory]
      exact .next live due others
  · intro hfires
    cases hfires with
    | done idle' => exact Fires.done idle'
    | @next _ _ _ _ t rest _ _ live due others =>
      obtain ⟨hturn, hstory⟩ :=
        turn_of_not_due cb h hnow memory live (idle t (congrArg List.head? live))
      rw [← hturn] at others
      rw [← hstory]
      exact Fires.next live due others

/-- Timers fire up to a target as they do first up to an earlier one and then up to it. -/
theorem fires_iff (h : ts.Orderly) (hnow : ts.now ≤ target) (hle : target ≤ target') :
    Fires cb target' ts memory story n ts' memory' ↔
      ∃ story₁ n₁ ts₁ memory₁ story₂ n₂, Fires cb target ts memory story₁ n₁ ts₁ memory₁ ∧
        Fires cb target' ts₁ memory₁ story₂ n₂ ts' memory' ∧ story = story₁ ++ story₂ ∧
        n = n₁ + n₂ := by
  constructor
  · intro hfires
    induction hfires with
    | @done ts memory idle =>
      have hidle : ∀ t ∈ ts.live.head?, ¬ t.due ≤ target := fun t ht hdue =>
        idle t ht (Binary64.le_trans hdue hle)
      exact ⟨[], 0, _, memory, [], 0, .done hidle, (fires_of_idle h hnow hidle).mpr (.done idle),
        rfl, rfl⟩
    | @next ts ts' memory memory' t rest story n live due others ih =>
      by_cases hdue : t.due ≤ target
      · have hmax : (cb.turn ts memory t rest).1.now ≤ target := by
          rw [now_turn]
          exact Binary64.max_le hnow hdue
        obtain ⟨story₁, n₁, ts₁, memory₁, story₂, n₂, hfirst, hsecond, rfl, rfl⟩ :=
          ih (h.turn cb memory live) hmax
        exact ⟨_, _, ts₁, memory₁, story₂, n₂, .next live hdue hfirst, hsecond,
          (List.append_assoc _ _ _).symm, Nat.add_right_comm _ _ _⟩
      · have hidle : ∀ t ∈ ts.live.head?, ¬ t.due ≤ target := by
          rw [live]
          rintro u ⟨⟩
          exact hdue
        exact ⟨[], 0, _, memory, _, _, .done hidle,
          (fires_of_idle h hnow hidle).mpr (.next live due others), rfl, (Nat.zero_add _).symm⟩
  · rintro ⟨story₁, n₁, ts₁, memory₁, story₂, n₂, hfirst, hsecond, rfl, rfl⟩
    induction hfirst with
    | done idle =>
      rw [Nat.zero_add]
      exact (fires_of_idle h hnow idle).mp hsecond
    | @next ts ts₁ memory memory₁ t rest story n live due others ih =>
      have hmax : (cb.turn ts memory t rest).1.now ≤ target := by
        rw [now_turn]
        exact Binary64.max_le hnow due
      rw [List.append_assoc, Nat.add_right_comm]
      exact .next live (Binary64.le_trans due hle) (ih (h.turn cb memory live) hmax hsecond)

/-! ## Timers accounted for -/

/-- What was live or is set meanwhile fires, is cancelled, or is left; what is set is due no earlier
than it is set, and takes the next serial numbers. -/
structure Accounts (ts : Timers π) (story : List (Happening π)) (ts' : Timers π) : Prop where
  account : (ts.live ++ addedIn story).Perm (firedIn story ++ cancelledIn story ++ ts'.live)
  numbered : ∃ k, (addedIn story).map (·.serial) = List.range' ts.nextSerial k
  due : ∀ t ∈ addedIn story, ts.now ≤ t.due

/-- A timer that is cancelled, and the others. -/
theorem cancel_perm {us : List (Timer π)} (h : (us.map (·.serial)).Nodup) (serial : Nat) :
    us.Perm ((us.find? (·.serial == serial)).toList ++ us.filter (·.serial != serial)) := by
  induction us with
  | nil => exact .refl _
  | cons u us ih =>
    obtain ⟨hu, hus⟩ := List.nodup_cons.mp h
    by_cases heq : u.serial = serial
    · have hothers : us.filter (·.serial != serial) = us := by
        refine List.filter_eq_self.mpr fun v hv => bne_iff_ne.mpr fun hserial => hu ?_
        exact List.mem_map.mpr ⟨v, hv, hserial.trans heq.symm⟩
      rw [List.find?_cons_of_pos (by simpa using heq), List.filter_cons_of_neg (by simpa using heq),
        hothers]
      exact .refl _
    · rw [List.find?_cons_of_neg (by simpa using heq), List.filter_cons_of_pos (by simpa using heq)]
      exact ((ih hus).cons u).trans List.perm_middle.symm

namespace Accounts

/-- Nothing happens, but that time may pass. -/
theorem refl (hlive : ts'.live = ts.live) : Accounts ts [] ts' where
  account := by simp [firedIn, addedIn, cancelledIn, hlive]
  numbered := ⟨0, rfl⟩
  due := List.forall_mem_nil _

theorem set (h : ts.Orderly) {delay : Binary64} (hdelay : delay.isFinite = true) {payload : π}
    (hrest : Accounts (ts.set delay payload).2 story ts') :
    Accounts ts (.added ⟨ts.now + delay.max 0, ts.nextSerial, payload⟩ :: story) ts' where
  account := by
    rw [addedIn_added, firedIn_added, cancelledIn_added]
    refine .trans ?_ hrest.account
    exact List.perm_middle.trans ((insert_perm _ _).symm.append_right _)
  numbered := by
    obtain ⟨k, hk⟩ := hrest.numbered
    refine ⟨k + 1, ?_⟩
    rw [addedIn_added, List.map_cons, hk, List.range'_succ]
    rfl
  due t ht := by
    rw [addedIn_added] at ht
    rcases List.mem_cons.mp ht with rfl | ht
    · exact h.due_set hdelay
    · exact hrest.due t ht

theorem cancel (h : ts.Orderly) {serial : Nat} (hrest : Accounts (ts.cancel serial) story ts') :
    Accounts ts (((ts.live.find? (·.serial == serial)).map .cancelled).toList ++ story) ts' := by
  have hperm := cancel_perm h.serials serial
  cases hfind : ts.live.find? (·.serial == serial) with
  | none =>
    rw [hfind] at hperm
    exact ⟨(hperm.append_right _).trans hrest.account, hrest.numbered, hrest.due⟩
  | some t =>
    rw [hfind] at hperm
    rw [Option.map_some, Option.toList_some, List.singleton_append]
    refine ⟨?_, hrest.numbered, hrest.due⟩
    rw [addedIn_cancelled, firedIn_cancelled, cancelledIn_cancelled]
    calc (ts.live ++ addedIn story)
      _ |>.Perm (t :: ((ts.cancel serial).live ++ addedIn story)) := hperm.append_right _
      _ |>.Perm (t :: (firedIn story ++ cancelledIn story ++ ts'.live)) := hrest.account.cons t
      _ |>.Perm (firedIn story ++ t :: cancelledIn story ++ ts'.live) := by
        rw [List.append_assoc, List.append_assoc]
        exact List.perm_middle.symm

theorem fired (h : ts.Orderly) (hlive : ts.live = t :: rest) {time : Binary64}
    (hrest : Accounts (ts.taken t rest) story ts') : Accounts ts (.fired t time :: story) ts' where
  account := by
    rw [hlive, addedIn_fired, firedIn_fired, cancelledIn_fired]
    exact hrest.account.cons t
  numbered := hrest.numbered
  due u hu := Binary64.le_trans (Binary64.le_max_left h.now t.due) (hrest.due u hu)

/-- What a callback does comes first. -/
theorem perform (d : Doing π μ) (h : ts.Orderly) (hrest : Accounts (d.perform ts).1 story ts') :
    Accounts ts (d.story ts ++ story) ts' := by
  induction d generalizing ts with
  | done memory => exact hrest
  | set delay finite payload next ih => exact .set h finite (ih _ (h.set finite payload) hrest)
  | cancel serial next ih =>
    rw [Doing.story, List.append_assoc]
    exact .cancel h (ih (h.cancel serial) hrest)
  | look next ih => exact ih _ _ h hrest

/-- A timer fires and its callback returns before the rest. -/
theorem turn (cb : Callbacks π μ) (memory : μ) (h : ts.Orderly) (hlive : ts.live = t :: rest)
    (hrest : Accounts (cb.turn ts memory t rest).1 story ts') :
    Accounts ts (cb.turnStory ts memory t rest ++ story) ts' :=
  .fired h hlive (.perform _ (h.taken hlive) hrest)

theorem serials (h : Accounts ts story ts') (hts : ts.Orderly) :
    ((ts.live ++ addedIn story).map (·.serial)).Nodup := by
  obtain ⟨k, hk⟩ := h.numbered
  rw [List.map_append, hk]
  refine List.nodup_append.mpr ⟨hts.serials, List.nodup_range', fun m hm m' hm' heq => ?_⟩
  obtain ⟨t, ht, rfl⟩ := List.mem_map.mp hm
  have hfresh := hts.fresh t ht
  have hlater := (List.mem_range'_1.mp hm').1
  omega

end Accounts

/-! ## What fires -/

/-- What fires are the timers, also those that are set meanwhile, that are not cancelled and that
are due by the target.  Each of them fires once, and in order.  The others are left. -/
structure FiresDue (target : Binary64) (ts : Timers π) (story : List (Happening π)) (n : Nat)
    (ts' : Timers π) : Prop where
  fired : ∀ t, t ∈ firedIn story ↔
    (t ∈ ts.live ∨ t ∈ addedIn story) ∧ t ∉ cancelledIn story ∧ t.due ≤ target
  left : ∀ t, t ∈ ts'.live ↔
    (t ∈ ts.live ∨ t ∈ addedIn story) ∧ t ∉ cancelledIn story ∧ ¬ t.due ≤ target
  once : ((firedIn story).map (·.serial)).Nodup
  order : (firedIn story).Pairwise Before
  count : n = (firedIn story).length
  time : ts'.now = target

/-- Where timers are accounted for, it is enough to know which ones are due. -/
theorem Accounts.firesDue (h : Accounts ts story ts') (hts : ts.Orderly)
    (hfired : ∀ t ∈ firedIn story, t.due ≤ target) (hleft : ∀ t ∈ ts'.live, ¬ t.due ≤ target)
    (order : (firedIn story).Pairwise Before) (time : ts'.now = target) :
    FiresDue target ts story (firedIn story).length ts' := by
  have hserials := (h.account.map (·.serial)).nodup_iff.mp (h.serials hts)
  have hnodup : (firedIn story ++ cancelledIn story ++ ts'.live).Nodup :=
    List.Nodup.of_map _ hserials
  have hmem : ∀ t, (t ∈ ts.live ∨ t ∈ addedIn story) ↔
      t ∈ firedIn story ∨ t ∈ cancelledIn story ∨ t ∈ ts'.live := fun t => by
    simpa only [List.mem_append, or_assoc] using h.account.mem_iff (a := t)
  obtain ⟨hdone, -, hdisjoint⟩ := List.nodup_append.mp hnodup
  obtain ⟨-, -, hdisjoint'⟩ := List.nodup_append.mp hdone
  refine ⟨fun t => ?_, fun t => ?_, ?_, order, rfl, time⟩
  · rw [hmem]
    constructor
    · intro ht
      exact ⟨Or.inl ht, fun hcancelled => hdisjoint' t ht t hcancelled rfl, hfired t ht⟩
    · rintro ⟨ht | ht | ht, hcancelled, hdue⟩
      · exact ht
      · exact absurd ht hcancelled
      · exact absurd hdue (hleft t ht)
  · rw [hmem]
    constructor
    · intro ht
      refine ⟨Or.inr (Or.inr ht), fun hcancelled => ?_, hleft t ht⟩
      exact hdisjoint t (List.mem_append_right _ hcancelled) t ht rfl
    · rintro ⟨ht | ht | ht, hcancelled, hdue⟩
      · exact absurd (hfired t ht) hdue
      · exact absurd ht hcancelled
      · exact ht
  · rw [List.append_assoc] at hserials
    exact hserials.sublist ((List.sublist_append_left _ _).map _)

/-- A timer that fires is before all that fire later. -/
theorem Accounts.before (h : Accounts (ts.taken t rest) story ts') (hts : ts.Orderly)
    (hlive : ts.live = t :: rest) : ∀ u ∈ firedIn story, Before t u := by
  intro u hu
  have hnow : (ts.taken t rest).now = ts.now.max t.due := rfl
  have ht : t ∈ ts.live := hlive ▸ List.mem_cons_self
  have hmem : u ∈ rest ++ addedIn story :=
    h.account.mem_iff.mpr (List.mem_append_left _ (List.mem_append_left _ hu))
  rcases List.mem_append.mp hmem with hrest | hadded
  · exact List.rel_of_pairwise_cons (hlive ▸ hts.order) hrest
  · -- What is set when the timer has been taken is due no earlier and was set later.
    obtain ⟨k, hk⟩ := h.numbered
    have hserial : u.serial ∈ List.range' ts.nextSerial k := hk ▸ List.mem_map_of_mem hadded
    have hle := Binary64.le_trans (Binary64.le_max_right hts.now (hts.due t ht)) (h.due u hadded)
    obtain ⟨htdue, hudue⟩ := Binary64.isNaN_of_le hle
    refine Or.inr ⟨fun hlt => (Binary64.not_le htdue hudue).mpr hlt hle, ?_⟩
    exact Nat.lt_of_lt_of_le (hts.fresh t ht) (List.mem_range'_1.mp hserial).1

/-- Where the first timer is not due, none is. -/
theorem Orderly.idle (h : ts.Orderly) (idle : ∀ t ∈ ts.live.head?, ¬ t.due ≤ target) :
    ∀ t ∈ ts.live, ¬ t.due ≤ target := by
  intro u hu hdue
  cases hlive : ts.live with
  | nil => simp [hlive] at hu
  | cons t rest =>
    have ht : t ∈ ts.live := hlive ▸ List.mem_cons_self
    refine idle t (by simp [hlive]) ?_
    rcases List.mem_cons.mp (hlive ▸ hu) with rfl | hrest
    · exact hdue
    · rcases List.rel_of_pairwise_cons (hlive ▸ h.order) hrest with hlt | ⟨hnot, -⟩
      · exact Binary64.le_trans (Binary64.le_of_lt hlt) hdue
      · have hle := Decidable.not_not.mp ((Binary64.not_le (h.due t ht) (h.due u hu)).not.mpr hnot)
        exact Binary64.le_trans hle hdue

theorem firedIn_story (d : Doing π μ) (ts : Timers π) : firedIn (d.story ts) = [] := by
  induction d generalizing ts with
  | done memory => rfl
  | set delay finite payload next ih => exact ih _ _
  | cancel serial next ih =>
    rw [Doing.story, firedIn_append, ih, List.append_nil]
    cases ts.live.find? (·.serial == serial) <;> rfl
  | look next ih => exact ih _ _ ts

/-- Of what happens to timers in a turn, one fires. -/
theorem firedIn_turnStory (cb : Callbacks π μ) (ts : Timers π) (memory : μ) (t : Timer π)
    (rest : List (Timer π)) (story : List (Happening π)) :
    firedIn (cb.turnStory ts memory t rest ++ story) = t :: firedIn story := by
  rw [Callbacks.turnStory, List.cons_append, firedIn_fired, firedIn_append, firedIn_story]
  rfl

namespace Fires

theorem orderly (h : Fires cb target ts memory story n ts' memory') (hts : ts.Orderly)
    (htarget : target.isNaN = false) : ts'.Orderly := by
  induction h with
  | done idle => exact hts.sublist (List.Sublist.refl _) htarget
  | next live due others ih => exact ih (hts.turn cb _ live)

theorem time (h : Fires cb target ts memory story n ts' memory') : ts'.now = target := by
  induction h with
  | done idle => rfl
  | next live due others ih => exact ih

theorem count (h : Fires cb target ts memory story n ts' memory') :
    n = (firedIn story).length := by
  induction h with
  | done idle => rfl
  | next live due others ih => rw [firedIn_turnStory, List.length_cons, ih]

theorem due (h : Fires cb target ts memory story n ts' memory') :
    ∀ t ∈ firedIn story, t.due ≤ target := by
  induction h with
  | done idle => exact List.forall_mem_nil _
  | next live due others ih =>
    rw [firedIn_turnStory]
    exact List.forall_mem_cons.mpr ⟨due, ih⟩

theorem left (h : Fires cb target ts memory story n ts' memory') (hts : ts.Orderly) :
    ∀ t ∈ ts'.live, ¬ t.due ≤ target := by
  induction h with
  | done idle => exact hts.idle idle
  | next live due others ih => exact ih (hts.turn cb _ live)

theorem accounts (h : Fires cb target ts memory story n ts' memory') (hts : ts.Orderly) :
    Accounts ts story ts' := by
  induction h with
  | done idle => exact .refl rfl
  | next live due others ih => exact .turn cb _ hts live (ih (hts.turn cb _ live))

theorem order (h : Fires cb target ts memory story n ts' memory') (hts : ts.Orderly) :
    (firedIn story).Pairwise Before := by
  induction h with
  | done idle => exact .nil
  | @next ts ts' memory memory' t rest story n live due others ih =>
    have hmid := hts.turn cb memory live
    have hrest : Accounts (ts.taken t rest) _ ts' :=
      .perform (cb t.payload memory) (hts.taken live) (others.accounts hmid)
    have hbefore := hrest.before hts live
    rw [firedIn_append, firedIn_story] at hbefore
    rw [firedIn_turnStory]
    exact List.pairwise_cons.mpr ⟨hbefore, ih hmid⟩

/-- What is due by the target fires, each timer once and in order. -/
theorem firesDue (h : Fires cb target ts memory story n ts' memory') (hts : ts.Orderly) :
    FiresDue target ts story n ts' := by
  rw [h.count]
  exact (h.accounts hts).firesDue hts h.due (h.left hts) (h.order hts) h.time

end Fires

/-! ## Advances -/

/-- From timers that anything may have been done to, time is advanced by two amounts one after the
other, or by their sum, if the sums are exact: the same timers fire at the same times and in the
same order, the counts add up, and the same is left and remembered.  Each advance fires what is due
by its target, timers included that callbacks set meanwhile, each timer once and in order. -/
theorem advance_add {ε : Type} {start : Binary64} (hstart : start.isFinite = true)
    {r₀ : Reply Answer ε} {events : List (Running π ε × Event π)} {c : Running π ε}
    (h : Course ⟨{ now := start }, [], r₀⟩ events c) (finite : ∀ e ∈ events, e.2.Finite)
    (cb : Callbacks π μ) (memory : μ) {a b : Binary64} (ha : a.isFinite = true)
    (hb : b.isFinite = true) (ha0 : 0 ≤ a) (hb0 : 0 ≤ b)
    (exact : c.state.now + a + b = c.state.now + (a + b)) :
    (∀ story n ts' memory', Advances cb (a + b) c.state memory story n ts' memory' ↔
      ∃ story₁ n₁ ts₁ memory₁ story₂ n₂, Advances cb a c.state memory story₁ n₁ ts₁ memory₁ ∧
        Advances cb b ts₁ memory₁ story₂ n₂ ts' memory' ∧ story = story₁ ++ story₂ ∧
        n = n₁ + n₂) ∧
    (∀ story n ts' memory', Advances cb (a + b) c.state memory story n ts' memory' →
      FiresDue (c.state.now + (a + b)) c.state story n ts') ∧
    ∀ story₁ n₁ ts₁ memory₁, Advances cb a c.state memory story₁ n₁ ts₁ memory₁ →
      FiresDue (c.state.now + a) c.state story₁ n₁ ts₁ ∧
      ∀ story₂ n₂ ts' memory', Advances cb b ts₁ memory₁ story₂ n₂ ts' memory' →
        FiresDue (c.state.now + a + b) ts₁ story₂ n₂ ts' := by
  have hts := h.orderly hstart finite
  have hsum := Binary64.isNaN_add hts.now ha
  have hfirst : c.state.now ≤ c.state.now + a := Binary64.le_add hsum ha0
  have hsecond : c.state.now + a ≤ c.state.now + a + b :=
    Binary64.le_add (Binary64.isNaN_add hsum hb) hb0
  simp only [advances_iff]
  refine ⟨fun story n ts' memory' => ?_, fun story n ts' memory' hfires => hfires.firesDue hts,
    fun story₁ n₁ ts₁ memory₁ hfires => ⟨hfires.firesDue hts, fun story₂ n₂ ts' memory' => ?_⟩⟩
  · rw [← exact, fires_iff hts hfirst hsecond]
    constructor
    · rintro ⟨story₁, n₁, ts₁, memory₁, story₂, n₂, hfires, hrest⟩
      rw [← hfires.time] at hrest
      exact ⟨story₁, n₁, ts₁, memory₁, story₂, n₂, hfires, hrest⟩
    · rintro ⟨story₁, n₁, ts₁, memory₁, story₂, n₂, hfires, hrest⟩
      rw [hfires.time] at hrest
      exact ⟨story₁, n₁, ts₁, memory₁, story₂, n₂, hfires, hrest⟩
  · rw [hfires.time]
    exact fun hrest => hrest.firesDue (hfires.orderly hts hsum)

/-- An advance that is evaluated to its end. -/
theorem Advances.ended (steps : Nat) {seconds : Binary64} {c : Among π μ}
    (hc : cb.machine.run steps (after [] (among memory (ts.advance seconds))) = c)
    (hs : c.stack.isEmpty = true) (hr : c.reply = .returned (.count n)) :
    Advances cb seconds ts memory
      (cb.machine.seen happening steps (after [] (among memory (ts.advance seconds)))) n
      c.state.1 c.state.2 := by
  subst hc
  exact Machine.Runs.ended hs hr

/-- The first timer cancels the second one and sets a third, whose callback reads the time. -/
def relay : Callbacks String (List Binary64)
  | "a", times => .cancel 1 (.set 1 (by decide +kernel) "c" fun _ => .done times)
  | _, times => .look fun now _ => .done (times ++ [now])

theorem advance_add_relay : ∃ events, ∃ c : Running String Unit,
    Course ⟨{ now := 0 }, [], .returned .done⟩ events c ∧ ∃ story ts' times,
      Advances relay (1 + 2) c.state [] story 2 ts' times ∧
        (firedIn story).map (·.payload) = ["a", "c"] ∧
        (cancelledIn story).map (·.payload) = ["b"] ∧ times = [2] := by
  have hfirst := course_fresh.tail (.perform (.set 1 "a") trivial)
  have hset := hfirst.tail (.perform (.set 3 "b") trivial)
  have hone : (1 : Binary64).isFinite = true := by decide +kernel
  have htwo : (2 : Binary64).isFinite = true := by decide +kernel
  have hthree : (3 : Binary64).isFinite = true := by decide +kernel
  have hadd := advance_add (by decide +kernel) hset (by simp [Event.Finite, hone, hthree]) relay []
    hone htwo (by decide +kernel) (by decide +kernel) (by decide +kernel)
  refine ⟨_, _, hset, _, _, _, (hadd.1 _ _ _ _).mpr ⟨_, 1, _, _, _, 1,
    .ended 10 rfl (by decide +kernel) (by decide +kernel),
    .ended 10 rfl (by decide +kernel) (by decide +kernel), rfl, rfl⟩,
    by decide +kernel, by decide +kernel, by decide +kernel⟩

end LiveForm.Timers
