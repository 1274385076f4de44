import LiveForm.Proofs.Clock.Debouncer
import LiveForm.Proofs.Number.Order

/-!
# What happens to timers

Timers among surroundings that do anything: they set and cancel timers and let time pass whenever
they are in control, that is from outside and whenever a timer has fired, and what a timer was set
for ends well or with an error.

As long as the delays and the times that pass are finite numbers the live timers are in order
(`Course.orderly`): by the times at which they are due, and those that are due at the same time by
the order in which they were set.
-/

namespace LiveForm.Timers

open Machine (after)

variable {π ε : Type}

/-! ## How timers go on -/

/-- A frame lets a timer fire: it is due, or all timers are to fire. -/
def Frame.Admits : Frame → Timer π → Prop
  | .advancing target _, t => t.due ≤ target
  | .exhausting _, _ => True

/-- The frame when one more timer has fired. -/
def Frame.next : Frame → Frame
  | .advancing target fired => .advancing target (fired + 1)
  | .exhausting fired => .exhausting (fired + 1)

/-- The time when a frame is done. -/
def Frame.finish : Frame → Binary64 → Binary64
  | .advancing target _, _ => target
  | .exhausting _, now => now

/-- The timers that have fired. -/
def Frame.fired : Frame → Nat
  | .advancing _ fired => fired
  | .exhausting fired => fired

/-- The timers when the first one is taken to fire. -/
def taken (ts : Timers π) (t : Timer π) (rest : List (Timer π)) : Timers π :=
  { ts with live := rest, now := ts.now.max t.due }

/-- Either the first timer fires, or the frame is done. -/
theorem going_on (f : Frame) (ts : Timers π) :
    (∃ t rest, ts.live = t :: rest ∧ f.Admits t ∧ ts.firing? f = some t ∧
      (ts.resume f : Move π ε) = .call (ts.taken t rest) [.ask t.payload, .own f.next]) ∨
    ((∀ t ∈ ts.live.head?, ¬ f.Admits t) ∧ ts.firing? f = none ∧
      (ts.resume f : Move π ε) = .ret { ts with now := f.finish ts.now } (.count f.fired)) := by
  unfold firing? resume
  cases hlive : ts.live with
  | nil =>
    refine Or.inr ⟨by simp, ?_⟩
    cases f with
    | advancing target fired => exact ⟨rfl, rfl⟩
    | exhausting fired =>
      refine ⟨rfl, ?_⟩
      simp [Frame.finish, Frame.fired, ← hlive]
  | cons t rest =>
    cases f with
    | advancing target fired =>
      by_cases hdue : t.due ≤ target
      · exact Or.inl ⟨t, rest, rfl, hdue, by simp [hdue, fire],
          by simp [hdue, fire, taken, Frame.next]⟩
      · refine Or.inr ⟨by simpa [Frame.Admits] using hdue, by simp [hdue, Move.ret], ?_⟩
        simp [hdue, Frame.finish, Frame.fired]
    | exhausting fired => exact Or.inl ⟨t, rest, rfl, trivial, rfl, rfl⟩

theorem resume_of_due {ts : Timers π} {t : Timer π} {rest : List (Timer π)} {target : Binary64}
    (hlive : ts.live = t :: rest) (hdue : t.due ≤ target) (fired : Nat) :
    (ts.resume (.advancing target fired) : Move π ε) =
      .call (ts.taken t rest) [.ask t.payload, .own (.advancing target (fired + 1))] := by
  unfold resume
  rw [hlive]
  exact if_pos hdue

/-! ## Courses of events -/

/-- Timers in the middle of their work. -/
abbrev Running (π ε : Type) := Config (Timers π) (Activity Frame π) Answer ε

/-- Something that is done to timers. -/
inductive Operation (π : Type) where
  | set (delay : Binary64) (payload : π)
  | cancel (serial : Nat)
  | advance (seconds : Binary64)
  | runAll

/-- Something that happens to timers. -/
inductive Event (π : Type) where
  | perform (op : Operation π)
  /-- A frame goes on. -/
  | resume (f : Frame)
  /-- An error passes through a frame. -/
  | unwind (f : Frame)
  /-- The surroundings have done what a timer was set for. -/
  | answer (payload : π)

/-- The surroundings are in control: nothing is left to do, or a timer has fired. -/
def Free : List (Activity Frame π) → Prop
  | .own _ :: _ => False
  | _ => True

/-- Does something to timers. -/
def perform (ts : Timers π) : Operation π → Move π ε
  | .set delay payload => .ret (ts.set delay payload).2 .done
  | .cancel serial => .ret (ts.cancel serial) .done
  | .advance seconds => ts.advance seconds
  | .runAll => ts.runAll

/-- One event: the surroundings do something or have done what a timer was set for, or a frame of
the timers goes on. -/
inductive Happens : Running π ε → Event π → Running π ε → Prop where
  | perform {ts : Timers π} {stack : List (Activity Frame π)} {r : Reply Answer ε}
    (op : Operation π) (free : Free stack) :
    Happens ⟨ts, stack, r⟩ (.perform op) (after stack (ts.perform op))
  | resume (ts : Timers π) (f : Frame) (below : List (Activity Frame π)) (a : Answer) :
    Happens ⟨ts, .own f :: below, .returned a⟩ (.resume f) (after below (ts.resume f))
  | unwind (ts : Timers π) (f : Frame) (below : List (Activity Frame π)) (err : ε) :
    Happens ⟨ts, .own f :: below, .raised err⟩ (.unwind f) ⟨ts, below, .raised err⟩
  | answer (ts : Timers π) (payload : π) (below : List (Activity Frame π))
    (r r' : Reply Answer ε) :
    Happens ⟨ts, .ask payload :: below, r⟩ (.answer payload) ⟨ts, below, r'⟩

/-- Any number of events, each with the timers in the middle of whose work it happened. -/
inductive Course (c₀ : Running π ε) : List (Running π ε × Event π) → Running π ε → Prop where
  | refl : Course c₀ [] c₀
  | tail {events : List (Running π ε × Event π)} {c c' : Running π ε} {a : Event π}
    (h : Course c₀ events c) (step : Happens c a c') : Course c₀ (events ++ [(c, a)]) c'

/-- The delays and the times that pass are finite. -/
def Event.Finite : Event π → Prop
  | .perform (.set delay _) => delay.isFinite = true
  | .perform (.advance seconds) => seconds.isFinite = true
  | _ => True

/-! ## The order of timers -/

/-- The timer fires before the other one: it is due earlier, or not later and was set earlier. -/
def Before (t u : Timer π) : Prop := t.due < u.due ∨ ¬ u.due < t.due ∧ t.serial < u.serial

/-- The place of a timer in the order in which timers fire. -/
def rank (t : Timer π) : (Int ×ₗ Int) ×ₗ Nat := toLex (t.due.place, t.serial)

theorem before_iff {t u : Timer π} (ht : t.due.isNaN = false) (hu : u.due.isNaN = false) :
    Before t u ↔ rank t < rank u := by
  have hle : ¬ u.due < t.due ↔ t.due.place ≤ u.due.place := by
    rw [← not_lt]
    exact not_congr (Binary64.lt_iff_place hu ht)
  rw [Before, hle, rank, rank, Prod.Lex.toLex_lt_toLex, le_iff_lt_or_eq]
  have hlt : t.due < u.due ↔ t.due.place < u.due.place := Binary64.lt_iff_place ht hu
  rw [hlt]
  tauto

/-- The live timers are in the order in which they fire, and each has a number of its own. -/
structure Orderly (ts : Timers π) : Prop where
  now : ts.now.isNaN = false
  due : ∀ t ∈ ts.live, t.due.isNaN = false
  order : ts.live.Pairwise Before
  serials : (ts.live.map (·.serial)).Nodup
  fresh : ∀ t ∈ ts.live, t.serial < ts.nextSerial

theorem pairwise_insert {t : Timer π} {us : List (Timer π)} (ht : t.due.isNaN = false)
    (hus : ∀ u ∈ us, u.due.isNaN = false) (hserial : ∀ u ∈ us, u.serial < t.serial)
    (h : us.Pairwise Before) : (insert t us).Pairwise Before := by
  induction us with
  | nil => exact List.pairwise_singleton _ _
  | cons u us ih =>
    obtain ⟨hu, hrest⟩ := List.pairwise_cons.mp h
    obtain ⟨hudue, husdue⟩ := List.forall_mem_cons.mp hus
    obtain ⟨huserial, husserial⟩ := List.forall_mem_cons.mp hserial
    rw [insert]
    split
    · next hlt =>
      refine List.pairwise_cons.mpr ⟨fun v hv => ?_, h⟩
      have htu : Before t u := Or.inl hlt
      rcases List.mem_cons.mp hv with rfl | hv
      · exact htu
      · have hvdue := husdue v hv
        exact (before_iff ht hvdue).mpr
          (((before_iff ht hudue).mp htu).trans ((before_iff hudue hvdue).mp (hu v hv)))
    · next hlt =>
      refine List.pairwise_cons.mpr ⟨fun v hv => ?_, ih husdue husserial hrest⟩
      rcases mem_insert.mp hv with rfl | hv
      · exact Or.inr ⟨hlt, huserial⟩
      · exact hu v hv

namespace Orderly

variable {ts : Timers π}

/-- The time at which a timer is due that is set. -/
theorem due_set (h : ts.Orderly) {delay : Binary64} (hdelay : delay.isFinite = true) :
    ts.now ≤ ts.now + delay.max 0 := by
  have hmax := Binary64.isFinite_max hdelay Binary64.isFinite_zero
  refine Binary64.le_add (Binary64.isNaN_add h.now hmax) ?_
  exact Binary64.le_max_right (Binary64.isNaN_of_isFinite hdelay)
    (Binary64.isNaN_of_isFinite Binary64.isFinite_zero)

theorem set (h : ts.Orderly) {delay : Binary64} (hdelay : delay.isFinite = true) (payload : π) :
    (ts.set delay payload).2.Orderly := by
  have hdue := (Binary64.isNaN_of_le (h.due_set hdelay)).2
  have hperm := insert_perm ⟨ts.now + delay.max 0, ts.nextSerial, payload⟩ ts.live
  refine ⟨h.now, fun t ht => ?_, pairwise_insert hdue h.due h.fresh h.order, ?_, fun t ht => ?_⟩
  · rcases mem_insert.mp ht with rfl | ht
    · exact hdue
    · exact h.due t ht
  · refine (hperm.map _).nodup_iff.mpr (List.nodup_cons.mpr ⟨fun hmem => ?_, h.serials⟩)
    obtain ⟨t, ht, hserial⟩ := List.mem_map.mp hmem
    exact Nat.ne_of_lt (h.fresh t ht) hserial
  · rcases mem_insert.mp ht with rfl | ht
    · exact Nat.lt_succ_self _
    · exact Nat.lt_succ_of_lt (h.fresh t ht)

/-- Timers may go, and time may pass. -/
theorem sublist (h : ts.Orderly) {live : List (Timer π)} (hlive : live.Sublist ts.live)
    {now : Binary64} (hnow : now.isNaN = false) :
    ({ ts with live, now } : Timers π).Orderly where
  now := hnow
  due t ht := h.due t (hlive.subset ht)
  order := h.order.sublist hlive
  serials := h.serials.sublist (hlive.map _)
  fresh t ht := h.fresh t (hlive.subset ht)

theorem cancel (h : ts.Orderly) (serial : Nat) : (ts.cancel serial).Orderly :=
  h.sublist List.filter_sublist h.now

theorem taken (h : ts.Orderly) {t : Timer π} {rest : List (Timer π)} (hlive : ts.live = t :: rest) :
    (ts.taken t rest).Orderly := by
  refine h.sublist (hlive ▸ List.sublist_cons_self t rest) ?_
  rcases Binary64.max_eq_or ts.now t.due with heq | heq
  · rw [heq]
    exact h.now
  · rw [heq]
    exact h.due t (hlive ▸ List.mem_cons_self)

end Orderly

/-! ## Courses keep timers in order -/

variable {c₀ c c' : Running π ε} {a : Event π} {events : List (Running π ε × Event π)}

/-- An advance is under way that was before, or one has begun. -/
theorem Happens.target {target : Binary64} {fired : Nat} (h : Happens c a c')
    (hmem : .own (.advancing target fired) ∈ c'.stack) :
    (∃ fired', .own (.advancing target fired') ∈ c.stack) ∨
      ∃ seconds, a = .perform (.advance seconds) ∧ target = c.state.now + seconds := by
  cases h with
  | @perform ts stack r op free =>
    cases op with
    | set delay payload | cancel serial => exact Or.inl ⟨fired, hmem⟩
    | advance seconds =>
      rcases List.mem_cons.mp hmem with heq | hmem
      · cases heq
        exact Or.inr ⟨seconds, rfl, rfl⟩
      · exact Or.inl ⟨fired, hmem⟩
    | runAll =>
      rcases List.mem_cons.mp hmem with heq | hmem
      · cases heq
      · exact Or.inl ⟨fired, hmem⟩
  | resume ts f below answer =>
    rcases going_on (ε := ε) f ts with ⟨t, rest, -, -, -, hmove⟩ | ⟨-, -, hmove⟩
    · rw [hmove] at hmem
      rcases List.mem_cons.mp hmem with heq | hmem
      · cases heq
      · rcases List.mem_cons.mp hmem with heq | hmem
        · cases f with
          | advancing target' fired' =>
            cases heq
            exact Or.inl ⟨fired', List.mem_cons_self⟩
          | exhausting fired' => cases heq
        · exact Or.inl ⟨fired, List.mem_cons_of_mem _ hmem⟩
    · rw [hmove] at hmem
      exact Or.inl ⟨fired, List.mem_cons_of_mem _ hmem⟩
  | unwind ts f below err | answer ts payload below r r' =>
    exact Or.inl ⟨fired, List.mem_cons_of_mem _ hmem⟩

/-- The timers are in order, and the times to which time is being advanced are numbers. -/
structure InOrder (c : Running π ε) : Prop where
  orderly : c.state.Orderly
  targets : ∀ target fired, .own (.advancing target fired) ∈ c.stack → target.isNaN = false

theorem Happens.inOrder (h : Happens c a c') (finite : a.Finite) (hc : InOrder c) : InOrder c' := by
  refine ⟨?_, fun target fired hmem => ?_⟩
  · cases h with
    | @perform ts stack r op free =>
      cases op with
      | set delay payload => exact hc.orderly.set finite payload
      | cancel serial => exact hc.orderly.cancel serial
      | advance seconds | runAll => exact hc.orderly
    | resume ts f below answer =>
      rcases going_on (ε := ε) f ts with ⟨t, rest, hlive, -, -, hmove⟩ | ⟨-, -, hmove⟩
      · rw [hmove]
        exact hc.orderly.taken hlive
      · rw [hmove]
        refine hc.orderly.sublist (List.Sublist.refl _) ?_
        cases f with
        | advancing target fired => exact hc.targets target fired List.mem_cons_self
        | exhausting fired => exact hc.orderly.now
    | unwind ts f below err | answer ts payload below r r' => exact hc.orderly
  · rcases h.target hmem with ⟨fired', hmem⟩ | ⟨seconds, rfl, rfl⟩
    · exact hc.targets target fired' hmem
    · exact Binary64.isNaN_add hc.orderly.now finite

/-- From a time on that is a finite number, the timers stay in order. -/
theorem Course.orderly {start : Binary64} (hstart : start.isFinite = true) {r₀ : Reply Answer ε}
    (h : Course ⟨{ now := start }, [], r₀⟩ events c) (finite : ∀ e ∈ events, e.2.Finite) :
    c.state.Orderly := by
  suffices hall : InOrder c from hall.orderly
  induction h with
  | refl =>
    refine ⟨⟨Binary64.isNaN_of_isFinite hstart, List.forall_mem_nil _, .nil, .nil,
      List.forall_mem_nil _⟩, fun _ _ hmem => absurd hmem List.not_mem_nil⟩
  | @tail events c c' a h step ih =>
    exact step.inOrder (finite (c, a) (by simp)) (ih fun e he => finite e (by simp [he]))

/-- Timers at which nothing has happened. -/
theorem course_fresh : Course (⟨{ now := 0 }, [], .returned .done⟩ : Running String Unit) []
    ⟨{ now := 0 }, [], .returned .done⟩ := .refl

end LiveForm.Timers
