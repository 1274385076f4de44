import LiveForm.Proofs.Clock.Timers

/-!
# Time and callbacks that move it

Time goes on while timers fire, but an advance ends by setting it to its own target.  A callback of
that advance may have moved time further by then, with an advance of its own or by letting all
timers fire; then time goes back (`time_goes_back`).  It does so at no other point of a course, so
that it never goes back as long as no callback of an advance moves it (`pairwise_times_iff`).
-/

namespace LiveForm.Timers

open Machine (after)

variable {π ε : Type}

/-- Time passes forward. -/
def Event.Forward : Event π → Prop
  | .perform (.advance seconds) => 0 ≤ seconds
  | _ => True

/-- An advance is done whose target lies before the time. -/
def Overtaken : Running π ε × Event π → Prop
  | (c, .resume (.advancing target fired)) =>
    c.state.firing? (.advancing target fired) = none ∧ target < c.state.now
  | _ => False

/-- Time is being advanced. -/
def Advancing (stack : List (Activity Frame π)) : Prop :=
  ∃ target fired, .own (.advancing target fired) ∈ stack

/-- A callback of an advance moves time. -/
def MovesWithin : Running π ε × Event π → Prop
  | (c, .perform (.advance _)) | (c, .perform .runAll) => Advancing c.stack
  | _ => False

/-- The times that can be read in a course: before each event, and in the end. -/
def times (events : List (Running π ε × Event π)) (c : Running π ε) : List Binary64 :=
  events.map (·.1.state.now) ++ [c.state.now]

variable {start : Binary64} {c₀ c c' : Running π ε} {a : Event π}
  {events : List (Running π ε × Event π)} {stack : List (Activity Frame π)}

/-! ## No time before the start -/

/-- Neither the time nor the target of an advance lies before the start. -/
structure Since (start : Binary64) (c : Running π ε) : Prop where
  now : start ≤ c.state.now
  targets : ∀ target fired, .own (.advancing target fired) ∈ c.stack → start ≤ target

theorem Since.number (h : Since start c) : c.state.now.isNaN = false :=
  (Binary64.isNaN_of_le h.now).2

theorem Happens.since (h : Happens c a c') (hstart : start.isFinite = true) (forward : a.Forward)
    (hc : Since start c) : Since start c' := by
  refine ⟨?_, fun target fired hmem => ?_⟩
  · cases h with
    | @perform ts stack r op free =>
      cases op with
      | set delay payload | cancel serial | advance seconds | runAll => exact hc.now
    | resume ts f below answer =>
      rcases going_on (ε := ε) f ts with ⟨t, rest, -, -, -, hmove⟩ | ⟨-, -, hmove⟩
      · rw [hmove]
        exact Binary64.le_trans hc.now (Binary64.le_max_left hc.number _)
      · rw [hmove]
        cases f with
        | advancing target fired => exact hc.targets target fired List.mem_cons_self
        | exhausting fired => exact hc.now
    | unwind ts f below err | answer ts payload below r r' => exact hc.now
  · rcases h.target hmem with ⟨fired', hmem⟩ | ⟨seconds, rfl, rfl⟩
    · exact hc.targets target fired' hmem
    · exact Binary64.le_trans hc.now (Binary64.le_add_of_finite_le hstart hc.now forward)

theorem Course.since (h : Course c₀ events c) (hstart : start.isFinite = true)
    (forward : ∀ e ∈ events, e.2.Forward) (hc₀ : Since start c₀) : Since start c := by
  induction h with
  | refl => exact hc₀
  | @tail events c c' a h step ih =>
    exact step.since hstart (forward (c, a) (by simp)) (ih fun e he => forward e (by simp [he]))

/-! ## Where time goes back -/

/-- An event moves time back just if it ends an advance that was overtaken. -/
theorem Happens.now_le_iff (h : Happens c a c') (hc : Since start c) :
    c.state.now ≤ c'.state.now ↔ ¬ Overtaken (c, a) := by
  have hsame : c.state.now ≤ c.state.now := Binary64.le_refl hc.number
  cases h with
  | @perform ts stack r op free =>
    cases op with
    | set delay payload | cancel serial | advance seconds | runAll =>
      exact ⟨fun _ => id, fun _ => hsame⟩
  | resume ts f below answer =>
    rcases going_on (ε := ε) f ts with ⟨t, rest, -, -, hfiring, hmove⟩ | ⟨-, hfiring, hmove⟩
    · rw [hmove]
      refine ⟨fun _ hover => ?_, fun _ => Binary64.le_max_left hc.number _⟩
      cases f with
      | advancing target fired => exact absurd (hfiring.symm.trans hover.1) (Option.some_ne_none t)
      | exhausting fired => exact hover
    · rw [hmove]
      cases f with
      | advancing target fired =>
        have htarget : target.isNaN = false :=
          (Binary64.isNaN_of_le (hc.targets target fired List.mem_cons_self)).2
        refine ⟨fun hle hover => ?_, fun hover => ?_⟩
        · exact (Binary64.not_le hc.number htarget).mpr hover.2 hle
        · by_contra hle
          exact hover ⟨hfiring, (Binary64.not_le hc.number htarget).mp hle⟩
      | exhausting fired => exact ⟨fun _ => id, fun _ => hsame⟩
  | unwind ts f below err | answer ts payload below r r' => exact ⟨fun _ => id, fun _ => hsame⟩

theorem times_append (e : Running π ε × Event π) :
    times (events ++ [e]) c' = times events e.1 ++ [c'.state.now] := by
  simp [times]

/-- What comes behind all of them, or as late. -/
theorem pairwise_append_iff {xs : List Binary64} {x y : Binary64} :
    (xs ++ [x] ++ [y]).Pairwise (· ≤ ·) ↔ (xs ++ [x]).Pairwise (· ≤ ·) ∧ x ≤ y := by
  rw [List.pairwise_append]
  refine ⟨fun ⟨hxs, _, hle⟩ => ⟨hxs, hle x (by simp) y (List.mem_singleton_self y)⟩,
    fun ⟨hxs, hle⟩ => ⟨hxs, List.pairwise_singleton _ _, fun z hz y' hy' => ?_⟩⟩
  rw [List.mem_singleton.mp hy']
  rcases List.mem_append.mp hz with hz | hz
  · have hzx := (List.pairwise_append.mp hxs).2.2 z hz x (List.mem_singleton_self x)
    exact Binary64.le_trans hzx hle
  · rwa [List.mem_singleton.mp hz]

/-! ## Where no callback of an advance moves time -/

/-- Nothing is on top of an advance but callbacks, and its target is not behind the time. -/
def Ahead (now : Binary64) : List (Activity Frame π) → Prop
  | [] => True
  | .ask _ :: below => Ahead now below
  | .own (.advancing target _) :: below => now ≤ target ∧ ¬ Advancing below
  | .own (.exhausting _) :: below => ¬ Advancing below

theorem ahead_of_not_advancing {now : Binary64} (h : ¬ Advancing stack) : Ahead now stack := by
  induction stack with
  | nil => trivial
  | cons f below ih =>
    have hbelow : ¬ Advancing below := fun ⟨target, fired, hmem⟩ =>
      h ⟨target, fired, List.mem_cons_of_mem _ hmem⟩
    match f with
    | .ask payload => exact ih hbelow
    | .own (.advancing target fired) => exact absurd ⟨target, fired, List.mem_cons_self⟩ h
    | .own (.exhausting fired) => exact hbelow

/-- Unless a callback of an advance moves time, no advance is overtaken. -/
theorem Happens.ahead (h : Happens c a c') (hstart : start.isFinite = true) (forward : a.Forward)
    (hc : Since start c) (within : ¬ MovesWithin (c, a)) (ahead : Ahead c.state.now c.stack) :
    ¬ Overtaken (c, a) ∧ Ahead c'.state.now c'.stack := by
  cases h with
  | @perform ts stack r op free =>
    cases op with
    | set delay payload | cancel serial => exact ⟨id, ahead⟩
    | advance seconds =>
      exact ⟨id, Binary64.le_add_of_finite_le hstart hc.now forward, within⟩
    | runAll => exact ⟨id, within⟩
  | resume ts f below answer =>
    have hbelow : ¬ Advancing below := by
      cases f with
      | advancing target fired => exact ahead.2
      | exhausting fired => exact ahead
    rcases going_on (ε := ε) f ts with ⟨t, rest, -, hadmits, hfiring, hmove⟩ | ⟨-, hfiring, hmove⟩
    · rw [hmove]
      cases f with
      | advancing target fired =>
        exact ⟨fun hover => absurd (hfiring.symm.trans hover.1) (Option.some_ne_none t),
          Binary64.max_le ahead.1 hadmits, hbelow⟩
      | exhausting fired => exact ⟨id, hbelow⟩
    · rw [hmove]
      refine ⟨?_, ahead_of_not_advancing hbelow⟩
      cases f with
      | advancing target fired =>
        have htarget := (Binary64.isNaN_of_le ahead.1).2
        exact fun hover => (Binary64.not_le hc.number htarget).mpr hover.2 ahead.1
      | exhausting fired => exact id
  | unwind ts f below err =>
    refine ⟨id, ahead_of_not_advancing ?_⟩
    cases f with
    | advancing target fired => exact ahead.2
    | exhausting fired => exact ahead
  | answer ts payload below r r' => exact ⟨id, ahead⟩

theorem Course.ahead (h : Course c₀ events c) (hstart : start.isFinite = true)
    (forward : ∀ e ∈ events, e.2.Forward) (hc₀ : Since start c₀)
    (within : ∀ e ∈ events, ¬ MovesWithin e) (ahead : Ahead c₀.state.now c₀.stack) :
    (∀ e ∈ events, ¬ Overtaken e) ∧ Ahead c.state.now c.stack := by
  induction h with
  | refl => exact ⟨List.forall_mem_nil _, ahead⟩
  | @tail events c c' a h step ih =>
    have hforward : ∀ e ∈ events, e.2.Forward := fun e he => forward e (by simp [he])
    obtain ⟨hnone, hahead⟩ := ih hforward fun e he => within e (by simp [he])
    obtain ⟨hlast, hahead'⟩ := step.ahead hstart (forward (c, a) (by simp))
      (h.since hstart hforward hc₀) (within (c, a) (by simp)) hahead
    refine ⟨fun e he => ?_, hahead'⟩
    rcases List.mem_append.mp he with he | he
    · exact hnone e he
    · rwa [List.mem_singleton.mp he]

/-- Unless an advance is overtaken in a course, the time that is read never decreases. -/
theorem Course.pairwise_times_iff (h : Course c₀ events c) (hstart : start.isFinite = true)
    (forward : ∀ e ∈ events, e.2.Forward) (hc₀ : Since start c₀) :
    (times events c).Pairwise (· ≤ ·) ↔ ∀ e ∈ events, ¬ Overtaken e := by
  induction h with
  | refl => simp [times]
  | @tail events c c' a h step ih =>
    have hforward : ∀ e ∈ events, e.2.Forward := fun e he => forward e (by simp [he])
    have hc := h.since hstart hforward hc₀
    rw [times_append, times, pairwise_append_iff, ← times, ih hforward, step.now_le_iff hc]
    simp [or_imp, forall_and]

/-! ## Whole courses -/

/-- In a course in which time is never advanced by a negative amount, the time that is read never
decreases unless an advance is done whose target lies before the time.  So it never decreases if no
callback of an advance moves time; callbacks of timers that are all let fire may do so. -/
theorem time_goes_on (hstart : start.isFinite = true) {r₀ : Reply Answer ε}
    (h : Course ⟨{ now := start }, [], r₀⟩ events c) (forward : ∀ e ∈ events, e.2.Forward) :
    ((times events c).Pairwise (· ≤ ·) ↔ ∀ e ∈ events, ¬ Overtaken e) ∧
    ((∀ e ∈ events, ¬ MovesWithin e) → (times events c).Pairwise (· ≤ ·)) := by
  have hc₀ : Since start (⟨{ now := start }, [], r₀⟩ : Running π ε) :=
    ⟨Binary64.le_refl (Binary64.isNaN_of_isFinite hstart), fun _ _ hmem =>
      absurd hmem List.not_mem_nil⟩
  have hiff := h.pairwise_times_iff hstart forward hc₀
  exact ⟨hiff, fun within => hiff.mpr (h.ahead hstart forward hc₀ within trivial).1⟩

/-- A callback advances time while all timers are let fire. -/
theorem time_goes_on_within_runAll : ∃ events, ∃ c : Running String Unit,
    Course ⟨{ now := 0 }, [], .returned .done⟩ events c ∧ (∀ e ∈ events, e.2.Forward) ∧
      (times events c).getLast? = some (0 + 2) ∧ (times events c).Pairwise (· ≤ ·) := by
  have hset := course_fresh.tail (.perform (.set 0 "a") trivial)
  have hfired := (hset.tail (.perform .runAll trivial)).tail (.resume _ _ _ _)
  have hinner := (hfired.tail (.perform (.advance 2) trivial)).tail (.resume _ _ _ _)
  have hend := (hinner.tail (.answer _ _ _ _ (.returned .done))).tail (.resume _ _ _ _)
  have hpositive : (0 : Binary64) ≤ 2 := by decide +kernel
  refine ⟨_, _, hend, ?forward, by decide +kernel,
    (time_goes_on (by decide +kernel) hend ?forward).2 ?_⟩
  · simp [Event.Forward, hpositive]
  · simp only [MovesWithin, Advancing, List.nil_append, List.cons_append, List.forall_mem_cons,
      not_exists]
    refine ⟨id, fun target fired => List.not_mem_nil, id, fun target fired => ?_, id, id, id,
      List.forall_mem_nil _⟩
    show Activity.own (Frame.advancing target fired) ∉ [.ask "a", .own (Frame.exhausting 1)]
    simp

/-- The callback of an advance to 1 advances time to 2; when the outer advance is done, time is
back at 1. -/
theorem time_goes_back : ∃ events, ∃ c : Running String Unit,
    Course ⟨{ now := 0 }, [], .returned .done⟩ events c ∧ (∀ e ∈ events, e.2.Forward) ∧
      ¬ (times events c).Pairwise (· ≤ ·) := by
  have hset := course_fresh.tail (.perform (.set 0 "a") trivial)
  have hfired := (hset.tail (.perform (.advance 1) trivial)).tail (.resume _ _ _ _)
  rw [resume_of_due rfl (by decide +kernel)] at hfired
  have hinner := (hfired.tail (.perform (.advance 2) trivial)).tail (.resume _ _ _ _)
  have hend := (hinner.tail (.answer _ _ _ _ (.returned .done))).tail (.resume _ _ _ _)
  have hone : (0 : Binary64) ≤ 1 := by decide +kernel
  have htwo : (0 : Binary64) ≤ 2 := by decide +kernel
  refine ⟨_, _, hend, ?_, by decide +kernel⟩
  simp [Event.Forward, hone, htwo]

end LiveForm.Timers
