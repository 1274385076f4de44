import LiveForm.Proofs.Clock.Timers

/-!
# Timers among callbacks

Surroundings that are deterministic: what they do when a timer has fired depends on what it was set
for, on what they remember, and on what they see of the timers on the way.  They set and cancel
timers and leave time alone, and they return: an error would end the advance.  To advance time among
such callbacks is to fire one timer after the other as long as the first one is due
(`advances_iff`).
-/

namespace LiveForm.Timers

open Machine (after Runs)

/-! ## Callbacks -/

/-- What a callback does to the timers, one thing after the other, each by what came of those before
it.  In the end it remembers something. -/
inductive Doing (π μ : Type) where
  | done (memory : μ)
  | set (delay : Binary64) (finite : delay.isFinite = true) (payload : π) (next : Nat → Doing π μ)
  | cancel (serial : Nat) (next : Doing π μ)
  /-- It reads the time and counts the live timers. -/
  | look (next : Binary64 → Nat → Doing π μ)

/-- What is done when a timer has fired, by what it was set for and by what is remembered. -/
abbrev Callbacks (π μ : Type) := π → μ → Doing π μ

/-- A frame of the timers, a timer that has fired, or what a callback has still to do. -/
inductive Work (π μ : Type) where
  | own (f : Frame)
  | ask (payload : π)
  | doing (d : Doing π μ)

/-- Timers among callbacks in the middle of their work. -/
abbrev Among (π μ : Type) := Config (Timers π × μ) (Work π μ) Answer Empty

variable {π μ : Type}

/-- A move of the timers among callbacks. -/
def among (memory : μ) (m : Move π Empty) : LiveForm.Move (Timers π × μ) (Work π μ) Answer Empty :=
  m.embed (·, memory) (Activity.elim .own .ask) id

/-- The next thing that a callback does. -/
def Doing.step (ts : Timers π) (memory : μ) :
    Doing π μ → LiveForm.Move (Timers π × μ) (Work π μ) Answer Empty
  | .done memory' => .ret (ts, memory') .done
  | .set delay _ payload next =>
    let (serial, ts) := ts.set delay payload
    .call (ts, memory) [.doing (next serial)]
  | .cancel serial next => .call (ts.cancel serial, memory) [.doing next]
  | .look next => .call (ts, memory) [.doing (next ts.now ts.live.length)]

/-- Timers among callbacks. -/
def Callbacks.machine (cb : Callbacks π μ) : Machine (Timers π × μ) (Work π μ) Answer Empty
  | .own f, _, (ts, memory) => among memory (ts.resume f)
  | .ask payload, _, (ts, memory) => .call (ts, memory) [.doing (cb payload memory)]
  | .doing d, _, (ts, memory) => d.step ts memory

/-! ## What is seen -/

/-- Something that happens to a timer. -/
inductive Happening (π : Type) where
  | fired (t : Timer π) (time : Binary64)
  | added (t : Timer π)
  /-- It was cancelled while it was live. -/
  | cancelled (t : Timer π)

/-- What is about to happen to a timer. -/
def happening (c : Among π μ) : Option (Happening π) :=
  let ts := c.state.1
  match c.stack with
  | .own f :: _ => (ts.firing? f).map fun t => .fired t (ts.now.max t.due)
  | .doing (.set delay _ payload _) :: _ =>
    some (.added ⟨ts.now + delay.max 0, ts.nextSerial, payload⟩)
  | .doing (.cancel serial _) :: _ => (ts.live.find? (·.serial == serial)).map .cancelled
  | _ => none

theorem happening_own (ts : Timers π) (memory : μ) (f : Frame) (below : List (Work π μ))
    (r : Reply Answer Empty) : happening ⟨(ts, memory), .own f :: below, r⟩ =
      (ts.firing? f).map fun t => .fired t (ts.now.max t.due) := rfl

/-- The timers that have fired, in this order. -/
def firedIn (story : List (Happening π)) : List (Timer π) :=
  story.filterMap fun | .fired t _ => some t | _ => none

/-- The timers that were set. -/
def addedIn (story : List (Happening π)) : List (Timer π) :=
  story.filterMap fun | .added t => some t | _ => none

/-- The timers that were cancelled. -/
def cancelledIn (story : List (Happening π)) : List (Timer π) :=
  story.filterMap fun | .cancelled t => some t | _ => none

section

variable (story story' : List (Happening π)) (t : Timer π) (time : Binary64)

@[simp] theorem firedIn_append : firedIn (story ++ story') = firedIn story ++ firedIn story' :=
  List.filterMap_append

@[simp] theorem firedIn_fired : firedIn (.fired t time :: story) = t :: firedIn story := rfl

@[simp] theorem firedIn_added : firedIn (.added t :: story) = firedIn story := rfl

@[simp] theorem firedIn_cancelled : firedIn (.cancelled t :: story) = firedIn story := rfl

@[simp] theorem addedIn_fired : addedIn (.fired t time :: story) = addedIn story := rfl

@[simp] theorem addedIn_added : addedIn (.added t :: story) = t :: addedIn story := rfl

@[simp] theorem addedIn_cancelled : addedIn (.cancelled t :: story) = addedIn story := rfl

@[simp] theorem cancelledIn_fired :
    cancelledIn (.fired t time :: story) = cancelledIn story := rfl

@[simp] theorem cancelledIn_added : cancelledIn (.added t :: story) = cancelledIn story := rfl

@[simp] theorem cancelledIn_cancelled :
    cancelledIn (.cancelled t :: story) = t :: cancelledIn story := rfl

end

/-! ## What a callback leaves -/

/-- The timers after what a callback does, and what is remembered. -/
def Doing.perform : Doing π μ → Timers π → Timers π × μ
  | .done memory, ts => (ts, memory)
  | .set delay _ payload next, ts =>
    (next (ts.set delay payload).1).perform (ts.set delay payload).2
  | .cancel serial next, ts => next.perform (ts.cancel serial)
  | .look next, ts => (next ts.now ts.live.length).perform ts

/-- What happens to timers meanwhile. -/
def Doing.story : Doing π μ → Timers π → List (Happening π)
  | .done _, _ => []
  | .set delay _ payload next, ts =>
    .added ⟨ts.now + delay.max 0, ts.nextSerial, payload⟩ ::
      (next (ts.set delay payload).1).story (ts.set delay payload).2
  | .cancel serial next, ts =>
    ((ts.live.find? (·.serial == serial)).map .cancelled).toList ++ next.story (ts.cancel serial)
  | .look next, ts => (next ts.now ts.live.length).story ts

variable {cb : Callbacks π μ} {ts ts' ts₁ : Timers π} {memory memory' memory₁ : μ}
  {below : List (Work π μ)} {story : List (Happening π)} {n : Nat} {target : Binary64}

/-- What a callback does is done. -/
theorem runs_doing (cb : Callbacks π μ) (d : Doing π μ) (ts : Timers π) (memory : μ)
    (below : List (Work π μ)) (r : Reply Answer Empty) :
    Runs cb.machine happening ⟨(ts, memory), .doing d :: below, r⟩ (d.story ts)
      ⟨d.perform ts, below, .returned .done⟩ := by
  induction d generalizing ts r with
  | done memory' => exact Runs.step (List.cons_ne_nil _ _)
  | set delay finite payload next ih =>
    have hset : Runs cb.machine happening
        ⟨(ts, memory), .doing (.set delay finite payload next) :: below, r⟩
        [.added ⟨ts.now + delay.max 0, ts.nextSerial, payload⟩]
        ⟨((ts.set delay payload).2, memory), .doing (next (ts.set delay payload).1) :: below,
          .returned default⟩ := Runs.step (List.cons_ne_nil _ _)
    exact hset.trans (ih _ _ _)
  | cancel serial next ih =>
    have hcancel : Runs cb.machine happening
        ⟨(ts, memory), .doing (.cancel serial next) :: below, r⟩
        ((ts.live.find? (·.serial == serial)).map .cancelled).toList
        ⟨(ts.cancel serial, memory), .doing next :: below, .returned default⟩ :=
      Runs.step (List.cons_ne_nil _ _)
    exact hcancel.trans (ih _ _)
  | look next ih =>
    refine Runs.head (List.cons_ne_nil _ _) rfl ?_
    exact ih _ _ ts (.returned default)

/-! ## Timers that fire up to a target -/

/-- What is left when a timer has fired and its callback has returned. -/
def Callbacks.turn (cb : Callbacks π μ) (ts : Timers π) (memory : μ) (t : Timer π)
    (rest : List (Timer π)) : Timers π × μ :=
  (cb t.payload memory).perform (ts.taken t rest)

/-- What happens to timers meanwhile. -/
def Callbacks.turnStory (cb : Callbacks π μ) (ts : Timers π) (memory : μ) (t : Timer π)
    (rest : List (Timer π)) : List (Happening π) :=
  .fired t (ts.now.max t.due) :: (cb t.payload memory).story (ts.taken t rest)

/-- One timer after the other fires as long as the first one is due; then time is the target. -/
inductive Fires (cb : Callbacks π μ) (target : Binary64) :
    Timers π → μ → List (Happening π) → Nat → Timers π → μ → Prop where
  | done {ts : Timers π} {memory : μ} (idle : ∀ t ∈ ts.live.head?, ¬ t.due ≤ target) :
    Fires cb target ts memory [] 0 { ts with now := target } memory
  | next {ts ts' : Timers π} {memory memory' : μ} {t : Timer π} {rest : List (Timer π)}
    {story : List (Happening π)} {n : Nat} (live : ts.live = t :: rest) (due : t.due ≤ target)
    (others : Fires cb target (cb.turn ts memory t rest).1 (cb.turn ts memory t rest).2 story n ts'
      memory') :
    Fires cb target ts memory (cb.turnStory ts memory t rest ++ story) (n + 1) ts' memory'

/-- The callback of a timer that has fired returns. -/
theorem runs_ask (cb : Callbacks π μ) (payload : π) (ts : Timers π) (memory : μ)
    (below : List (Work π μ)) (r : Reply Answer Empty) :
    Runs cb.machine happening ⟨(ts, memory), .ask payload :: below, r⟩
      ((cb payload memory).story ts) ⟨(cb payload memory).perform ts, below, .returned .done⟩ :=
  Runs.head (List.cons_ne_nil _ _) rfl (runs_doing cb (cb payload memory) ts memory below _)

theorem step_of_due (cb : Callbacks π μ) {t : Timer π} {rest : List (Timer π)}
    (live : ts.live = t :: rest) (due : t.due ≤ target) (memory : μ) (fired : Nat)
    (below : List (Work π μ)) (r : Reply Answer Empty) :
    cb.machine.step ⟨(ts, memory), .own (.advancing target fired) :: below, r⟩ =
      ⟨(ts.taken t rest, memory), .ask t.payload :: .own (.advancing target (fired + 1)) :: below,
        .returned default⟩ := by
  show after below (among memory (ts.resume (.advancing target fired))) = _
  rw [resume_of_due live due]
  rfl

/-- A timer that is due fires, and its callback returns. -/
theorem runs_turn (cb : Callbacks π μ) {t : Timer π} {rest : List (Timer π)}
    (live : ts.live = t :: rest) (due : t.due ≤ target) (memory : μ) (fired : Nat)
    (below : List (Work π μ)) (r : Reply Answer Empty) :
    Runs cb.machine happening ⟨(ts, memory), .own (.advancing target fired) :: below, r⟩
      (cb.turnStory ts memory t rest)
      ⟨cb.turn ts memory t rest, .own (.advancing target (fired + 1)) :: below,
        .returned .done⟩ := by
  have hstep : Runs cb.machine happening
      ⟨(ts, memory), .own (.advancing target fired) :: below, r⟩ _ _ :=
    Runs.step (List.cons_ne_nil _ _)
  have hfiring : ts.firing? (.advancing target fired) = some t := by
    unfold firing?
    rw [resume_of_due live due, live]
    rfl
  rw [step_of_due cb live due, happening_own, hfiring] at hstep
  exact hstep.trans (runs_ask cb t.payload _ memory _ _)

/-- No timer is due any more, and the advance is done. -/
theorem runs_idle (cb : Callbacks π μ) (idle : ∀ t ∈ ts.live.head?, ¬ t.due ≤ target) (memory : μ)
    (fired : Nat) (below : List (Work π μ)) (r : Reply Answer Empty) :
    Runs cb.machine happening ⟨(ts, memory), .own (.advancing target fired) :: below, r⟩ []
      ⟨({ ts with now := target }, memory), below, .returned (.count fired)⟩ := by
  have hstep : Runs cb.machine happening
      ⟨(ts, memory), .own (.advancing target fired) :: below, r⟩ _ _ :=
    Runs.step (List.cons_ne_nil _ _)
  rcases going_on (ε := Empty) (.advancing target fired) ts with
    ⟨t, rest, hlive, hdue, -, -⟩ | ⟨-, hfiring, hmove⟩
  · exact absurd hdue (idle t (by rw [hlive]; rfl))
  · have hnext : cb.machine.step ⟨(ts, memory), .own (.advancing target fired) :: below, r⟩ =
        ⟨({ ts with now := target }, memory), below, .returned (.count fired)⟩ := by
      show after below (among memory (ts.resume (.advancing target fired))) = _
      rw [hmove]
      rfl
    rw [hnext, happening_own, hfiring] at hstep
    exact hstep

theorem Fires.runs (h : Fires cb target ts memory story n ts' memory') (fired : Nat)
    (r : Reply Answer Empty) :
    Runs cb.machine happening ⟨(ts, memory), [.own (.advancing target fired)], r⟩ story
      ⟨(ts', memory'), [], .returned (.count (fired + n))⟩ := by
  induction h generalizing fired r with
  | done idle => exact runs_idle cb idle _ fired [] r
  | @next ts ts' memory memory' t rest story n live due others ih =>
    have hrest := ih (fired + 1) (.returned .done)
    rw [Nat.add_assoc, Nat.add_comm 1] at hrest
    exact (runs_turn cb live due memory fired [] r).trans hrest

/-- What comes to its end fires timers up to the target. -/
theorem exists_fires (cb : Callbacks π μ) {steps : Nat} (fired : Nat) (r : Reply Answer Empty)
    (hend : (cb.machine.run steps
      ⟨(ts, memory), [.own (.advancing target fired)], r⟩).stack = []) :
    ∃ story n ts' memory', Fires cb target ts memory story n ts' memory' := by
  -- A turn takes as many steps as its callback, so the run is cut behind it.
  induction steps using Nat.strongRecOn generalizing ts memory fired r with
  | ind steps ih =>
    by_cases hidle : ∀ t ∈ ts.live.head?, ¬ t.due ≤ target
    · exact ⟨_, _, _, _, .done hidle⟩
    · obtain ⟨t, rest, hlive, hdue⟩ : ∃ t rest, ts.live = t :: rest ∧ t.due ≤ target := by
        cases hlive : ts.live with
        | nil => exact absurd (by simp [hlive]) hidle
        | cons t rest => exact ⟨t, rest, rfl, by simpa [hlive] using hidle⟩
      obtain _ | steps := steps
      · cases hend
      · rw [Machine.run_succ (List.cons_ne_nil _ _), step_of_due cb hlive hdue] at hend
        have hasked := runs_ask cb t.payload (ts.taken t rest) memory
          [.own (.advancing target (fired + 1))] (.returned default)
        obtain ⟨k, hk, hrest⟩ := hasked.remaining hend
        obtain ⟨story, n, ts', memory', hfires⟩ := ih k (Nat.lt_succ_of_le hk) _ _ hrest
        exact ⟨_, _, ts', memory', .next hlive hdue hfires⟩

/-- Time is advanced among callbacks: what happens to the timers meanwhile, the answer, and what is
left in the end. -/
def Advances (cb : Callbacks π μ) (seconds : Binary64) (ts : Timers π) (memory : μ)
    (story : List (Happening π)) (n : Nat) (ts' : Timers π) (memory' : μ) : Prop :=
  Runs cb.machine happening (after [] (among memory (ts.advance seconds))) story
    ⟨(ts', memory'), [], .returned (.count n)⟩

theorem advances_iff {seconds : Binary64} : Advances cb seconds ts memory story n ts' memory' ↔
    Fires cb (ts.now + seconds) ts memory story n ts' memory' := by
  have hruns : ∀ {story n ts' memory'}, Fires cb (ts.now + seconds) ts memory story n ts' memory' →
      Advances cb seconds ts memory story n ts' memory' := by
    intro story n ts' memory' hfires
    have h := hfires.runs 0 (.returned default)
    rwa [Nat.zero_add] at h
  refine ⟨fun h => ?_, hruns⟩
  obtain ⟨steps, hsteps, -⟩ := id h
  obtain ⟨story₁, n₁, ts₁, memory₁, hfires⟩ : ∃ story₁ n₁ ts₁ memory₁,
      Fires cb (ts.now + seconds) ts memory story₁ n₁ ts₁ memory₁ :=
    exists_fires cb 0 _ (congrArg Config.stack hsteps)
  obtain ⟨rfl, hc⟩ := Runs.unique h (hruns hfires) rfl rfl
  cases hc
  exact hfires

end LiveForm.Timers
