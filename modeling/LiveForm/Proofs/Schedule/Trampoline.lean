import LiveForm.Proofs.Schedule.Continuations

/-!
# The trampoline

The loop of an immediate yield point runs continuations as a manual one does that is emptied
whenever something was left there from outside: both take them from the front of one queue, and what
they leave goes to its end (`Works`).  A failure ends the loop; what waits then is taken up by the
next one, in front of what is left later.
-/

namespace LiveForm.YieldPoint

open Machine (after Runs)

variable {κ μ ε : Type}

/-! ## Both yield points -/

/-- The yield point when nothing goes on there. -/
def resting (mode : YieldMode) (waiting : List κ) : YieldPoint κ := { mode, waiting }

/-- The yield point while it runs what waits there. -/
def active (mode : YieldMode) (waiting : List κ) : YieldPoint κ :=
  { mode, waiting, running := mode == .immediate }

theorem keeps_active (mode : YieldMode) (waiting : List κ) : (active mode waiting).Keeps := by
  rintro rfl
  rfl

/-- The frames that run what waits at a yield point. -/
inductive Pumps : YieldMode → Frame → Prop where
  | loop : Pumps .immediate .loop
  | pump (count : Nat) : Pumps .manual (.pump count)

namespace Pumps

variable {mode : YieldMode} {f : Frame}

theorem resume_nil (h : Pumps mode f) :
    ∃ a, ((active mode []).resume f : Move κ ε) = .ret (resting mode []) a := by
  cases h with
  | loop => exact ⟨_, rfl⟩
  | pump count => exact ⟨_, rfl⟩

theorem resume_cons (h : Pumps mode f) (k : κ) (queue : List κ) : ∃ f', Pumps mode f' ∧
    ((active mode (k :: queue)).resume f : Move κ ε) =
      .call (active mode queue) [.ask k, .own f'] := by
  cases h with
  | loop => exact ⟨_, .loop, rfl⟩
  | pump count => exact ⟨_, .pump (count + 1), rfl⟩

theorem unwind_active (h : Pumps mode f) (queue : List κ) :
    (active mode queue).unwind f = resting mode queue := by
  cases h with
  | loop => rfl
  | pump count => rfl

end Pumps

/-- What is called to have a continuation run: an immediate yield point is left alone with it, and a
manual one is told to run all that waits. -/
def calls : YieldMode → κ → List (Work κ μ ε)
  | .immediate, k => [.call (.defer k)]
  | .manual, k => [.call (.defer k), .call .runAll]

/-- The calls leave the continuation behind what waits and begin to run it. -/
theorem runs_calls (family : Family κ μ ε) (mode : YieldMode) (queue : List κ) (memory : μ)
    (k : κ) : ∃ f, Pumps mode f ∧ Runs family.machine note
      ⟨(resting mode queue, memory), calls mode k, .returned default⟩ [.left k]
      ⟨(active mode (queue ++ [k]), memory), [.own f], .returned default⟩ := by
  cases mode with
  | immediate => exact ⟨.loop, .loop, Runs.step (List.cons_ne_nil _ _)⟩
  | manual =>
    have hdefer : Runs family.machine note
        ⟨(resting .manual queue, memory), calls .manual k, .returned default⟩ [.left k]
        ⟨(active .manual (queue ++ [k]), memory), [.call .runAll], .returned .done⟩ :=
      Runs.step (List.cons_ne_nil _ _)
    exact ⟨.pump 0, .pump 0, hdefer.trans_nil (Runs.step (List.cons_ne_nil _ _))⟩

/-! ## One queue -/

/-- Continuations are run from the front of a queue, and what they leave goes to its end, until none
waits or one fails. -/
inductive Works (family : Family κ μ ε) :
    List κ → μ → List (Note κ ε) → List κ → μ → Option ε → Prop where
  | idle {memory : μ} : Works family [] memory [] [] memory none
  | failed {k : κ} {queue : List κ} {memory : μ} {deed : Deed κ μ ε} {e : ε}
    (performed : (family k).perform memory = deed) (failed : deed.failure = some e) :
    Works family (k :: queue) memory (deed.story k) (queue ++ deed.left) deed.memory (some e)
  | next {k : κ} {queue waiting : List κ} {memory memory' : μ} {deed : Deed κ μ ε}
    {notes : List (Note κ ε)} {failure : Option ε}
    (performed : (family k).perform memory = deed) (returned : deed.failure = none)
    (others : Works family (queue ++ deed.left) deed.memory notes waiting memory' failure) :
    Works family (k :: queue) memory (deed.story k ++ notes) waiting memory' failure

/-- The error that comes back, if any. -/
def error? : Reply Answer ε → Option ε
  | .returned _ => none
  | .raised e => some e

variable {mode : YieldMode} {f : Frame} {k : κ} {ks queue waiting : List κ}
  {notes : List (Note κ ε)} {failure : Option ε}

/-- The first continuation that waits is run. -/
theorem runs_first (family : Family κ μ ε) (hf : Pumps mode f) (k : κ) (queue : List κ)
    (memory : μ) (a : Answer) {deed : Deed κ μ ε} (hdeed : (family k).perform memory = deed) :
    ∃ f', Pumps mode f' ∧
      family.machine.step ⟨(active mode (k :: queue), memory), [.own f], .returned a⟩ =
        ⟨(active mode queue, memory), [.start k, .own f'], .returned default⟩ ∧
      Runs family.machine note
        ⟨(active mode queue, memory), [.start k, .own f'], .returned default⟩ (deed.story k)
        ⟨(active mode (queue ++ deed.left), deed.memory), [.own f'], deed.reply⟩ := by
  obtain ⟨f', hf', hmove⟩ := hf.resume_cons (ε := ε) k queue
  refine ⟨f', hf', ?_, ?_⟩
  · show after [] (among memory ((active mode (k :: queue)).resume f)) = _
    rw [hmove]
    rfl
  · have hstart := runs_start family (keeps_active mode queue) k memory [.own f'] default
    rw [hdeed] at hstart
    exact hstart

theorem Works.runs (h : Works family queue memory notes waiting memory' failure)
    (hf : Pumps mode f) (a : Answer) : ∃ r, error? r = failure ∧ Runs family.machine note
      ⟨(active mode queue, memory), [.own f], .returned a⟩ notes
      ⟨(resting mode waiting, memory'), [], r⟩ := by
  induction h generalizing f a with
  | @idle memory =>
    obtain ⟨a', hmove⟩ := hf.resume_nil (κ := κ) (ε := ε)
    refine ⟨.returned a', rfl, Runs.head (List.cons_ne_nil _ _) rfl ?_⟩
    show Runs _ _ (after [] (among memory ((active mode []).resume f))) _ _
    rw [hmove]
    exact .refl _
  | @failed k queue memory deed e performed failed =>
    obtain ⟨f', hf', hstep, hfirst⟩ := runs_first family hf k queue memory a performed
    have hreply : deed.reply = .raised e := by rw [Deed.reply, failed]
    rw [hreply] at hfirst
    refine ⟨.raised e, rfl, Runs.head (List.cons_ne_nil _ _) rfl ?_⟩
    rw [hstep]
    refine hfirst.trans_nil (Runs.head (List.cons_ne_nil _ _) rfl ?_)
    show Runs _ _ ⟨((active mode (queue ++ deed.left)).unwind f', deed.memory), [], _⟩ _ _
    rw [hf'.unwind_active]
    exact .refl _
  | @next k queue waiting memory memory' deed notes failure performed returned others ih =>
    obtain ⟨f', hf', hstep, hfirst⟩ := runs_first family hf k queue memory a performed
    have hreply : deed.reply = .returned .done := by rw [Deed.reply, returned]
    rw [hreply] at hfirst
    obtain ⟨r, hr, hothers⟩ := ih hf' .done
    refine ⟨r, hr, Runs.head (List.cons_ne_nil _ _) rfl ?_⟩
    rw [hstep]
    exact hfirst.trans hothers

/-- What comes to its end has run one continuation after the other. -/
theorem exists_works (family : Family κ μ ε) (hf : Pumps mode f) {steps : Nat} (queue : List κ)
    (memory : μ) (a : Answer) (hend : (family.machine.run steps
      ⟨(active mode queue, memory), [.own f], .returned a⟩).stack = []) :
    ∃ notes waiting memory' failure, Works family queue memory notes waiting memory' failure := by
  -- A turn of the loop takes as many steps as its continuation, so the run is cut behind it.
  induction steps using Nat.strongRecOn generalizing f queue memory a with
  | ind steps ih =>
    cases queue with
    | nil => exact ⟨_, _, _, _, .idle⟩
    | cons k queue =>
      cases hfailure : ((family k).perform memory).failure with
      | some e => exact ⟨_, _, _, _, .failed rfl hfailure⟩
      | none =>
        obtain ⟨f', hf', hstep, hfirst⟩ := runs_first family hf k queue memory a rfl
        rw [Deed.reply, hfailure] at hfirst
        cases steps with
        | zero => cases hend
        | succ steps =>
          rw [Machine.run_succ (List.cons_ne_nil _ _), hstep] at hend
          obtain ⟨n, hn, hrest⟩ := hfirst.remaining hend
          obtain ⟨notes, waiting, memory', failure, others⟩ :=
            ih n (Nat.lt_succ_of_le hn) hf' _ _ _ hrest
          exact ⟨_, _, _, _, .next rfl hfailure others⟩

/-- What waited and what was left is started in this order, up to what still waits. -/
theorem Works.firstInFirstOut (h : Works family queue memory notes waiting memory' failure) :
    queue ++ leftIn notes = startedIn notes ++ waiting := by
  induction h with
  | idle => rfl
  | @failed k queue memory deed e performed failed =>
    rw [leftIn_story, startedIn_story]
    rfl
  | @next k queue waiting memory memory' deed notes failure performed returned others ih =>
    rw [leftIn_append, startedIn_append, leftIn_story, startedIn_story, List.append_assoc, ← ih]
    simp

/-- Of a queue one continuation is run after the other, each to its end. -/
theorem Works.serial (h : Works family queue memory notes waiting memory' failure) :
    Serial notes := by
  induction h with
  | idle => exact .nil
  | failed performed failed => exact .story _ _
  | next performed returned others ih => exact (Serial.story _ _).append ih

/-! ## One call after the other -/

/-- A continuation is left from outside and run with all that waits: what happens meanwhile, and
the error that comes back. -/
def Turn (family : Family κ μ ε) (mode : YieldMode) (s : YieldPoint κ × μ) (k : κ)
    (notes : List (Note κ ε)) (failure : Option ε) (s' : YieldPoint κ × μ) : Prop :=
  ∃ r, error? r = failure ∧
    Runs family.machine note ⟨s, calls mode k, .returned default⟩ notes ⟨s', [], r⟩

/-- Continuations are left from outside, each one when the one before has come back. -/
inductive Course (family : Family κ μ ε) (mode : YieldMode) : YieldPoint κ × μ → List κ →
    List (List (Note κ ε) × Option ε) → YieldPoint κ × μ → Prop where
  | done {s : YieldPoint κ × μ} : Course family mode s [] [] s
  | next {s s₁ s' : YieldPoint κ × μ} {k : κ} {ks : List κ} {notes : List (Note κ ε)}
    {failure : Option ε} {turns : List (List (Note κ ε) × Option ε)}
    (turn : Turn family mode s k notes failure s₁) (others : Course family mode s₁ ks turns s') :
    Course family mode s (k :: ks) ((notes, failure) :: turns) s'

/-- Continuations are put behind a queue, each one when the queue was worked off or one failed. -/
inductive Rounds (family : Family κ μ ε) : List κ → μ → List κ →
    List (List (Note κ ε) × Option ε) → List κ → μ → Prop where
  | done {queue : List κ} {memory : μ} : Rounds family queue memory [] [] queue memory
  | next {k : κ} {ks queue queue₁ waiting : List κ} {memory memory₁ memory' : μ}
    {notes : List (Note κ ε)} {failure : Option ε} {turns : List (List (Note κ ε) × Option ε)}
    (works : Works family (queue ++ [k]) memory notes queue₁ memory₁ failure)
    (others : Rounds family queue₁ memory₁ ks turns waiting memory') :
    Rounds family queue memory (k :: ks) ((.left k :: notes, failure) :: turns) waiting memory'

theorem turn_iff {s' : YieldPoint κ × μ} :
    Turn family mode (resting mode queue, memory) k notes failure s' ↔
      ∃ notes' waiting memory', notes = .left k :: notes' ∧ s' = (resting mode waiting, memory') ∧
        Works family (queue ++ [k]) memory notes' waiting memory' failure := by
  obtain ⟨f, hf, hcalls⟩ := runs_calls family mode queue memory k
  have hturn : ∀ {notes waiting memory' failure},
      Works family (queue ++ [k]) memory notes waiting memory' failure →
        Turn family mode (resting mode queue, memory) k (.left k :: notes) failure
          (resting mode waiting, memory') := by
    intro notes waiting memory' failure works
    obtain ⟨r, hr, hruns⟩ := works.runs hf default
    exact ⟨r, hr, hcalls.trans hruns⟩
  constructor
  · rintro ⟨r, hr, hruns⟩
    obtain ⟨steps, hsteps, -⟩ := id hruns
    obtain ⟨n, -, hend⟩ := hcalls.remaining (congrArg Config.stack hsteps)
    obtain ⟨notes', waiting, memory', failure', works⟩ := exists_works family hf _ _ _ hend
    obtain ⟨r', hr', hruns'⟩ := hturn works
    obtain ⟨rfl, hc⟩ := Runs.unique hruns hruns' rfl rfl
    cases hc
    exact ⟨notes', waiting, memory', rfl, rfl, hr ▸ hr' ▸ works⟩
  · rintro ⟨notes', waiting, memory', rfl, rfl, works⟩
    exact hturn works

theorem course_iff {turns : List (List (Note κ ε) × Option ε)} {s' : YieldPoint κ × μ} :
    Course family mode (resting mode queue, memory) ks turns s' ↔
      ∃ waiting memory', s' = (resting mode waiting, memory') ∧
        Rounds family queue memory ks turns waiting memory' := by
  constructor
  · intro h
    induction ks generalizing queue memory turns with
    | nil =>
      cases h with
      | done => exact ⟨queue, memory, rfl, .done⟩
    | cons k ks ih =>
      cases h with
      | next turn others =>
        obtain ⟨notes', queue₁, memory₁, rfl, rfl, works⟩ := turn_iff.mp turn
        obtain ⟨waiting, memory', rfl, rounds⟩ := ih others
        exact ⟨waiting, memory', rfl, .next works rounds⟩
  · rintro ⟨waiting, memory', rfl, rounds⟩
    induction rounds with
    | done => exact .done
    | next works others ih => exact .next (turn_iff.mpr ⟨_, _, _, rfl, rfl, works⟩) ih

/-- What happens in all turns. -/
def notesOf (turns : List (List (Note κ ε) × Option ε)) : List (Note κ ε) := turns.flatMap (·.1)

variable {turns : List (List (Note κ ε) × Option ε)}

theorem Rounds.firstInFirstOut (h : Rounds family queue memory ks turns waiting memory') :
    queue ++ leftIn (notesOf turns) = startedIn (notesOf turns) ++ waiting := by
  induction h with
  | done => exact List.append_nil _
  | @next k ks queue queue₁ waiting memory memory₁ memory' notes failure turns works others ih =>
    have hturns : notesOf ((.left k :: notes, failure) :: turns) =
        [.left k] ++ notes ++ notesOf turns := rfl
    calc queue ++ leftIn (notesOf ((.left k :: notes, failure) :: turns))
        = queue ++ [k] ++ leftIn notes ++ leftIn (notesOf turns) := by
          rw [hturns, leftIn_append, leftIn_append, List.append_assoc, List.append_assoc,
            List.append_assoc]
          rfl
      _ = startedIn notes ++ (queue₁ ++ leftIn (notesOf turns)) := by
          rw [works.firstInFirstOut, List.append_assoc]
      _ = startedIn (notesOf ((.left k :: notes, failure) :: turns)) ++ waiting := by
          rw [ih, hturns, startedIn_append, startedIn_append, ← List.append_assoc]
          rfl

theorem Rounds.serial (h : Rounds family queue memory ks turns waiting memory') :
    Serial (notesOf turns) := by
  induction h with
  | done => exact .nil
  | next works others ih => exact ((Serial.left _).append works.serial).append ih

/-- An immediate yield point does what a manual one does that runs all that waits whenever a
continuation was left from outside.  Either both come to an end or none does; the same continuations
are left, started and done in the same order, the same errors come back, and in the end the same
ones wait.  At both none starts while another is under way, and the first one in is the first one
out. -/
theorem immediate_like_manual (family : Family κ μ ε) (queue : List κ) (memory : μ) (ks : List κ)
    (turns : List (List (Note κ ε) × Option ε)) :
    (∀ waiting memory',
      Course family .immediate (resting .immediate queue, memory) ks turns
          (resting .immediate waiting, memory') ↔
        Course family .manual (resting .manual queue, memory) ks turns
          (resting .manual waiting, memory')) ∧
    ∀ mode s', Course family mode (resting mode queue, memory) ks turns s' →
      s'.1 = resting mode s'.1.waiting ∧ Serial (notesOf turns) ∧
      queue ++ leftIn (notesOf turns) = startedIn (notesOf turns) ++ s'.1.waiting := by
  have hcourse : ∀ mode waiting memory', Course family mode (resting mode queue, memory) ks turns
      (resting mode waiting, memory') ↔ Rounds family queue memory ks turns waiting memory' := by
    intro mode waiting memory'
    constructor
    · intro h
      obtain ⟨waiting', memory', heq, rounds⟩ := course_iff.mp h
      cases heq
      exact rounds
    · exact fun rounds => course_iff.mpr ⟨waiting, memory', rfl, rounds⟩
  refine ⟨fun waiting memory' => (hcourse _ _ _).trans (hcourse _ _ _).symm, fun mode s' h => ?_⟩
  obtain ⟨waiting, memory', rfl, rounds⟩ := course_iff.mp h
  exact ⟨rfl, rounds.serial, rounds.firstInFirstOut⟩

/-- Continuations that leave others; one of them fails when it has left another. -/
def relays : Family Nat Nat String
  | 0 => .defer 1 (.defer 2 (.defer 3 .done))
  | 1 => .defer 4 (.remember 7 .done)
  | 2 => .defer 5 (.fail "no more")
  | 3 => .look fun memory => .defer memory .done
  | _ => .done

/-- A failure leaves three continuations behind, which are run before one that is left later. -/
def relayed : List (List (Note Nat String) × Option String) :=
  [([.left 0, .started 0, .left 1, .left 2, .left 3, .ended 0, .started 1, .left 4, .ended 1,
      .started 2, .left 5, .failed 2 "no more"], some "no more"),
    ([.left 6, .started 3, .left 7, .ended 3, .started 4, .ended 4, .started 5, .ended 5,
      .started 6, .ended 6, .started 7, .ended 7], none)]

theorem immediate_like_manual_relays :
    Course relays .immediate (resting .immediate [], 0) [0, 6] relayed
      (resting .immediate [], 7) ∧
    Course relays .manual (resting .manual [], 0) [0, 6] relayed (resting .manual [], 7) ∧
    Serial (notesOf relayed) := by
  obtain ⟨hlike, hserial⟩ := immediate_like_manual relays [] 0 [0, 6] relayed
  have himmediate : Course relays .immediate (resting .immediate [], 0) [0, 6] relayed
      (resting .immediate [], 7) :=
    .next ⟨.raised "no more", rfl, .ended (n := 40) rfl rfl⟩
      (.next ⟨.returned .done, rfl, .ended (n := 40) rfl rfl⟩ .done)
  obtain ⟨-, honce, -⟩ := hserial _ _ himmediate
  exact ⟨himmediate, (hlike _ _).mp himmediate, honce⟩

end LiveForm.YieldPoint
