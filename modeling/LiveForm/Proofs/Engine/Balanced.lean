import LiveForm.Engine.Run
import LiveForm.Proofs.Engine.Coherent

/-!
# The stack of a drain

At any moment the frames on the stack account for what the scheduler says: it is draining exactly
if one frame or one continuation stands for the drain, its yield point is running exactly if one
frame is its loop, and a batch is in flight only below a frame that goes on with it.
-/

namespace LiveForm.Engine

/-- A configuration of the engine in its surroundings. -/
abbrev Running := Config Engine (Activity Frame Ask) Response EngineError

/-! ## Kinds of frames -/

/-- The frame stands for a drain. -/
def isDrain : Activity Frame Ask → Bool
  | .own (.queue (.begin _)) | .own (.queue (.batch _ _)) | .own (.queue (.next _)) => true
  | _ => false

/-- The frame goes on with a batch. -/
def isBatch : Activity Frame Ask → Bool
  | .own (.queue (.batch _ _)) => true
  | _ => false

/-- The frame is the loop of the yield point. -/
def isLoop : Activity Frame Ask → Bool
  | .own (.queue (.yielding .loop)) => true
  | _ => false

/-- No drain is on top that begins a batch or goes on behind one. -/
def Settled : List (Activity Frame Ask) → Prop
  | .own (.queue (.begin _)) :: _ | .own (.queue (.next _)) :: _ | .own .batchDone :: _ => False
  | _ => True

/-- A failure may come to the frame on top at any time. -/
def Exposed : List (Activity Frame Ask) → Prop
  | .own (.queue (.begin _)) :: _ | .own (.queue (.next _)) :: _ |
    .own .batchDone :: _ | .own (.queue (.yielding .loop)) :: _ => False
  | _ => True

/-- What must be below a frame. -/
def Fits (below : List (Activity Frame Ask)) : Activity Frame Ask → Prop
  | .own (.process _) | .own (.propagate _) =>
    ∃ taken rest, below = .own (.queue (.batch true taken)) :: rest
  | .own .batchDone => ∃ rest, below = .own (.queue (.next true)) :: rest
  | .own (.queue (.begin reports)) | .own (.queue (.batch reports _)) |
    .own (.queue (.next reports)) => reports = true ∧ Settled below
  | .own (.queue (.yielding .loop)) | .own (.listeners ..) => Settled below
  | .own .complete => False
  | _ => Exposed below

/-- Every frame fits to what is below it. -/
def Nested : List (Activity Frame Ask) → Prop
  | [] => True
  | f :: below => Fits below f ∧ Nested below

/-- The frames account for the state of the scheduler. -/
structure Balanced (s : Scheduler) (phase : Phase) (stack : List (Activity Frame Ask)) :
    Prop where
  drains : s.draining.toNat = stack.countP isDrain + s.yieldPoint.waiting.length
  loops : s.yieldPoint.running.toNat = stack.countP isLoop
  waits : s.yieldPoint.mode = .immediate → s.yieldPoint.waiting ≠ [] →
    s.yieldPoint.running = true
  reports : ∀ k ∈ s.yieldPoint.waiting, k = true
  flight : s.inFlight ≠ [] → 0 < stack.countP isBatch
  nested : Nested stack
  evaluating : s.yieldPoint.mode = .immediate → s.draining = true → phase = .evaluating
  queued : s.yieldPoint.mode = .immediate → s.queue.entries ≠ [] → phase = .evaluating

/-- The cycle was broken off, and the drain is about to end. -/
def Ending (c : Running) : Prop :=
  c.state.scheduler.queue.entries = [] ∧ c.state.scheduler.inFlight = [] ∧
    (∃ r, c.reply = .returned r) ∧
    ∃ f below, c.stack = f :: below ∧ (isDrain f = true ∨ f = .own .batchDone)

/-- What holds of every configuration: the stack is balanced, and a cycle that was broken off ends
before anything else happens; the frame that completes a cycle is on top. -/
inductive Steady (c : Running) : Prop where
  | going (balanced : Balanced c.state.scheduler c.state.phase c.stack)
    (running : c.state.halted = false)
    (failing : ∀ err, c.reply = .raised err →
      Exposed c.stack ∨ Settled c.stack ∧ c.state.scheduler.yieldPoint.waiting = [])
  | ending (balanced : Balanced c.state.scheduler c.state.phase c.stack) (ending : Ending c)
  | completing (below : List (Activity Frame Ask)) (stack : c.stack = .own .complete :: below)
    (balanced : Balanced c.state.scheduler c.state.phase below) (settled : Settled below)
    (done : c.state.scheduler.draining = false) (empty : c.state.scheduler.queue.entries = [])
    (flight : c.state.scheduler.inFlight = []) (returned : ∃ r, c.reply = .returned r)

/-- A configuration goes on after an answer. -/
theorem Steady.returning {c : Running} {r : Response}
    (balanced : Balanced c.state.scheduler c.state.phase c.stack)
    (running : c.state.halted = false) (hr : c.reply = .returned r) : Steady c :=
  .going balanced running fun err he => by
    rw [hr] at he
    cases he

/-- A configuration goes on where any failure may come. -/
theorem Steady.exposed {c : Running} (balanced : Balanced c.state.scheduler c.state.phase c.stack)
    (running : c.state.halted = false) (hs : Exposed c.stack) : Steady c :=
  .going balanced running fun _ _ => Or.inl hs

theorem Exposed.settled {stack : List (Activity Frame Ask)} (h : Exposed stack) :
    Settled stack := by
  unfold Settled
  split
  · exact h
  · exact h
  · exact h
  · trivial

/-! ## Light frames -/

/-- The frame stands for nothing that the scheduler knows of. -/
def Light (f : Activity Frame Ask) : Prop := isDrain f = false ∧ isLoop f = false

theorem isDrain_of_isBatch {f : Activity Frame Ask} (h : isBatch f = true) : isDrain f = true := by
  unfold isBatch at h
  split at h
  · rfl
  · cases h

theorem Light.isBatch {f : Activity Frame Ask} (h : Light f) : isBatch f = false := by
  by_contra hb
  have := isDrain_of_isBatch (Bool.not_eq_false _ ▸ hb)
  rw [h.1] at this
  cases this

namespace Balanced

variable {s : Scheduler} {phase : Phase} {f : Activity Frame Ask}
  {stack below : List (Activity Frame Ask)}

theorem pop (h : Balanced s phase (f :: below)) (hf : Light f) : Balanced s phase below where
  drains := by rw [h.drains, List.countP_cons_of_neg (by simp [hf.1])]
  loops := by rw [h.loops, List.countP_cons_of_neg (by simp [hf.2])]
  waits := h.waits
  reports := h.reports
  flight := fun hs => by
    have := h.flight hs
    rwa [List.countP_cons_of_neg (by simp [hf.isBatch])] at this
  nested := h.nested.2
  evaluating := h.evaluating
  queued := h.queued

theorem push (h : Balanced s phase below) (hf : Light f) (hfits : Fits below f) :
    Balanced s phase (f :: below) where
  drains := by rw [h.drains, List.countP_cons_of_neg (by simp [hf.1])]
  loops := by rw [h.loops, List.countP_cons_of_neg (by simp [hf.2])]
  waits := h.waits
  reports := h.reports
  flight := fun hs => by
    rw [List.countP_cons_of_neg (by simp [hf.isBatch])]
    exact h.flight hs
  nested := ⟨hfits, h.nested⟩
  evaluating := h.evaluating
  queued := h.queued

/-- In a drain the phase says so. -/
theorem of_phase (h : Balanced s phase below) {phase' : Phase}
    (hp : phase = .evaluating → phase' = .evaluating) : Balanced s phase' below :=
  { h with
    evaluating := fun hm hd => hp (h.evaluating hm hd)
    queued := fun hm hq => hp (h.queued hm hq) }

/-- Nothing accounts for the entries that wait but the phase. -/
theorem of_queue (h : Balanced s .evaluating below) (queue : UpdateQueue) :
    Balanced { s with queue } .evaluating below :=
  { h with queued := fun _ _ => rfl }

end Balanced

/-! ## A drain without its frame -/

/-- A drain is going on, and its frame was just taken from the stack. -/
structure Between (s : Scheduler) (phase : Phase) (below : List (Activity Frame Ask)) :
    Prop where
  settled : Settled below
  draining : s.draining = true
  alone : below.countP isDrain = 0
  waiting : s.yieldPoint.waiting = []
  loops : s.yieldPoint.running.toNat = below.countP isLoop
  nested : Nested below
  evaluating : s.yieldPoint.mode = .immediate → phase = .evaluating

theorem Balanced.between {s : Scheduler} {phase : Phase} {f : Activity Frame Ask}
    {below : List (Activity Frame Ask)} (h : Balanced s phase (f :: below))
    (hf : isDrain f = true) (hl : isLoop f = false) (hs : Settled below) :
    Between s phase below := by
  have hd := h.drains
  rw [List.countP_cons_of_pos hf] at hd
  have hle := Bool.toNat_le s.draining
  have hdraining : s.draining = true := by
    by_contra hn
    rw [Bool.not_eq_true _ |>.mp hn] at hd
    simp only [Bool.toNat_false] at hd
    omega
  refine ⟨hs, hdraining, by omega, List.length_eq_zero_iff.mp (by omega), ?_, h.nested.2,
    fun hm => h.evaluating hm hdraining⟩
  rw [h.loops, List.countP_cons_of_neg (by simp [hl])]

namespace Between

variable {s : Scheduler} {phase : Phase} {below : List (Activity Frame Ask)}

theorem countP_isBatch (h : Between s phase below) : below.countP isBatch = 0 := by
  have hle : below.countP isBatch ≤ below.countP isDrain :=
    List.countP_mono_left fun f _ hf => isDrain_of_isBatch hf
  rw [h.alone] at hle
  omega

/-- With a frame of the drain the stack is balanced again. -/
theorem push (h : Between s phase below) {f : Activity Frame Ask} (hf : isDrain f = true)
    (hl : isLoop f = false) (hfits : Fits below f) (hb : s.inFlight ≠ [] → isBatch f = true) :
    Balanced s phase (f :: below) where
  drains := by rw [h.draining, List.countP_cons_of_pos hf, h.alone, h.waiting]; rfl
  loops := by rw [h.loops, List.countP_cons_of_neg (by simp [hl])]
  waits := fun _ hw => absurd h.waiting hw
  reports := fun k hk => by
    rw [h.waiting] at hk
    cases hk
  flight := fun hs => by
    rw [List.countP_cons_of_pos (hb hs)]
    exact Nat.succ_pos _
  nested := ⟨hfits, h.nested⟩
  evaluating := fun hm _ => h.evaluating hm
  queued := fun hm _ => h.evaluating hm

/-- When the drain is over nothing is left of it. -/
theorem done (h : Between s phase below) (hf : s.inFlight = []) :
    Balanced { s with draining := false } phase below where
  drains := by rw [h.alone, h.waiting]; rfl
  loops := h.loops
  waits := fun _ hw => absurd h.waiting hw
  reports := fun k hk => by
    rw [h.waiting] at hk
    cases hk
  flight := fun hs => absurd hf hs
  nested := h.nested
  evaluating := fun _ hd => by cases hd
  queued := fun hm _ => h.evaluating hm

/-- The drain may be left to a yield point that runs, or that is run by hand. -/
theorem left (h : Between s phase below) (hf : s.inFlight = [])
    (hr : s.yieldPoint.mode = .immediate → s.yieldPoint.running = true) :
    Balanced { s with yieldPoint := { s.yieldPoint with waiting := [true] } } phase below where
  drains := by
    rw [h.draining, h.alone]
    rfl
  loops := h.loops
  waits := fun hm _ => hr hm
  reports := fun k hk => List.mem_singleton.mp hk
  flight := fun hs => absurd hf hs
  nested := h.nested
  evaluating := fun hm _ => h.evaluating hm
  queued := fun hm _ => h.evaluating hm

theorem enter (h : Between s phase below) (hr : s.yieldPoint.running = false) :
    Between { s with yieldPoint := { s.yieldPoint with running := true } } phase
      (.own (.queue (.yielding .loop)) :: below) where
  settled := trivial
  draining := h.draining
  alone := by
    rw [List.countP_cons_of_neg (by simp [isDrain])]
    exact h.alone
  waiting := h.waiting
  loops := by
    have hl := h.loops
    rw [hr] at hl
    rw [List.countP_cons_of_pos rfl, ← hl]
    rfl
  nested := ⟨h.settled, h.nested⟩
  evaluating := h.evaluating

end Between

namespace Balanced

variable {s : Scheduler} {phase : Phase} {below : List (Activity Frame Ask)}

/-- A continuation that waits may go on as a frame. -/
theorem takeUp (h : Balanced s phase below) {k : Bool} {rest : List Bool}
    (hw : s.yieldPoint.waiting = k :: rest) (hs : Settled below) :
    Balanced { s with yieldPoint := { s.yieldPoint with waiting := rest } } phase
      (.own (.queue (.begin k)) :: below) where
  drains := by
    rw [List.countP_cons_of_pos rfl]
    have := h.drains
    rw [hw, List.length_cons] at this
    dsimp only
    omega
  loops := by
    rw [List.countP_cons_of_neg (by simp [isLoop])]
    exact h.loops
  waits := fun hm _ => h.waits hm (by rw [hw]; exact List.cons_ne_nil _ _)
  reports := fun k hk => h.reports k (by rw [hw]; exact List.mem_cons_of_mem _ hk)
  flight := fun hs => by
    rw [List.countP_cons_of_neg (by simp [isBatch])]
    exact h.flight hs
  nested := ⟨⟨h.reports k (by rw [hw]; exact List.mem_cons_self), hs⟩, h.nested⟩
  evaluating := h.evaluating
  queued := h.queued

/-- A new drain begins with a frame. -/
theorem start (h : Balanced s phase below) (hd : s.draining = false) (hs : Settled below) :
    Balanced { s with draining := true } .evaluating (.own (.queue (.begin true)) :: below) where
  drains := by
    rw [List.countP_cons_of_pos rfl]
    have := h.drains
    rw [hd, Bool.toNat_false] at this
    dsimp only
    rw [Bool.toNat_true]
    omega
  loops := by
    rw [List.countP_cons_of_neg (by simp [isLoop])]
    exact h.loops
  waits := h.waits
  reports := h.reports
  flight := fun hs => by
    rw [List.countP_cons_of_neg (by simp [isBatch])]
    exact h.flight hs
  nested := ⟨⟨rfl, hs⟩, h.nested⟩
  evaluating := fun _ _ => rfl
  queued := fun _ _ => rfl

/-- The loop of a yield point at which nothing waits may end. -/
theorem leave (h : Balanced s phase (.own (.queue (.yielding .loop)) :: below))
    (hw : s.yieldPoint.waiting = []) :
    Balanced { s with yieldPoint := { s.yieldPoint with running := false } } phase below where
  drains := by
    have := h.drains
    rwa [List.countP_cons_of_neg (by simp [isDrain])] at this
  loops := by
    have hl := h.loops
    rw [List.countP_cons_of_pos rfl] at hl
    have hle := Bool.toNat_le s.yieldPoint.running
    rw [Bool.toNat_false]
    omega
  waits := fun _ hn => absurd hw hn
  reports := h.reports
  flight := fun hs => by
    have := h.flight hs
    rwa [List.countP_cons_of_neg (by simp [isBatch])] at this
  nested := h.nested.2
  evaluating := h.evaluating
  queued := h.queued

end Balanced

/-! ## Moves of the scheduler -/

open Machine (after)

variable {e : Engine} {below : List (Activity Frame Ask)}

/-- Behind a batch the drain ends, or leaves the next batch to the yield point. -/
theorem steady_goOn (h : Between e.scheduler e.phase below) (hf : e.scheduler.inFlight = [])
    (hh : e.halted = true → e.scheduler.queue.entries = []) :
    Steady (after below (e.ofScheduler (e.scheduler.goOn true))) := by
  unfold Scheduler.goOn
  by_cases hq : e.scheduler.queue.entries.isEmpty = true
  · rw [if_pos hq]
    exact .completing below rfl (h.done hf) h.settled rfl (List.isEmpty_iff.mp hq) hf ⟨_, rfl⟩
  · rw [if_neg hq]
    have hrunning : e.halted = false := by
      by_contra hn
      exact hq (by rw [hh (Bool.not_eq_false _ ▸ hn)]; rfl)
    unfold YieldPoint.defer
    dsimp only
    rw [h.waiting, List.nil_append]
    -- Run by hand, the yield point keeps the batch; else its loop takes it up
    split
    · next hmode =>
      exact .returning (h.left hf fun hm => by rw [hmode] at hm; cases hm) hrunning rfl
    · next hmode =>
      split
      · next hr => exact .returning (h.left hf fun _ => hr) hrunning rfl
      · next hr =>
        have hr' : e.scheduler.yieldPoint.running = false := by simpa using hr
        exact .returning ((h.enter hr').left hf fun _ => rfl) hrunning rfl

/-- A drain hands out an update, or ends its batch. -/
theorem steady_handOut (h : Between e.scheduler e.phase below) {taken : List QueueEntry}
    (hh : e.halted = true → e.scheduler.queue.entries = [] ∧ e.scheduler.inFlight = []) :
    Steady (after below (e.ofScheduler (e.scheduler.handOut true taken))) := by
  unfold Scheduler.handOut
  split
  · next entry rest hf =>
    have hrunning : e.halted = false := by
      by_contra hn
      have := (hh (Bool.not_eq_false _ ▸ hn)).2
      rw [hf] at this
      cases this
    have hb : Between { e.scheduler with inFlight := rest } e.phase below := { h with }
    have hpush := hb.push (f := .own (.queue (.batch true taken))) rfl rfl ⟨rfl, h.settled⟩
      fun _ => rfl
    exact .returning (hpush.push (f := .own (.process entry)) ⟨rfl, rfl⟩ ⟨taken, below, rfl⟩)
      hrunning rfl
  · next hf =>
    split
    · have hpush := h.push (f := .own (.queue (.next true))) rfl rfl ⟨rfl, h.settled⟩
        fun hn => absurd hf hn
      have hbalanced := hpush.push (f := .own .batchDone) ⟨rfl, rfl⟩ ⟨below, rfl⟩
      cases hn : e.halted with
      | true => exact .ending hbalanced ⟨(hh hn).1, hf, ⟨_, rfl⟩, _, _, rfl, Or.inr rfl⟩
      | false => exact .returning hbalanced hn rfl
    · exact steady_goOn h hf fun hn => (hh hn).1

/-- A drain starts when entries were enqueued, unless one is going on. -/
theorem steady_drain {s : Scheduler} (h : Balanced s e.phase below) (hbelow : Settled below)
    (hs : e.scheduler = { s with queue := e.scheduler.queue }) (hh : e.halted = false) :
    Steady (after below e.drain) := by
  have hdraining : e.scheduler.draining = s.draining := by rw [hs]
  unfold drain Scheduler.drain
  by_cases hd : e.scheduler.draining = true
  · have hevaluating := fun hm => h.evaluating hm (hdraining ▸ hd)
    simp only [hd, if_true]
    refine .returning ?_ hh rfl
    show Balanced e.scheduler e.phase below
    rw [hs]
    exact { h with queued := fun hm _ => hevaluating hm }
  · simp only [hd, Bool.false_eq_true, if_false]
    refine .returning ?_ hh rfl
    show Balanced { e.scheduler with draining := true } .evaluating _
    rw [hs]
    rw [hdraining, Bool.not_eq_true] at hd
    exact (h.start hd hbelow).of_queue _

/-- At a yield point the continuation that has waited longest goes on, with a frame below it. -/
theorem steady_takeUp (f : YieldPoint.Frame) (otherwise : YieldPoint.Move Bool EngineError)
    (h : Balanced e.scheduler e.phase (.own (.queue (.yielding f)) :: below))
    (hh : e.halted = false) (ho : e.scheduler.yieldPoint.waiting = [] →
      Steady (after below (e.ofScheduler (e.scheduler.ofYield otherwise)))) :
    Steady (after below
      (e.ofScheduler (e.scheduler.ofYield (e.scheduler.yieldPoint.runNextThen f otherwise)))) := by
  unfold YieldPoint.runNextThen
  split
  · next hw => exact ho hw
  · next k rest hw => exact .returning (h.takeUp hw trivial) hh rfl

/-- The steps that the frames of the scheduler take. -/
theorem steady_queue {f : Scheduler.Frame}
    (h : Balanced e.scheduler e.phase (.own (.queue f) :: below))
    (hh : e.halted = true → isDrain (.own (.queue f)) = true ∧
      e.scheduler.queue.entries = [] ∧ e.scheduler.inFlight = []) :
    Steady (after below (e.ofScheduler (e.scheduler.resume f))) := by
  cases f with
  | begin reports =>
    obtain ⟨rfl, hs⟩ : reports = true ∧ Settled below := h.nested.1
    have hb := h.between rfl rfl hs
    refine steady_handOut (e := { e with scheduler :=
      { (e.scheduler.takeBatch none).2 with inFlight := (e.scheduler.takeBatch none).1 } })
      { hb with } fun hn => ?_
    obtain ⟨hqueue, hflight⟩ := Scheduler.takeBatch_of_empty (hh hn).2.1
    exact ⟨hqueue, hflight⟩
  | batch reports taken =>
    obtain ⟨rfl, hs⟩ : reports = true ∧ Settled below := h.nested.1
    exact steady_handOut (h.between rfl rfl hs) fun hn => (hh hn).2
  | next reports =>
    obtain ⟨rfl, hs⟩ : reports = true ∧ Settled below := h.nested.1
    have hb := h.between rfl rfl hs
    refine steady_goOn hb ?_ fun hn => (hh hn).2.1
    -- What is in flight would need a batch on the stack, and there is no other frame of the drain
    by_contra hf
    have := h.flight hf
    rw [List.countP_cons_of_neg (by simp [isBatch]), hb.countP_isBatch] at this
    cases this
  | yielding f =>
    have hrunning : e.halted = false := by
      by_contra hn
      exact absurd (hh (Bool.not_eq_false _ ▸ hn)).1 (by cases f <;> simp [isDrain])
    cases f with
    | loop => exact steady_takeUp .loop (.ret _ .done) h hrunning fun hw =>
        .returning (h.leave hw) hrunning rfl
    | ran => exact .returning (h.pop ⟨rfl, rfl⟩) hrunning rfl
    | pump n =>
      have hpop := h.pop ⟨rfl, rfl⟩
      exact steady_takeUp (.pump (n + 1)) (.ret _ (.count n)) (hpop.push ⟨rfl, rfl⟩ h.nested.1)
        hrunning fun _ => .returning hpop hrunning rfl

end LiveForm.Engine
