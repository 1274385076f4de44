import LiveForm.Proofs.Schedule.Ledger

/-!
# One batch at a time

Whatever the surroundings do to a scheduler while it asks them something, no second batch begins
beside the one that is going on: a drain is under way exactly as long as there is a frame of its
batch or a continuation that will begin the next one.  So nothing waits in a running batch but while
its updates are handed out, and the loop of the yield point does not nest.
-/

namespace LiveForm.Scheduler

open Machine (after)

variable {ε : Type} {s : Scheduler} {stack below : List (Activity Frame Ask)}

/-! ## Frames -/

/-- A frame of a batch. -/
def isSlice : Activity Frame Ask → Bool
  | .own (.begin _) | .own (.batch _ _) | .own (.next _) => true
  | _ => false

/-- A frame that hands out the updates of a batch. -/
def isBatch : Activity Frame Ask → Bool
  | .own (.batch _ _) => true
  | _ => false

/-- A loop of the yield point. -/
def isLoop : Activity Frame Ask → Bool
  | .own (.yielding .loop) => true
  | _ => false

theorem isSlice_of_isBatch {f : Activity Frame Ask} (h : isBatch f = true) : isSlice f = true := by
  unfold isBatch at h
  split at h
  · rfl
  · cases h

theorem countP_isBatch_le (stack : List (Activity Frame Ask)) :
    stack.countP isBatch ≤ stack.countP isSlice :=
  List.countP_mono_left fun _ _ => isSlice_of_isBatch

/-- What is going on about a scheduler is what its frames say. -/
structure Single (s : Scheduler) (stack : List (Activity Frame Ask)) : Prop where
  one : stack.countP isSlice + s.yieldPoint.waiting.length ≤ s.draining.toNat
  flight : s.inFlight ≠ [] → 0 < stack.countP isBatch
  loops : stack.countP isLoop = s.yieldPoint.running.toNat

theorem single_create (batchSize : Nat) (maxQueue : Int) (mode : YieldMode) :
    Single (create batchSize maxQueue mode) [] :=
  ⟨Nat.le_refl _, fun h => absurd rfl h, rfl⟩

/-- A frame that is not of a batch and no loop does not matter. -/
theorem single_cons {a : Activity Frame Ask} (ha : isSlice a = false) (hl : isLoop a = false) :
    Single s (a :: stack) ↔ Single s stack := by
  have hb : isBatch a = false := Bool.eq_false_iff.mpr fun h => by
    rw [isSlice_of_isBatch h] at ha
    cases ha
  have hslices : (a :: stack).countP isSlice = stack.countP isSlice :=
    List.countP_cons_of_neg (by simp [ha])
  have hbatches : (a :: stack).countP isBatch = stack.countP isBatch :=
    List.countP_cons_of_neg (by simp [hb])
  have hloops : (a :: stack).countP isLoop = stack.countP isLoop :=
    List.countP_cons_of_neg (by simp [hl])
  constructor
  · rintro ⟨hone, hflight, hl⟩
    exact ⟨hslices ▸ hone, hbatches ▸ hflight, hloops ▸ hl⟩
  · rintro ⟨hone, hflight, hl⟩
    exact ⟨hslices.symm ▸ hone, hbatches.symm ▸ hflight, hloops.symm ▸ hl⟩

/-- The frames below the only one of a batch. -/
structure Alone (s : Scheduler) (below : List (Activity Frame Ask)) : Prop where
  slices : below.countP isSlice = 0
  waiting : s.yieldPoint.waiting = []
  draining : s.draining = true
  loops : below.countP isLoop = s.yieldPoint.running.toNat

namespace Single

theorem alone {a : Activity Frame Ask} (h : Single s (a :: below)) (ha : isSlice a = true) :
    Alone s below := by
  obtain ⟨hone, -, hloops⟩ := h
  have hloop : isLoop a = false := by
    unfold isSlice at ha
    split at ha
    · rfl
    · rfl
    · rfl
    · cases ha
  rw [List.countP_cons_of_pos ha] at hone
  rw [List.countP_cons_of_neg (by simp [hloop])] at hloops
  have hle := s.draining.toNat_le
  refine ⟨by omega, ?_, ?_, hloops⟩
  · exact List.length_eq_zero_iff.mp (by omega)
  · cases hd : s.draining with
    | true => rfl
    | false =>
      rw [hd, Bool.toNat_false] at hone
      omega

/-- Without a frame of a batch nothing waits in a running one. -/
theorem inFlight (h : Single s stack) (hs : stack.countP isSlice = 0) : s.inFlight = [] := by
  by_contra hn
  have hle := countP_isBatch_le stack
  have hpos := h.flight hn
  omega

/-- Nothing waits in a running batch before its updates are handed out, nor behind it. -/
theorem inFlight_of_slice {a : Activity Frame Ask} (h : Single s (a :: below))
    (ha : isSlice a = true) (hb : isBatch a = false) : s.inFlight = [] := by
  have hslices := (h.alone ha).slices
  by_contra hn
  have hpos := h.flight hn
  rw [List.countP_cons_of_neg (by simp [hb])] at hpos
  have hle := countP_isBatch_le below
  omega

/-- Without a drain there is no frame of a batch, and no continuation waits. -/
theorem idle (h : Single s stack) (hd : s.draining = false) :
    stack.countP isSlice = 0 ∧ s.yieldPoint.waiting = [] := by
  obtain ⟨hone, -, -⟩ := h
  rw [hd, Bool.toNat_false] at hone
  exact ⟨by omega, List.length_eq_zero_iff.mp (by omega)⟩

/-- A loop does not stand on another one. -/
theorem loops_below (h : Single s (.own (.yielding .loop) :: below)) :
    below.countP isLoop = 0 := by
  have hloops := h.loops
  rw [List.countP_cons_of_pos rfl] at hloops
  have hle := s.yieldPoint.running.toNat_le
  omega

/-- Only the queue changes. -/
theorem withQueue (h : Single s stack) (queue : UpdateQueue) :
    Single { s with queue } stack :=
  ⟨h.one, h.flight, h.loops⟩

end Single

/-! ## Moves -/

namespace Alone

/-- A frame of the batch may take its own place. -/
theorem slice (h : Alone s below) {f : Frame} (hf : isSlice (.own f) = true)
    (hflight : s.inFlight ≠ [] → isBatch (.own f) = true) : Single s (.own f :: below) := by
  have hloop : isLoop (.own f) = false := by
    cases f with
    | yielding f => cases hf
    | begin _ | batch _ _ | next _ => rfl
  constructor
  · simp [List.countP_cons_of_pos hf, h.slices, h.waiting, h.draining]
  · intro hne
    rw [List.countP_cons_of_pos (hflight hne)]
    exact Nat.succ_pos _
  · rw [List.countP_cons_of_neg (by simp [hloop]), h.loops]

theorem goOn (h : Alone s below) (hflight : s.inFlight = []) (reports : Bool) :
    Single (after below (s.goOn reports : Move ε)).state
      (after below (s.goOn reports : Move ε)).stack := by
  have hdone : Single { s with draining := false } below := by
    constructor
    · simp [h.slices, h.waiting]
    · exact fun hn => absurd hflight hn
    · exact h.loops
  unfold Scheduler.goOn
  split
  · dsimp only
    split
    · exact (single_cons rfl rfl).mpr hdone
    · exact hdone
  · have hleft : ∀ running, below.countP isSlice +
        ({ s.yieldPoint with waiting := [reports], running } : YieldPoint Bool).waiting.length ≤
          s.draining.toNat := by
      intro running
      simp [h.slices, h.draining]
    unfold YieldPoint.defer
    rw [h.waiting]
    dsimp only
    split
    · exact ⟨hleft _, fun hn => absurd hflight hn, h.loops⟩
    · split
      · exact ⟨hleft _, fun hn => absurd hflight hn, h.loops⟩
      · next hrunning =>
        refine ⟨hleft true, fun hn => absurd hflight hn, ?_⟩
        show List.countP isLoop (.own (.yielding .loop) :: below) = 1
        rw [List.countP_cons_of_pos rfl, h.loops, Bool.eq_false_iff.mpr hrunning]
        rfl

theorem handOut (h : Alone s below) (reports : Bool) (taken : List QueueEntry) :
    Single (after below (s.handOut reports taken : Move ε)).state
      (after below (s.handOut reports taken : Move ε)).stack := by
  unfold Scheduler.handOut
  split
  · next e rest hflight =>
    have hrest : Alone { s with inFlight := rest } below :=
      ⟨h.slices, h.waiting, h.draining, h.loops⟩
    exact (single_cons rfl rfl).mpr (hrest.slice rfl fun _ => rfl)
  · next hflight =>
    split
    · exact (single_cons rfl rfl).mpr (h.slice rfl fun hn => absurd hflight hn)
    · exact h.goOn hflight reports

end Alone

namespace Single

/-- A continuation that is run begins the next batch. -/
theorem runNextThen {frame : YieldPoint.Frame} {otherwise : YieldPoint.Move Bool ε}
    (hframe : Single s (.own (.yielding frame) :: below))
    (ho : s.yieldPoint.waiting = [] → Single (after below (s.ofYield otherwise)).state
      (after below (s.ofYield otherwise)).stack) :
    Single (after below (s.ofYield (s.yieldPoint.runNextThen frame otherwise))).state
      (after below (s.ofYield (s.yieldPoint.runNextThen frame otherwise))).stack := by
  unfold YieldPoint.runNextThen
  split
  · next hwaiting => exact ho hwaiting
  · next reports rest hwaiting =>
    obtain ⟨hone, hflight, hloops⟩ := hframe
    constructor
    · rw [hwaiting, List.length_cons] at hone
      show List.countP isSlice (.own (.begin reports) :: .own (.yielding frame) :: below) +
        rest.length ≤ s.draining.toNat
      rw [List.countP_cons_of_pos rfl]
      omega
    · exact hflight
    · exact hloops

theorem drain (h : Single s stack) (reports : Bool) :
    Single (after stack (s.drain reports : Move ε)).state
      (after stack (s.drain reports : Move ε)).stack := by
  unfold Scheduler.drain
  split
  · exact h
  · next hd =>
    obtain ⟨hslices, hwaiting⟩ := h.idle (Bool.eq_false_iff.mpr hd)
    have halone : Alone { s with draining := true } stack := ⟨hslices, hwaiting, rfl, h.loops⟩
    exact halone.slice rfl fun hn => absurd (h.inFlight hslices) hn

theorem resume {f : Frame} (h : Single s (.own f :: below)) :
    Single (after below (s.resume f : Move ε)).state
      (after below (s.resume f : Move ε)).stack := by
  cases f with
  | begin reports =>
    obtain ⟨hslices, hwaiting, hdraining, hloops⟩ := h.alone rfl
    have htaken : Alone { (s.takeBatch none).2 with inFlight := (s.takeBatch none).1 } below :=
      ⟨hslices, hwaiting, hdraining, hloops⟩
    exact htaken.handOut reports _
  | batch reports taken => exact (h.alone rfl).handOut reports taken
  | next reports => exact (h.alone rfl).goOn (h.inFlight_of_slice rfl rfl) reports
  | yielding f =>
    cases f with
    | ran => exact (single_cons rfl rfl).mp h
    | pump n =>
      have hbelow : Single s below := (single_cons rfl rfl).mp h
      exact runNextThen ((single_cons rfl rfl).mpr hbelow) fun _ => hbelow
    | loop => exact runNextThen h fun _ => ⟨h.one, h.flight, h.loops_below⟩

theorem unwind {f : Frame} (h : Single s (.own f :: below)) : Single (s.unwind f) below := by
  cases f with
  | begin reports | next reports =>
    obtain ⟨hslices, hwaiting, hdraining, hloops⟩ := h.alone rfl
    refine ⟨?_, fun hn => absurd (h.inFlight_of_slice rfl rfl) hn, hloops⟩
    simp [Scheduler.unwind, hslices, hwaiting]
  | batch reports taken =>
    obtain ⟨hslices, hwaiting, -, hloops⟩ := h.alone rfl
    refine ⟨?_, fun hn => absurd rfl hn, hloops⟩
    simp [Scheduler.unwind, hslices, hwaiting]
  | yielding f =>
    cases f with
    | ran | pump n => exact (single_cons rfl rfl).mp h
    | loop => exact ⟨h.one, h.flight, h.loops_below⟩

end Single

/-! ## The end of a drain -/

/-- Nothing waits, neither in the queue nor in the running batch. -/
def Exhausted (s : Scheduler) : Prop := s.queue.entries = [] ∧ s.inFlight = []

/-- The yield point asks the surroundings of the scheduler nothing. -/
theorem count_ofYield (s : Scheduler) (m : YieldPoint.Move Bool ε) (k : Ask) :
    (after below (s.ofYield m)).stack.count (.ask k) = below.count (.ask k) := by
  match m with
  | .reply _ (.returned _) | .reply _ (.raised _) => rfl
  | .call y fs =>
    have hnone : ∀ f ∈ fs.map (Activity.elim (fun f => .own (.yielding f))
        fun reports => .own (.begin reports)), f ≠ (.ask k : Activity Frame Ask) := by
      intro f hf
      obtain ⟨g, -, rfl⟩ := List.mem_map.mp hf
      cases g
      · nofun
      · nofun
    have hzero := List.count_eq_zero_of_not_mem fun hk => hnone _ hk rfl
    exact List.count_append.trans (by rw [hzero, Nat.zero_add])

theorem exhausted_goOn (hflight : s.inFlight = []) (reports : Bool)
    (hasks : below.count (.ask .idle) <
      (after below (s.goOn reports : Move ε)).stack.count (.ask .idle)) :
    Exhausted (after below (s.goOn reports : Move ε)).state := by
  unfold goOn at hasks ⊢
  split
  · next hempty =>
    dsimp only
    split
    · exact ⟨List.isEmpty_iff.mp hempty, hflight⟩
    · exact ⟨List.isEmpty_iff.mp hempty, hflight⟩
  · next hempty =>
    rw [if_neg hempty, count_ofYield] at hasks
    exact absurd hasks (Nat.lt_irrefl _)

theorem exhausted_handOut (reports : Bool) (taken : List QueueEntry)
    (hasks : below.count (.ask .idle) <
      (after below (s.handOut reports taken : Move ε)).stack.count (.ask .idle)) :
    Exhausted (after below (s.handOut reports taken : Move ε)).state := by
  unfold handOut at hasks ⊢
  split
  · next e rest hflight =>
    rw [hflight] at hasks
    simp [after] at hasks
  · next hflight =>
    rw [hflight] at hasks
    dsimp only at hasks
    split
    · next hreports =>
      rw [if_pos hreports] at hasks
      simp [after] at hasks
    · next hreports =>
      rw [if_neg hreports] at hasks
      exact exhausted_goOn hflight reports hasks

/-- Nothing waits when the surroundings are told so. -/
theorem Happens.exhausted {c c' : Running ε} {a : Event} (happens : Happens c a c')
    (h : Single c.state c.stack)
    (hasks : c.stack.count (.ask .idle) < c'.stack.count (.ask .idle)) : Exhausted c'.state := by
  cases happens with
  | enqueue _ _ _ _ _ | takeBatch _ _ | clear _ => exact absurd hasks (Nat.lt_irrefl _)
  | drain free reports =>
    unfold Scheduler.drain at hasks
    split at hasks
    · exact absurd hasks (Nat.lt_irrefl _)
    · simp [after] at hasks
  | runNext free | runAll free =>
    exact absurd hasks (Nat.not_lt.mpr (Nat.le_of_eq (count_ofYield _ _ _)))
  | resume s f below a =>
    have hbelow : (Activity.own f :: below).count (.ask .idle) = below.count (.ask .idle) := by
      simp
    rw [hbelow] at hasks
    cases f with
    | begin reports => exact exhausted_handOut reports _ hasks
    | batch reports taken => exact exhausted_handOut reports taken hasks
    | next reports => exact exhausted_goOn (h.inFlight_of_slice rfl rfl) reports hasks
    | yielding f => exact absurd hasks (Nat.not_lt.mpr (Nat.le_of_eq (count_ofYield _ _ _)))
  | unwind s f below err => simp at hasks
  | answer s k below r r' =>
    exact absurd hasks (Nat.not_lt.mpr List.count_le_count_cons)

/-! ## Questions and their batches -/

/-- Each question about a batch stands on the frame of the batch. -/
def Seated : List (Activity Frame Ask) → Prop
  | [] => True
  | .ask (.process _) :: below =>
    (∃ reports taken rest, below = .own (.batch reports taken) :: rest) ∧ Seated below
  | .ask (.batchDone _) :: below =>
    (∃ reports rest, below = .own (.next reports) :: rest) ∧ Seated below
  | _ :: below => Seated below

theorem Seated.tail {a : Activity Frame Ask} (h : Seated (a :: below)) : Seated below := by
  match a, h with
  | .own _, h | .ask .idle, h => exact h
  | .ask (.process _), h | .ask (.batchDone _), h => exact h.2

theorem seated_ofYield (h : Seated below) (s : Scheduler) (m : YieldPoint.Move Bool ε) :
    Seated (after below (s.ofYield m)).stack := by
  match m with
  | .reply _ (.returned _) | .reply _ (.raised _) => exact h
  | .call y fs =>
    show Seated (fs.map _ ++ below)
    induction fs with
    | nil => exact h
    | cons f fs ih =>
      cases f with
      | own _ | ask _ => exact ih

theorem seated_goOn (h : Seated below) (s : Scheduler) (reports : Bool) :
    Seated (after below (s.goOn reports : Move ε)).stack := by
  unfold goOn
  split
  · dsimp only
    split
    · exact h
    · exact h
  · exact seated_ofYield h _ _

theorem seated_handOut (h : Seated below) (s : Scheduler) (reports : Bool)
    (taken : List QueueEntry) :
    Seated (after below (s.handOut reports taken : Move ε)).stack := by
  unfold handOut
  split
  · exact ⟨⟨reports, taken, below, rfl⟩, h⟩
  · split
    · exact ⟨⟨reports, below, rfl⟩, h⟩
    · exact seated_goOn h s reports

/-- Whatever happens, the questions stand on the frames of their batches. -/
theorem Happens.seated {c c' : Running ε} {a : Event} (happens : Happens c a c')
    (h : Seated c.stack) : Seated c'.stack := by
  cases happens with
  | enqueue _ _ _ _ _ | takeBatch _ _ | clear _ => exact h
  | drain free reports =>
    unfold Scheduler.drain
    split
    · exact h
    · exact h
  | runNext free | runAll free => exact seated_ofYield h _ _
  | resume s f below a =>
    have hbelow : Seated below := h
    cases f with
    | begin reports | batch reports taken => exact seated_handOut hbelow _ _ _
    | next reports => exact seated_goOn hbelow _ _
    | yielding f => exact seated_ofYield hbelow _ _
  | unwind s f below err => exact h
  | answer s k below r r' => exact h.tail

/-! ## Runs -/

/-- A frame goes on. -/
theorem Happens.goesOn {c : Running ε} {f : Frame} {below : List (Activity Frame Ask)} {a : Answer}
    (hstack : c.stack = .own f :: below) (hreply : c.reply = .returned a) :
    Happens c (.resume f) (after below (c.state.resume f)) := by
  obtain ⟨s, stack, r⟩ := c
  cases hstack
  cases hreply
  exact .resume s f below a

/-- The surroundings answer. -/
theorem Happens.answers {c : Running ε} (k : Ask) (below : List (Activity Frame Ask))
    (hstack : c.stack = .ask k :: below) (r : Reply Answer ε) :
    Happens c (.answer k) ⟨c.state, below, r⟩ := by
  obtain ⟨s, stack, r'⟩ := c
  cases hstack
  exact .answer s k below r' r

/-- Whatever happens, what is going on is what the frames say. -/
theorem Happens.single {c c' : Running ε} {a : Event} (happens : Happens c a c')
    (h : Single c.state c.stack) : Single c'.state c'.stack := by
  cases happens with
  | enqueue free now node priority source => exact h.withQueue _
  | takeBatch free limit => exact h.withQueue _
  | clear free => exact ⟨h.one, fun hn => absurd rfl hn, h.loops⟩
  | drain free reports => exact h.drain reports
  | runNext free =>
    exact Single.runNextThen ((single_cons rfl rfl).mpr h) fun _ => h
  | runAll free => exact (single_cons rfl rfl).mpr h
  | resume s f below a => exact h.resume
  | unwind s f below err => exact h.unwind
  | answer s k below r r' => exact (single_cons rfl rfl).mp h

theorem Course.single {c₀ c : Running ε} {events : List (Scheduler × Event)}
    (h : Course c₀ events c) (h₀ : Single c₀.state c₀.stack) : Single c.state c.stack := by
  induction h with
  | refl => exact h₀
  | tail _ step ih => exact step.single ih

theorem Course.seated {c₀ c : Running ε} {events : List (Scheduler × Event)}
    (h : Course c₀ events c) (h₀ : Seated c₀.stack) : Seated c.stack := by
  induction h with
  | refl => exact h₀
  | tail _ step ih => exact step.seated ih

end LiveForm.Scheduler
