import LiveForm.Proofs.Convergence
import LiveForm.Proofs.Lookup

/-!
# Verdicts by the last values

A detector remembers a bounded number of values for each node, whatever is asked of it about other
nodes.  With room for four of them its verdict is decided by the node's own last values: the value
repeats the one before it, or it goes back to the one before that.
-/

namespace LiveForm.ConvergenceDetector

variable {d : ConvergenceDetector} {t : Tolerances} {node other : String} {v : Value}
  {fromPeer : Bool} {size : Nat} {vs past : List Value}

/-! ## What is asked of a detector -/

/-- A call of a detector. -/
inductive Call where
  | observe (node : String) (v : Value) (fromPeer : Bool)
  | isStable (node : String) (v : Value) (fromPeer : Bool)
  | forget (node : String)
  | reset

/-- The detector behind a call. -/
def after (d : ConvergenceDetector) : Call → ConvergenceDetector
  | .observe node v fromPeer => (d.tryObserve node v fromPeer).2
  | .isStable node v fromPeer => (d.isStable? node v fromPeer).2
  | .forget node => d.forget node
  | .reset => d.reset

/-- The values of a node behind a call, the oldest first: a new one is added at the end, and they
begin anew when the node is forgotten. -/
def Call.extend (node : String) (past : List Value) : Call → List Value
  | .observe other v _ | .isStable other v _ => if other = node then past ++ [v] else past
  | .forget other => if other = node then [] else past
  | .reset => []

/-- The values of a node that were observed since it was forgotten last, the oldest first. -/
def observed (node : String) (calls : List Call) : List Value :=
  calls.foldl (Call.extend node) []

/-- A detector that has remembered nothing yet. -/
def fresh (t : Tolerances) (size : Nat) : ConvergenceDetector :=
  { tolerances := t, historySize := size }

/-! ## What is remembered -/

theorem recent_remember_self (d : ConvergenceDetector) (node : String) (v : Value) :
    (d.remember node v).recent node = (v :: d.recent node).take d.historySize := by
  simp [remember, recent]

theorem recent_forget_of_ne (d : ConvergenceDetector) (h : other ≠ node) :
    (d.forget node).recent other = d.recent other := by
  rw [recent, recent, forget, lookup_filter_ne _ h]

theorem recent_remember_of_ne (d : ConvergenceDetector) (v : Value) (h : other ≠ node) :
    (d.remember node v).recent other = d.recent other := by
  have hforget := recent_forget_of_ne d h
  rw [recent] at hforget
  simp [remember, recent, List.lookup_cons, beq_false_of_ne h, hforget]

theorem tryObserve_snd (d : ConvergenceDetector) (node : String) (v : Value) (fromPeer : Bool) :
    (d.tryObserve node v fromPeer).2 = if d.canRemember then d.remember node v else d := by
  rw [tryObserve]
  split <;> rfl

theorem isStable?_snd (d : ConvergenceDetector) (node : String) (v : Value) (fromPeer : Bool) :
    (d.isStable? node v fromPeer).2 = (d.tryObserve node v fromPeer).2 := rfl

/-- What the detector is set up with stays as it is. -/
theorem setup_after (d : ConvergenceDetector) (call : Call) :
    (d.after call).tolerances = d.tolerances ∧ (d.after call).historySize = d.historySize := by
  have hobserve : ∀ node v fromPeer,
      (d.tryObserve node v fromPeer).2.tolerances = d.tolerances ∧
        (d.tryObserve node v fromPeer).2.historySize = d.historySize := by
    intro node v fromPeer
    rw [tryObserve_snd]
    split <;> exact ⟨rfl, rfl⟩
  cases call with
  | observe node v fromPeer => exact hobserve node v fromPeer
  | isStable node v fromPeer => exact hobserve node v fromPeer
  | forget node => exact ⟨rfl, rfl⟩
  | reset => exact ⟨rfl, rfl⟩

theorem take_cons_take (v : Value) (vs : List Value) (n : Nat) :
    (v :: vs.take n).take n = (v :: vs).take n := by
  cases n with
  | zero => rfl
  | succ k =>
    rw [List.take_succ_cons, List.take_succ_cons, List.take_take, Nat.min_eq_left (by omega)]

/-- The detector remembers the last of these values for a node. -/
def Tracks (d : ConvergenceDetector) (node : String) (past : List Value) : Prop :=
  d.recent node = past.reverse.take d.historySize

theorem Tracks.remember (h : d.Tracks node past) (v : Value) (other : String) :
    (d.remember other v).Tracks node (if other = node then past ++ [v] else past) := by
  split
  · next heq =>
    subst heq
    have hsize : (d.remember other v).historySize = d.historySize := rfl
    rw [Tracks, hsize, recent_remember_self, h, take_cons_take, List.reverse_append]
    rfl
  · next hne =>
    rw [Tracks, recent_remember_of_ne d v (Ne.symm hne)]
    exact h

/-- Each call changes what is remembered for a node as it changes the node's values. -/
theorem Tracks.after (h : d.Tracks node past) (hroom : d.canRemember = true) (call : Call) :
    (d.after call).Tracks node (call.extend node past) := by
  cases call with
  | observe other v fromPeer =>
    rw [ConvergenceDetector.after, tryObserve_snd, if_pos hroom]
    exact h.remember v other
  | isStable other v fromPeer =>
    rw [ConvergenceDetector.after, isStable?_snd, tryObserve_snd, if_pos hroom]
    exact h.remember v other
  | forget other =>
    rw [ConvergenceDetector.after, Call.extend]
    split
    · next heq => rw [heq, Tracks, recent_forget, List.reverse_nil, List.take_nil]
    · next hne =>
      rw [Tracks, recent_forget_of_ne d (Ne.symm hne)]
      exact h
  | reset =>
    rw [Call.extend, Tracks, List.reverse_nil, List.take_nil]
    rfl

/-- Whatever is asked of it, a detector remembers for each node the last values observed since the
node was forgotten. -/
theorem tracks_calls (t : Tolerances) (hroom : size ≤ maxHistory) (node : String)
    (calls : List Call) :
    (calls.foldl after (fresh t size)).Tracks node (observed node calls) ∧
      (calls.foldl after (fresh t size)).tolerances = t ∧
      (calls.foldl after (fresh t size)).historySize = size := by
  suffices hall : ∀ (calls : List Call) (d : ConvergenceDetector) (past : List Value),
      d.tolerances = t → d.historySize = size → d.Tracks node past →
      (calls.foldl after d).Tracks node (calls.foldl (Call.extend node) past) ∧
        (calls.foldl after d).tolerances = t ∧ (calls.foldl after d).historySize = size by
    refine hall calls _ [] rfl rfl ?_
    rw [Tracks, List.reverse_nil, List.take_nil]
    rfl
  intro calls
  induction calls with
  | nil => exact fun d past ht hsize h => ⟨h, ht, hsize⟩
  | cons call calls ih =>
    intro d past ht hsize h
    obtain ⟨ht', hsize'⟩ := d.setup_after call
    refine ih _ _ (ht'.trans ht) (hsize'.trans hsize) (h.after ?_ call)
    rw [canRemember, hsize, decide_eq_true_eq]
    exact hroom

/-! ## How a value is judged -/

/-- The value is the same as the last one before it. -/
def Repeats (t : Tolerances) (past : List Value) (v : Value) : Prop :=
  ∃ p, [p] <:+ past ∧ t.compare? v p = some true

/-- The value goes back to the one before the last, and unless a linked node caused it the last one
had gone back to the one before that. -/
def Bounces (t : Tolerances) (fromPeer : Bool) (past : List Value) (v : Value) : Prop :=
  ∃ q p, [q, p] <:+ past ∧ t.compare? v q = some true ∧
    (fromPeer = true ∨ ∃ r, [r, q, p] <:+ past ∧ t.compare? p r = some true)

/-- A comparison that the judgement takes cannot be made. -/
def Incomparable (t : Tolerances) (fromPeer : Bool) (past : List Value) (v : Value) : Prop :=
  (∃ p, [p] <:+ past ∧ t.compare? v p = none) ∨
  ∃ q p, [q, p] <:+ past ∧ t.compare? v p = some false ∧
    ((t.compare? v q = none ∧ (fromPeer = true ∨ ∃ r, [r, q, p] <:+ past)) ∨
      (t.compare? v q = some true ∧ fromPeer = false ∧
        ∃ r, [r, q, p] <:+ past ∧ t.compare? p r = none))

/-- The judgement on a value by all that were observed before it, the newest first. -/
def judgement (t : Tolerances) (fromPeer : Bool) (v : Value) : List Value → Option Verdict
  | [] => some .changed
  | p :: before => do
    if ← t.compare? v p then return .converged
    if ← oscillates? t fromPeer (v :: p :: before) then return .oscillating
    return .changed

/-- Four values decide whether they go back and forth. -/
theorem oscillates?_take (t : Tolerances) (fromPeer : Bool) (four : 4 ≤ size) (vs : List Value) :
    oscillates? t fromPeer (vs.take size) = oscillates? t fromPeer vs := by
  obtain ⟨k, rfl⟩ := Nat.exists_eq_add_of_le' four
  match vs with
  | [] | [_] | [_, _] | [_, _, _] => rfl
  | _ :: _ :: _ :: _ :: _ => rfl

theorem verdict?_eq (h : d.Tracks node past) (four : 4 ≤ d.historySize) (v : Value)
    (fromPeer : Bool) :
    d.verdict? node v fromPeer = judgement d.tolerances fromPeer v past.reverse := by
  rw [Tracks] at h
  have hwindow : oscillates? d.tolerances fromPeer ((v :: d.recent node).take d.historySize) =
      oscillates? d.tolerances fromPeer (v :: past.reverse) := by
    rw [h, take_cons_take, oscillates?_take d.tolerances fromPeer four]
  obtain ⟨k, hk⟩ := Nat.exists_eq_add_of_le' four
  rw [verdict?, hwindow, h, hk]
  cases past.reverse with
  | nil => rfl
  | cons p before => rfl

/-- The judgement in terms of what the last values are. -/
theorem judged_iff (t : Tolerances) (fromPeer : Bool) (past : List Value) (v : Value) :
    (judgement t fromPeer v past.reverse = some .converged ↔ Repeats t past v) ∧
    (judgement t fromPeer v past.reverse = some .oscillating ↔
      ¬ Incomparable t fromPeer past v ∧ ¬ Repeats t past v ∧ Bounces t fromPeer past v) ∧
    (judgement t fromPeer v past.reverse = some .changed ↔
      ¬ Incomparable t fromPeer past v ∧ ¬ Repeats t past v ∧ ¬ Bounces t fromPeer past v) ∧
    (judgement t fromPeer v past.reverse = none ↔ Incomparable t fromPeer past v) := by
  have hlast : ∀ p, [p] <:+ past ↔ [p] <+: past.reverse := fun p => by
    rw [← List.reverse_prefix]; rfl
  have htwo : ∀ q p, [q, p] <:+ past ↔ [p, q] <+: past.reverse := fun q p => by
    rw [← List.reverse_prefix]; rfl
  have hthree : ∀ r q p, [r, q, p] <:+ past ↔ [p, q, r] <+: past.reverse := fun r q p => by
    rw [← List.reverse_prefix]; rfl
  simp only [Repeats, Bounces, Incomparable, hlast, htwo, hthree]
  generalize past.reverse = before
  -- At most three values count, and each comparison with them comes out in one of three ways
  match before with
  | [] => simp [judgement]
  | [p] =>
    rcases hp : t.compare? v p with _ | _ | _ <;> simp [judgement, oscillates?, hp]
  | [p, q] =>
    rcases hp : t.compare? v p with _ | _ | _ <;> rcases hq : t.compare? v q with _ | _ | _ <;>
      cases fromPeer <;> simp [judgement, oscillates?, hp, hq]
  | p :: q :: r :: before =>
    rcases hp : t.compare? v p with _ | _ | _ <;> rcases hq : t.compare? v q with _ | _ | _ <;>
      rcases hr : t.compare? p r with _ | _ | _ <;>
      cases fromPeer <;> simp [judgement, oscillates?, hp, hq, hr]

/-! ## Whatever was asked before -/

/-- With room for four values, and whatever was asked about any nodes before, a detector remembers
for each node the last values that were observed since the node was forgotten, and judges a new one
by them alone. -/
theorem verdict_iff (t : Tolerances) (four : 4 ≤ size) (room : size ≤ maxHistory)
    (calls : List Call) (node : String) (v : Value) (fromPeer : Bool) :
    let d := calls.foldl after (fresh t size)
    let past := observed node calls
    d.history node = past.drop (past.length - size) ∧
      ((d.tryObserve node v fromPeer).1 = .ok .converged ↔ Repeats t past v) ∧
      ((d.tryObserve node v fromPeer).1 = .ok .oscillating ↔
        ¬ Incomparable t fromPeer past v ∧ ¬ Repeats t past v ∧ Bounces t fromPeer past v) ∧
      ((d.tryObserve node v fromPeer).1 = .ok .changed ↔
        ¬ Incomparable t fromPeer past v ∧ ¬ Repeats t past v ∧ ¬ Bounces t fromPeer past v) ∧
      ((d.tryObserve node v fromPeer).1 = .error .outOfRange ↔
        Incomparable t fromPeer past v) := by
  dsimp only
  obtain ⟨htracks, htolerances, hsize⟩ := tracks_calls t room node calls
  generalize calls.foldl after (fresh t size) = d at htracks htolerances hsize ⊢
  generalize observed node calls = past at htracks ⊢
  have hroom : d.canRemember = true := by
    rw [canRemember, hsize, decide_eq_true_eq]
    exact room
  have hhistory : d.history node = past.drop (past.length - size) := by
    rw [history, htracks, hsize, List.take_reverse, List.reverse_reverse]
  obtain ⟨hconverged, hoscillating, hchanged, hnone⟩ := judged_iff t fromPeer past v
  have hverdict := verdict?_eq htracks (hsize ▸ four) v fromPeer
  rw [htolerances] at hverdict
  rw [tryObserve, if_pos hroom, hverdict]
  refine ⟨hhistory, Iff.trans ?_ hconverged, Iff.trans ?_ hoscillating, Iff.trans ?_ hchanged,
    Iff.trans ?_ hnone⟩
  all_goals cases judgement t fromPeer v past.reverse <;> simp

/-- Another node is observed and the node is forgotten, before its value goes back and forth. -/
def bouncingCalls : List Call :=
  [.observe "a" (.integer 2) false, .forget "a", .observe "a" (.integer 1) false,
    .observe "b" (.integer 1) false, .isStable "a" (.integer 2) false,
    .observe "a" (.integer 1) true]

theorem verdict_iff_bouncing :
    4 ≤ 4 ∧ 4 ≤ maxHistory ∧
      observed "a" bouncingCalls = [.integer 1, .integer 2, .integer 1] ∧
      (bouncingCalls.foldl after (fresh ⟨0, 0⟩ 4)).history "a" =
        [.integer 1, .integer 2, .integer 1] ∧
      ((bouncingCalls.foldl after (fresh ⟨0, 0⟩ 4)).tryObserve "a" (.integer 2) false).1 =
        .ok .oscillating ∧
      Bounces ⟨0, 0⟩ false [.integer 1, .integer 2, .integer 1] (.integer 2) := by
  have hroom : 4 ≤ maxHistory := by decide +kernel
  have hjudged : ((bouncingCalls.foldl after (fresh ⟨0, 0⟩ 4)).tryObserve "a" (.integer 2)
      false).1 = .ok .oscillating := by
    decide +kernel
  obtain ⟨hhistory, -, hoscillating, -⟩ :=
    verdict_iff ⟨0, 0⟩ (Nat.le_refl 4) hroom bouncingCalls "a" (.integer 2) false
  exact ⟨Nat.le_refl 4, hroom, rfl, hhistory, hjudged, (hoscillating.mp hjudged).2.2⟩

/-- An integer that is out of the range of numbers. -/
def beyondNumbers : Value := .integer (.ofNat (Nat.pow 2 1024))

/-- No verdict comes where more values are to be remembered than can be, nor where an integer has to
be compared that is out of the range of numbers; such a value is remembered all the same. -/
theorem verdict_refused :
    4 ≤ maxHistory + 1 ∧
      ((fresh ⟨0, 0⟩ (maxHistory + 1)).tryObserve "a" (.integer 1) false).1 =
        .error .historyTooLong ∧
      ((fresh ⟨0, 0⟩ 4).tryObserve "a" beyondNumbers false).1 = .ok .changed ∧
      (((fresh ⟨0, 0⟩ 4).after (.observe "a" beyondNumbers false)).tryObserve "a"
        (.integer 1) false).1 = .error .outOfRange ∧
      (((fresh ⟨0, 0⟩ 4).after (.observe "a" beyondNumbers false)).tryObserve "a"
        (.integer 1) false).2.history "a" = [beyondNumbers, .integer 1] := by
  decide +kernel

end LiveForm.ConvergenceDetector
