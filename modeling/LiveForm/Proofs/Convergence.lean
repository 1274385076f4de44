import LiveForm.Convergence
import Mathlib.Data.List.Basic
import Mathlib.Tactic.Common

/-!
# How a value is judged that is the first to be remembered
-/

namespace LiveForm.ConvergenceDetector

variable {d : ConvergenceDetector} {node : String}

theorem recent_forget (d : ConvergenceDetector) (node : String) :
    (d.forget node).recent node = [] := by
  have hnone : (d.histories.filter (·.1 != node)).lookup node = none := by
    refine List.lookup_eq_none_iff.mpr fun p hp => ?_
    have hne : p.1 ≠ node := bne_iff_ne.mp (List.mem_filter.mp hp).2
    exact bne_iff_ne.mpr (Ne.symm hne)
  unfold recent forget
  rw [hnone]
  rfl

/-- A value that no other one precedes is new. -/
theorem verdict?_first (h : d.recent node = []) (v : Value) (fromPeer : Bool) :
    d.verdict? node v fromPeer = some .changed := by
  have hoscillates : oscillates? d.tolerances fromPeer ([v].take d.historySize) = some false := by
    cases d.historySize with
    | zero => rfl
    | succ k =>
      rw [List.take_succ_cons, List.take_nil]
      rfl
  unfold verdict?
  simp [h, hoscillates]

theorem observe_first (h : d.recent node = []) (v : Value) (fromPeer : Bool) :
    (d.observe node v fromPeer).1 = .changed := by
  rw [observe, verdict?_first h]
  rfl

end LiveForm.ConvergenceDetector
