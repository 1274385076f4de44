import LiveForm.Number.Sum
import LiveForm.Proofs.Number.Binary64
import LiveForm.Proofs.Sequence
import Mathlib.Tactic.Ring

/-!
# What a sum is

The partial sums lose nothing: together they are what the terms are together (`sum_of_carry`).  So
if a list has a sum at all, it is the exact sum of its terms, rounded once (`eq_exactSum`).  Whether
it has one can depend on the order of the terms and on zeros among them, with which the partial sums
are rounded anew; the value does not depend on zeros.
-/

namespace LiveForm.Binary64

/-! ## Exact sums -/

/-- The exact sum of the terms, rounded once; if not all of them are finite, the sum of those that
are not. -/
def exactSum (xs : List Binary64) : Binary64 :=
  if xs.all isFinite then ofSignedUnits (xs.map signedUnits).sum
  else (xs.filter (!·.isFinite)).foldl (· + ·) zero

theorem signedUnits_of_isZero {x : Binary64} (h : x.isZero = true) :
    x.isFinite = true ∧ x.signedUnits = 0 := by
  match x, h with
  | finite s u _, h =>
    have hu : u = 0 := by simpa [isZero] using h
    subst hu
    cases s <;> exact ⟨rfl, rfl⟩

/-- Zeros are of no account. -/
theorem exactSum_filter_isZero (xs : List Binary64) :
    exactSum (xs.filter (!·.isZero)) = exactSum xs := by
  have hunits : ((xs.filter (!·.isZero)).map signedUnits).sum = (xs.map signedUnits).sum := by
    induction xs with
    | nil => rfl
    | cons x xs ih =>
      cases hx : x.isZero with
      | true => simp [hx, ih, (signedUnits_of_isZero hx).2]
      | false => simp [hx, ih]
  have hall : (xs.filter (!·.isZero)).all isFinite = xs.all isFinite := by
    rw [List.all_filter]
    refine List.all_congr rfl fun x => ?_
    cases hx : x.isZero with
    | false => rfl
    | true => exact (signedUnits_of_isZero hx).1.symm
  have hspecial : (xs.filter (!·.isZero)).filter (!·.isFinite) = xs.filter (!·.isFinite) := by
    rw [List.filter_filter]
    refine List.filter_congr fun x _ => ?_
    cases hx : x.isZero with
    | false => rw [Bool.not_false, Bool.and_true]
    | true => rw [(signedUnits_of_isZero hx).1, Bool.not_true, Bool.false_and]
  rw [exactSum, exactSum, hall, hunits, hspecial]

/-! ## Partial sums -/

/-- What a partial sum loses to rounding is kept. -/
theorem sum_of_carry {x : Int} {ps qs : List Int} (h : carry x ps = some qs) :
    qs.sum = x + ps.sum := by
  induction ps generalizing x qs with
  | nil =>
    rw [carry] at h
    split at h
    · next hx =>
      cases h
      rw [hx]
      rfl
    · cases h
      rfl
  | cons y ys ih =>
    rw [carry] at h
    split at h
    · obtain ⟨zs, hzs, rfl⟩ := Option.map_eq_some_iff.mp h
      have hrest := ih hzs
      split
      · next hlow =>
        rw [hrest, List.sum_cons]
        omega
      · rw [List.sum_cons, List.sum_cons, hrest]
        omega
    · cases h

/-- Finite terms go to the partial sums. -/
theorem foldlM_of_isFinite {xs : List Binary64} (hx : ∀ x ∈ xs, x.isFinite = true)
    {s t : RunningSum} (h : xs.foldlM RunningSum.add s = .ok t) :
    t.special = s.special ∧ t.partials.sum = s.partials.sum + (xs.map signedUnits).sum := by
  induction xs generalizing s with
  | nil =>
    cases h
    exact ⟨rfl, by simp⟩
  | cons x xs ih =>
    obtain ⟨hfinite, hx⟩ := List.forall_mem_cons.mp hx
    rw [List.foldlM_cons] at h
    obtain ⟨s', hadd, h⟩ := bind_eq_ok_iff.mp h
    obtain ⟨hspecial, hsum⟩ := ih hx h
    rw [RunningSum.add, if_pos hfinite] at hadd
    split at hadd
    · next ps hps =>
      cases hadd
      refine ⟨hspecial, ?_⟩
      rw [hsum, List.map_cons, List.sum_cons]
      dsimp only
      rw [sum_of_carry hps]
      ring
    · cases hadd

/-- The other terms are added on their own. -/
theorem special_of_foldlM {xs : List Binary64} {s t : RunningSum}
    (h : xs.foldlM RunningSum.add s = .ok t) :
    t.special = (xs.filter (!·.isFinite)).foldl (· + ·) s.special := by
  induction xs generalizing s with
  | nil =>
    cases h
    rfl
  | cons x xs ih =>
    rw [List.foldlM_cons] at h
    obtain ⟨s', hadd, h⟩ := bind_eq_ok_iff.mp h
    rw [ih h]
    unfold RunningSum.add at hadd
    split at hadd
    · next hfinite =>
      rw [List.filter_cons_of_neg (by simp [hfinite])]
      split at hadd
      · cases hadd
        rfl
      · cases hadd
    · next hfinite =>
      rw [List.filter_cons_of_pos (by simpa using hfinite), List.foldl_cons]
      cases hadd
      rfl

/-! ## Terms that are not finite -/

theorem isFinite_add {x y : Binary64} (h : y.isFinite = false) : (x + y).isFinite = false := by
  cases y with
  | nan => cases x <;> rfl
  | finite => cases h
  | infinite t =>
    cases x with
    | nan | finite => rfl
    | infinite s => cases s <;> cases t <;> rfl

/-- A sum with such a term is not finite. -/
theorem isFinite_foldl {xs : List Binary64} (hx : ∀ x ∈ xs, x.isFinite = false) (s : Binary64) :
    (xs.foldl (· + ·) s).isFinite = (s.isFinite && xs.isEmpty) := by
  induction xs generalizing s with
  | nil => rw [List.foldl_nil, List.isEmpty_nil, Bool.and_true]
  | cons x xs ih =>
    obtain ⟨hfirst, hx⟩ := List.forall_mem_cons.mp hx
    rw [List.foldl_cons, ih hx, isFinite_add hfirst, Bool.false_and, List.isEmpty_cons,
      Bool.and_false]

/-! ## The sum -/

/-- If a list has a sum, it is the exact one. -/
theorem eq_exactSum {xs : List Binary64} {x : Binary64} (h : sum xs = .ok x) : x = exactSum xs := by
  unfold sum at h
  obtain ⟨s, hs, h⟩ := bind_eq_ok_iff.mp h
  have hspecial := special_of_foldlM hs
  dsimp only at hspecial
  have hrest : ∀ y ∈ xs.filter (!·.isFinite), y.isFinite = false := fun y hy => by
    simpa using (List.mem_filter.mp hy).2
  have hfinite := isFinite_foldl hrest zero
  have hnone : (xs.filter (!·.isFinite)).isEmpty = xs.all isFinite := by
    rw [Bool.eq_iff_iff, List.isEmpty_iff, List.filter_eq_nil_iff, List.all_eq_true]
    simp
  have hzero : zero.isFinite = true := by decide +kernel
  rw [← hspecial, hzero, Bool.true_and, hnone] at hfinite
  rw [hfinite] at h
  unfold exactSum
  cases hall : xs.all isFinite with
  | true =>
    rw [hall, if_pos rfl] at h
    obtain ⟨-, hunits⟩ := foldlM_of_isFinite (List.all_eq_true.mp hall) hs
    dsimp only at hunits
    rw [← Except.ok.inj h, if_pos rfl, ← List.sum_eq_foldl, hunits, List.sum_nil, Int.zero_add]
  | false =>
    rw [hall, if_neg Bool.false_ne_true] at h
    split at h
    · cases h
    · cases h
      exact hspecial

/-- An intermediate sum out of range keeps a list from having a sum, although the whole sum of these
three is in range. -/
example : sum [.ofRatio true (17 * Nat.pow 10 307) 1, .ofRatio false (Nat.pow 2 970) 1,
    .ofRatio false (Nat.pow 2 1024 - Nat.pow 2 971) 1] = .error .overflow := by
  decide +kernel

end LiveForm.Binary64
