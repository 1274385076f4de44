import LiveForm.Number.Binary64
import Mathlib.Tactic.Common

/-!
# Laws of binary floating point numbers

Rounding leaves the numbers of the format as they are, so that a number minus itself, and a number
plus zero, are what they ought to be.
-/

namespace LiveForm

theorem roundDiv_of_mod_eq_zero {n d : Nat} (hd : 0 < d) (h : n % d = 0) :
    roundDiv n d = n / d := by
  simp only [roundDiv, h]
  rw [if_pos (by omega)]

/-- Rounding leaves a count of units that the format can hold as it is. -/
theorem roundUnits_of_representable {u : Nat} (h : Representable u) : roundUnits u 1 = u := by
  have hweight : 0 < Nat.pow 2 (u.log2 - 52) := Nat.two_pow_pos _
  simp only [roundUnits]
  rw [Nat.div_one, Nat.one_mul, roundDiv_of_mod_eq_zero hweight h.2]
  exact Nat.div_mul_cancel (Nat.dvd_of_mod_eq_zero h.2)

namespace Binary64

variable {x y : Binary64}

theorem exists_of_isFinite (h : x.isFinite = true) : ∃ s u r, x = finite s u r := by
  cases x with
  | nan => cases h
  | infinite s => cases h
  | finite s u r => exact ⟨s, u, r, rfl⟩

theorem ofUnits_of_representable {u : Nat} (h : Representable u) (s : Bool) :
    ofUnits s u = finite s u h := by
  rw [ofUnits, dif_pos h]

theorem representable_zero : Representable 0 := by
  have pos (k : Nat) : 0 < Nat.pow 2 k := Nat.two_pow_pos k
  unfold Representable
  exact ⟨by apply pos, Nat.zero_mod _⟩

theorem zero_eq : (0 : Binary64) = finite false 0 representable_zero := by decide +kernel

theorem lt_irrefl (x : Binary64) : x.lt x = false := by
  cases x with
  | nan => rfl
  | infinite s => cases s <;> rfl
  | finite s u r => simp [lt]

/-- A finite number minus itself is zero. -/
theorem sub_self_of_isFinite (h : x.isFinite = true) :
    x - x = finite false 0 representable_zero := by
  obtain ⟨s, u, r, rfl⟩ := exists_of_isFinite h
  have hsum : (finite s u r).signedUnits + (finite (!s) u r).signedUnits = 0 := by
    cases s
    · exact Int.add_right_neg _
    · exact Int.add_left_neg _
  show add (finite s u r) (neg (finite s u r)) = _
  simp only [neg, add]
  rw [if_pos hsum, Bool.and_not_self, ofUnits_of_representable representable_zero]

/-- Adding zero keeps a number finite. -/
theorem isFinite_add_zero (h : x.isFinite = true) : (x + 0).isFinite = true := by
  obtain ⟨s, u, r, rfl⟩ := exists_of_isFinite h
  show (add (finite s u r) 0).isFinite = true
  rw [zero_eq]
  simp only [add]
  split
  · rw [ofUnits_of_representable representable_zero]
    rfl
  · have habs : (finite s u r).signedUnits + (finite false 0 representable_zero).signedUnits =
        (finite s u r).signedUnits := by
      simp [signedUnits]
    have hu : (finite s u r).signedUnits.natAbs = u := by
      cases s <;> simp [signedUnits]
    rw [habs, ofSignedUnits, hu, roundUnits_of_representable r, ofUnits_of_representable r]
    rfl

/-- Zero is not above a number that is not below zero. -/
theorem zero_le_of_not_lt (hnan : x.isNaN = false) (h : ¬ x < 0) :
    finite false 0 representable_zero ≤ x := by
  rw [zero_eq] at h
  show le _ _ = true
  cases x with
  | nan => cases hnan
  | infinite s =>
    cases s with
    | true => exact absurd rfl h
    | false => rfl
  | finite s u r =>
    have hu : ¬ (finite s u r).signedUnits < 0 := fun hlt => h (decide_eq_true hlt)
    have hz : (finite false 0 representable_zero).signedUnits = 0 := rfl
    simp only [le, lt, eqv, hz, Bool.or_eq_true, decide_eq_true_eq, beq_iff_eq]
    omega

/-- Zero is below or equal to all numbers that are not below zero, but not to a "not a number". -/
theorem zero_le_iff (h : ¬ x < 0) : 0 ≤ x ↔ x ≠ nan := by
  constructor
  · rintro hle rfl
    rw [zero_eq] at hle
    cases hle
  · intro hnan
    rw [zero_eq]
    refine zero_le_of_not_lt ?_ h
    cases x with
    | nan => exact absurd rfl hnan
    | infinite s => rfl
    | finite s u r => rfl

theorem ofInt_ne_nan (i : Int) : ofInt i ≠ nan := by
  unfold ofInt ofRatio ofUnits
  split <;> simp

/-- The number of an integer that is not negative is not below zero. -/
theorem not_ofInt_lt_zero {i : Int} (h : ¬ i < 0) : ¬ ofInt i < 0 := by
  rw [zero_eq, ofInt, ofRatio, decide_eq_false h]
  show ¬ lt _ _ = true
  unfold ofUnits
  split
  · simp [lt, signedUnits]
  · exact Bool.false_ne_true

theorem eqv_self_of_isFinite (h : x.isFinite = true) : x.eqv x = true := by
  obtain ⟨s, u, r, rfl⟩ := exists_of_isFinite h
  exact beq_self_eq_true _

/-- The number of an integer that is a count of units of the format. -/
theorem ofInt_of_natAbs_mul {i : Int} {u : Nat} (hu : i.natAbs * one = u) (r : Representable u) :
    ofInt i = finite (decide (i < 0)) u r := by
  rw [ofInt, ofRatio, hu, roundUnits_of_representable r, ofUnits_of_representable r]

/-- A number without a fraction is the number of its integer part, up to the sign of zero. -/
theorem ofInt_truncate? (h : x.isInteger = true) :
    (ofInt (x.truncate?.getD 0)).isFinite = true ∧ (ofInt (x.truncate?.getD 0)).eqv x = true := by
  cases x with
  | nan => cases h
  | infinite s => cases h
  | finite s u r =>
    have hmod : u % one = 0 := beq_iff_eq.mp h
    have hu : u / one * one = u := Nat.div_mul_cancel (Nat.dvd_of_mod_eq_zero hmod)
    have hcast : (u : Int).tdiv one = (u / one : Nat) := (Int.ofNat_tdiv u one).symm
    generalize u / one = q at hu hcast
    cases s with
    | false =>
      have htruncate : (finite false u r).truncate?.getD 0 = q := hcast
      rw [htruncate, ofInt_of_natAbs_mul (Int.natAbs_natCast q ▸ hu) r,
        decide_eq_false (Int.not_lt.mpr (Int.natCast_nonneg q))]
      exact ⟨rfl, beq_self_eq_true _⟩
    | true =>
      have htruncate : (finite true u r).truncate?.getD 0 = -(q : Int) :=
        (Int.neg_tdiv (u : Int) one).trans (congrArg Neg.neg hcast)
      rw [htruncate, ofInt_of_natAbs_mul (by rw [Int.natAbs_neg, Int.natAbs_natCast, hu]) r]
      refine ⟨rfl, beq_iff_eq.mpr ?_⟩
      -- Only a zero loses its sign
      rcases Nat.eq_zero_or_pos q with rfl | hpos
      · rw [Nat.zero_mul] at hu
        subst hu
        rfl
      · rw [decide_eq_true (by omega)]

end Binary64

end LiveForm
