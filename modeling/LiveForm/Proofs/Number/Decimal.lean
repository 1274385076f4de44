import LiveForm.Number.Fixed
import LiveForm.Proofs.Number.Rounding

/-!
# Decimals

A decimal `n * 10 ^ e` is a fraction of units, which `Binary64.ofDecimal` rounds once.  What it is
rounded to does not depend on how many zeros its digits end in (`ofDecimal_mul_pow`).

`isFinite_roundPlaces` says for which numbers of places a number stays finite when it is rounded:
rounding to a multiple of a great power of ten can lead out of range.
-/

namespace LiveForm

namespace Binary64

/-! ## Digits -/

theorem lt_pow_length (n : Nat) : n < 10 ^ (Nat.toDigits 10 n).length :=
  (Nat.length_toDigits_le_iff (by decide) Nat.length_toDigits_pos).mp (Nat.le_refl _)

theorem pow_length_le {n : Nat} (h : 0 < n) : 10 ^ ((Nat.toDigits 10 n).length - 1) ≤ n := by
  by_contra hlt
  rcases Nat.eq_zero_or_pos ((Nat.toDigits 10 n).length - 1) with h0 | hpos
  · rw [h0] at hlt
    omega
  · have := (Nat.length_toDigits_le_iff (by decide) hpos).mpr (Nat.lt_of_not_le hlt)
    have := Nat.length_toDigits_pos (b := 10) (n := n)
    omega

/-- A number between two powers of ten has as many digits as that says. -/
theorem length_toDigits_eq {n k : Nat} (hlow : 10 ^ k ≤ n) (hhigh : n < 10 ^ (k + 1)) :
    (Nat.toDigits 10 n).length = k + 1 := by
  have hle := (Nat.length_toDigits_le_iff (by decide) (Nat.succ_pos k)).mpr hhigh
  have hlt := Nat.lt_of_le_of_lt hlow (lt_pow_length n)
  have := (Nat.pow_lt_pow_iff_right (by decide : 1 < 10)).mp hlt
  omega

theorem length_toDigits_mul_pow {n : Nat} (h : 0 < n) (z : Nat) :
    (Nat.toDigits 10 (n * 10 ^ z)).length = (Nat.toDigits 10 n).length + z := by
  have hpos := Nat.length_toDigits_pos (b := 10) (n := n)
  obtain ⟨k, hk⟩ := Nat.exists_eq_add_of_lt hpos
  rw [Nat.zero_add] at hk
  have hlow := pow_length_le h
  have hhigh := lt_pow_length n
  rw [hk, Nat.add_sub_cancel] at hlow
  rw [hk] at hhigh
  rw [hk, length_toDigits_eq (k := k + z)]
  · omega
  · rw [Nat.pow_add]
    exact Nat.mul_le_mul_right _ hlow
  · rw [show k + z + 1 = k + 1 + z by omega, Nat.pow_add]
    exact Nat.mul_lt_mul_of_pos_right hhigh (Nat.pow_pos (by decide))

/-! ## Steps of a power of ten -/

/-- The power `10 ^ e` in units, as the numerator of a fraction. -/
def stepUnits (e : Int) : Nat := one * 10 ^ e.toNat

/-- The denominator of that fraction. -/
def stepParts (e : Int) : Nat := 10 ^ (-e).toNat

theorem stepUnits_pos (e : Int) : 0 < stepUnits e :=
  Nat.mul_pos one_pos (Nat.pow_pos (by decide))

theorem stepParts_pos (e : Int) : 0 < stepParts e := Nat.pow_pos (by decide)

theorem ofDecimal_zero (s : Bool) (e : Int) : ofDecimal s 0 e = ofUnits s 0 := by
  unfold ofDecimal
  dsimp only
  rw [if_pos rfl]

/-- A decimal is rounded as the fraction that it is, unless it is far out of range. -/
theorem ofDecimal_eq {n : Nat} {e : Int} (hn : 0 < n)
    (hlow : -400 ≤ (Nat.toDigits 10 n).length + e) (hhigh : (Nat.toDigits 10 n).length + e ≤ 400)
    (s : Bool) :
    ofDecimal s n e = ofUnits s (roundUnits (n * stepUnits e) (stepParts e)) := by
  simp only [ofDecimal, ofRatio, stepUnits, stepParts, Nat.pow_eq]
  rw [if_neg (by omega), if_neg (by omega), if_neg (by omega)]
  split_ifs with he
  · rw [Nat.mul_assoc, Nat.mul_comm _ one, show (-e).toNat = 0 by omega, Nat.pow_zero]
  · rw [show e.toNat = 0 by omega, Nat.pow_zero, Nat.mul_one]

/-- Two fractions that are equal are rounded alike. -/
theorem roundUnits_congr {n d n' d' : Nat} (hd : 0 < d) (hd' : 0 < d') (h : n * d' = n' * d) :
    roundUnits n d = roundUnits n' d' := by
  rw [← roundUnits_mul_right hd', h, Nat.mul_comm d, roundUnits_mul_right hd]

/-- Zeros at the end of the digits may as well be counted in the exponent. -/
theorem ofDecimal_mul_pow (s : Bool) (n z : Nat) (e : Int) :
    ofDecimal s (n * 10 ^ z) e = ofDecimal s n (e + z) := by
  rcases Nat.eq_zero_or_pos n with rfl | hn
  · simp only [Nat.zero_mul, ofDecimal_zero]
  have hpos : 0 < n * 10 ^ z := Nat.mul_pos hn (Nat.pow_pos (by decide))
  have hlength := length_toDigits_mul_pow hn z
  by_cases hlow : -400 ≤ (Nat.toDigits 10 n).length + (e + z)
  · by_cases hhigh : (Nat.toDigits 10 n).length + (e + z) ≤ 400
    · rw [ofDecimal_eq hn hlow hhigh, ofDecimal_eq hpos (by omega) (by omega)]
      refine congrArg (ofUnits s) (roundUnits_congr (stepParts_pos _) (stepParts_pos _) ?_)
      have hexp : z + e.toNat + (-(e + z)).toNat = (e + z).toNat + (-e).toNat := by omega
      calc n * 10 ^ z * stepUnits e * stepParts (e + z)
          = n * one * (10 ^ z * 10 ^ e.toNat * 10 ^ (-(e + z)).toNat) := by
            unfold stepUnits stepParts
            ring
        _ = n * one * (10 ^ (e + z).toNat * 10 ^ (-e).toNat) := by
            rw [← Nat.pow_add, ← Nat.pow_add, hexp, Nat.pow_add]
        _ = n * stepUnits (e + z) * stepParts e := by
            unfold stepUnits stepParts
            ring
    · simp only [ofDecimal]
      rw [if_neg (by omega), if_pos (by omega), if_neg (by omega), if_pos (by omega)]
  · simp only [ofDecimal]
    rw [if_neg (by omega), if_neg (by omega), if_pos (by omega), if_neg (by omega),
      if_neg (by omega), if_pos (by omega)]

/-! ## Integers -/

/-- An integer with so many digits is out of range. -/
theorem length_toDigits_le {n : Nat} (h : Representable (roundUnits (n * one) 1)) :
    (Nat.toDigits 10 n).length ≤ 400 := by
  have hrange : ∀ k ∈ [400], ∀ K ∈ [2098], 2 ^ K ≤ 10 ^ k * one := by decide +kernel
  have hall : ∀ k ∈ [400], ∀ K ∈ [2098], roundUnits (n * one) 1 < Nat.pow 2 K →
      (Nat.toDigits 10 n).length ≤ k := by
    intro k hk K hK hlt
    by_contra hlong
    have hpos : 0 < n := by
      refine Nat.pos_of_ne_zero fun h0 => ?_
      rw [h0, Nat.toDigits_zero, List.length_singleton, List.mem_singleton.mp hk] at hlong
      exact hlong (by decide)
    have hn : 10 ^ k ≤ n :=
      Nat.le_trans (Nat.pow_le_pow_right (by decide) (by omega)) (pow_length_le hpos)
    have hle : 2 ^ K ≤ roundUnits (n * one) 1 := by
      refine two_pow_le_roundUnits Nat.one_pos ?_
      rw [Nat.mul_one]
      exact Nat.le_trans (hrange k hk K hK) (Nat.mul_le_mul_right _ hn)
    exact Nat.lt_irrefl _ (Nat.lt_of_lt_of_le hlt hle)
  exact hall 400 (List.mem_singleton.mpr rfl) 2098 (List.mem_singleton.mpr rfl) h.1

theorem representable_of_isFinite_ofInt {i : Int} (h : (ofInt i).isFinite = true) :
    Representable (roundUnits (i.natAbs * one) 1) := by
  by_contra hout
  unfold ofInt ofRatio ofUnits at h
  rw [dif_neg hout] at h
  cases h

/-- The decimal of an integer is the number of that integer. -/
theorem ofDecimal_natAbs {i : Int} (h : (ofInt i).isFinite = true) :
    ofDecimal (decide (i < 0)) i.natAbs 0 = ofInt i := by
  have hint : ofInt i = ofUnits (decide (i < 0)) (roundUnits (i.natAbs * one) 1) := rfl
  rcases Nat.eq_zero_or_pos i.natAbs with h0 | hpos
  · rw [hint, h0, ofDecimal_zero, Nat.zero_mul, roundUnits_of_representable representable_zero]
  · have hlength := length_toDigits_le (representable_of_isFinite_ofInt h)
    rw [ofDecimal_eq hpos (by omega) (by omega), hint, stepUnits, stepParts, Int.neg_zero,
      Int.toNat_zero, Nat.pow_zero, Nat.mul_one]

/-! ## Rounding to a number of places -/

theorem isFinite_ofUnits_zero (s : Bool) : (ofUnits s 0).isFinite = true := by
  rw [ofUnits_of_representable representable_zero]
  rfl

/-- No number of the format has more than 309 digits before its point. -/
theorem range_le {k : Nat} (h : k = 309) : 2 ^ 53 * widestGap ≤ one * 10 ^ k := by
  have hall : ∀ k ∈ [309], 2 ^ 53 * widestGap ≤ one * 10 ^ k := by decide +kernel
  exact hall k (List.mem_singleton.mpr h)

/-- Steps that are narrower than the gap between the greatest numbers. -/
theorem step_lt_widestGap {k : Nat} (h : k ≤ 292) : one * 10 ^ k < widestGap := by
  have hall : ∀ k ∈ List.range 293, one * 10 ^ k < widestGap := by decide +kernel
  exact hall k (List.mem_range.mpr (Nat.lt_succ_of_le h))

/-- The magnitude in steps, as one division. -/
theorem scaledMagnitude_eq (units : Nat) (places : Int) :
    scaledMagnitude units places = roundDiv (units * stepParts (-places)) (stepUnits (-places)) := by
  unfold scaledMagnitude stepParts stepUnits
  simp only [Int.neg_neg, Nat.pow_eq]
  split_ifs with h
  · rw [show (-places).toNat = 0 by omega, Nat.pow_zero, Nat.mul_one]
  · rw [show places.toNat = 0 by omega, Nat.pow_zero, Nat.mul_one]

/-- The exponent of a decimal that is not far above `10 ^ k` is not far above `k`. -/
theorem length_add_le {n k : Nat} {e : Int} (h : n * 10 ^ e.toNat < 10 ^ k * 10 ^ (-e).toNat) :
    n = 0 ∨ (Nat.toDigits 10 n).length + e ≤ k := by
  rcases Nat.eq_zero_or_pos n with h0 | hpos
  · exact Or.inl h0
  · right
    have hle := Nat.lt_of_le_of_lt (Nat.mul_le_mul_right (10 ^ e.toNat) (pow_length_le hpos)) h
    rw [← Nat.pow_add, ← Nat.pow_add] at hle
    have := (Nat.pow_lt_pow_iff_right (by decide : 1 < 10)).mp hle
    have := Nat.length_toDigits_pos (b := 10) (n := n)
    omega

/-- A decimal that is less than half of a gap above the greatest number is rounded to a finite
number. -/
theorem isFinite_ofDecimal {n : Nat} {e : Int}
    (h : 2 * (n * stepUnits e) + widestGap * stepParts e < 2 ^ 54 * (widestGap * stepParts e))
    (s : Bool) : (ofDecimal s n e).isFinite = true := by
  rcases Nat.eq_zero_or_pos n with rfl | hn
  · rw [ofDecimal_zero]
    exact isFinite_ofUnits_zero s
  have hlength : ∀ k : Nat, k = 309 → (Nat.toDigits 10 n).length + e ≤ k := by
    intro k hk
    refine (length_add_le ?_).resolve_left (Nat.pos_iff_ne_zero.mp hn)
    have hscaled : one * (n * 10 ^ e.toNat) < one * (10 ^ k * 10 ^ (-e).toNat) :=
      calc one * (n * 10 ^ e.toNat)
          = n * stepUnits e := by
            unfold stepUnits
            ring
        _ < 2 ^ 53 * (widestGap * stepParts e) := by omega
        _ = 2 ^ 53 * widestGap * stepParts e := by rw [Nat.mul_assoc]
        _ ≤ one * 10 ^ k * stepParts e := Nat.mul_le_mul_right _ (range_le hk)
        _ = one * (10 ^ k * 10 ^ (-e).toNat) := by rw [Nat.mul_assoc, stepParts]
    exact Nat.lt_of_mul_lt_mul_left hscaled
  have hlength := hlength 309 rfl
  by_cases hlow : -400 ≤ (Nat.toDigits 10 n).length + e
  · rw [ofDecimal_eq hn hlow (by omega),
      ofUnits_of_representable (representable_roundUnits_of_lt (stepParts_pos e) h)]
    rfl
  · unfold ofDecimal
    dsimp only
    rw [if_neg (by omega), if_neg (by omega), if_pos (by omega)]
    exact isFinite_ofUnits_zero s

/-- Rounding to a number of places keeps a number finite, unless the steps are so wide that the
greatest numbers are brought out of range. -/
theorem isFinite_roundPlaces {x : Binary64} (hx : x.isFinite = true) {places : Int}
    (h : places < -308 ∨ -293 < places) : (x.roundPlaces places).isFinite = true := by
  obtain ⟨s, u, r, rfl⟩ := exists_of_isFinite hx
  unfold roundPlaces
  dsimp only
  split_ifs with h1 h2
  · rfl
  · exact isFinite_ofUnits_zero s
  · refine isFinite_ofDecimal ?_ s
    rw [scaledMagnitude_eq]
    obtain ⟨-, hb⟩ := roundDiv_bounds (n := u * stepParts (-places)) (stepUnits_pos (-places))
    have hu := Nat.mul_le_mul_right (stepParts (-places)) r.le
    rw [Nat.mul_assoc] at hu
    have hstep : stepUnits (-places) < widestGap * stepParts (-places) :=
      Nat.lt_of_lt_of_le (step_lt_widestGap (by omega))
        (Nat.le_mul_of_pos_right _ (stepParts_pos _))
    omega

end Binary64

end LiveForm
