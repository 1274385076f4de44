import LiveForm.Proofs.Number.Decimal
import Mathlib.Algebra.Order.Ring.Abs
import Mathlib.Algebra.Order.Ring.Rat
import Mathlib.Data.Rat.Cast.Order
import Mathlib.Tactic.FieldSimp
import Mathlib.Tactic.LinearCombination
import Mathlib.Tactic.Positivity

/-!
# The nearest number

What rounding is for: `roundDiv` finds the nearest integer (`isNearestInt_roundDiv`), and a decimal is
brought to the nearest of all numbers of the format (`isNearest_ofDecimal`), where of two numbers that
are as near the even one is taken.  Both are stated of exact values, which are rational.
-/

namespace LiveForm

/-! ## Integers -/

/-- `n` is the integer nearest to `q`; of two that are as near it is the even one. -/
structure IsNearestInt (q : ℚ) (n : ℤ) : Prop where
  near : |q - n| ≤ 1 / 2
  even : |q - n| = 1 / 2 → Even n

namespace IsNearestInt

variable {q : ℚ} {n k : ℤ}

/-- Two integers are one apart at least, so that one of them is not nearer than a half. -/
theorem one_le_add (q : ℚ) (h : k ≠ n) : 1 ≤ |q - k| + |q - n| := by
  have hone : (1 : ℚ) ≤ |(k : ℚ) - n| := by
    exact_mod_cast Int.one_le_abs (sub_ne_zero.mpr h)
  have hsum : |(k : ℚ) - n| ≤ |(k : ℚ) - q| + |q - n| := abs_sub_le _ _ _
  rw [abs_sub_comm (k : ℚ) q] at hsum
  exact hone.trans hsum

/-- No other integer is nearer. -/
theorem le (h : IsNearestInt q n) (k : ℤ) : |q - n| ≤ |q - k| := by
  by_cases hk : k = n
  · rw [hk]
  · have := one_le_add q hk
    linarith [h.near]

/-- If another integer is as near, the nearest one is even. -/
theorem even_of_tie (h : IsNearestInt q n) (hk : k ≠ n) (htie : |q - k| = |q - n|) : Even n := by
  have := one_le_add q hk
  exact h.even (by linarith [h.near])

theorem neg (h : IsNearestInt q n) : IsNearestInt (-q) (-n) := by
  have hflip : |-q - ((-n : ℤ) : ℚ)| = |q - n| := by
    rw [Int.cast_neg, ← abs_neg]
    congr 1
    ring
  exact ⟨hflip ▸ h.near, fun htie => (h.even (hflip ▸ htie)).neg⟩

end IsNearestInt

/-- A half above or below the fraction, the quotient is even. -/
theorem roundDiv_even {n d : Nat}
    (h : 2 * n = 2 * (roundDiv n d * d) + d ∨ 2 * (roundDiv n d * d) = 2 * n + d) (hd : 0 < d) :
    roundDiv n d % 2 = 0 := by
  have hn : d * (n / d) + n % d = n := Nat.div_add_mod n d
  have hr : n % d < d := Nat.mod_lt n hd
  have hsucc : (n / d + 1) * d = d * (n / d) + d := by ring
  have hsame : n / d * d = d * (n / d) := Nat.mul_comm _ _
  simp only [roundDiv] at h ⊢
  split_ifs at h ⊢ <;> simp only [hsucc, hsame] at h <;> omega

/-- The rounded quotient is the nearest integer. -/
theorem isNearestInt_roundDiv (n : Nat) {d : Nat} (hd : 0 < d) :
    IsNearestInt (n / d : ℚ) (roundDiv n d : ℕ) := by
  have hpos : (0 : ℚ) < d := by exact_mod_cast hd
  obtain ⟨h1, h2⟩ := roundDiv_bounds (n := n) hd
  have hscaled : |(n / d : ℚ) - ((roundDiv n d : ℕ) : ℤ)| * d = |(n : ℚ) - roundDiv n d * d| := by
    rw [← abs_of_pos hpos, ← abs_mul, abs_of_pos hpos, sub_mul, div_mul_cancel₀ _ hpos.ne',
      Int.cast_natCast]
  have h1 : (2 : ℚ) * n ≤ 2 * (roundDiv n d * d) + d := by exact_mod_cast h1
  have h2 : (2 : ℚ) * (roundDiv n d * d) ≤ 2 * n + d := by exact_mod_cast h2
  constructor
  · refine le_of_mul_le_mul_right ?_ hpos
    rw [hscaled, abs_le]
    constructor <;> linarith
  · intro htie
    rw [htie] at hscaled
    refine (Int.even_coe_nat _).mpr (Nat.even_iff.mpr (roundDiv_even ?_ hd))
    rcases abs_choice ((n : ℚ) - roundDiv n d * d) with habs | habs
    · left
      have : (2 : ℚ) * n = 2 * (roundDiv n d * d) + d := by linarith
      exact_mod_cast this
    · right
      have : (2 : ℚ) * (roundDiv n d * d) = 2 * n + d := by linarith
      exact_mod_cast this

/-- `r` is `q` rounded to a number of decimal places, a tie going to the even last digit. -/
def IsRounded (places : Nat) (q r : ℚ) : Prop :=
  ∃ n : ℤ, IsNearestInt (q * 10 ^ places) n ∧ r = n / 10 ^ places

/-! ## Counts of units -/

/-- A count of units that the format can hold without the zeros that its weight stands for. -/
def significand (units : Nat) : Nat := units / 2 ^ (units.log2 - 52)

/-- A count of the format is a multiple of a weight, or less than what has 53 digits from that weight
on. -/
theorem Representable.dvd_or_lt {u : Nat} (hu : Representable u) (k : Nat) :
    2 ^ k ∣ u ∨ 0 < k ∧ u < 2 ^ (52 + k) := by
  by_cases hk : k ≤ u.log2 - 52
  · exact Or.inl ((Nat.pow_dvd_pow 2 hk).trans (Nat.dvd_of_mod_eq_zero hu.2))
  · exact Or.inr ⟨by omega,
      Nat.lt_of_lt_of_le Nat.lt_log2_self (Nat.pow_le_pow_right (by decide) (by omega))⟩

section

variable {n d u : Nat}

/-- If digits are cut off a fraction, it is not below a power of two. -/
theorem two_pow_le_of_excess (hd : 0 < d) (h : 0 < excess n d) : 2 ^ (52 + excess n d) * d ≤ n := by
  unfold excess at h ⊢
  rw [show 52 + ((n / d).log2 - 52) = (n / d).log2 by omega, ← Nat.le_div_iff_mul_le hd]
  refine Nat.log2_self_le fun h0 => ?_
  rw [h0] at h
  exact absurd h (by decide)

/-- What a fraction is rounded to is even if the quotient by the weight in use is. -/
theorem even_significand (hd : 0 < d) (h : Even (roundDiv n (d * 2 ^ excess n d))) :
    Even (significand (roundUnits n d)) := by
  have hle := roundDiv_excess_le (n := n) hd
  have hlow : 0 < excess n d → 2 ^ 52 ≤ roundDiv n (d * 2 ^ excess n d) := by
    intro hpos
    refine Nat.le_trans ?_ (div_le_roundDiv _ _)
    rw [Nat.le_div_iff_mul_le (Nat.mul_pos hd (Nat.two_pow_pos _)), Nat.mul_comm d, ← Nat.mul_assoc,
      ← Nat.pow_add]
    exact two_pow_le_of_excess hd hpos
  rw [roundUnits_eq, significand]
  generalize excess n d = k at *
  generalize roundDiv n (d * 2 ^ k) = m at *
  rcases Nat.lt_or_eq_of_le hle with hlt | rfl
  · -- The weight in use is the one of the result
    have hweight : (m * 2 ^ k).log2 - 52 = k := by
      rcases Nat.eq_zero_or_pos k with rfl | hpos
      · rw [Nat.pow_zero, Nat.mul_one]
        rcases Nat.eq_zero_or_pos m with rfl | hm
        · decide
        · have := (Nat.log2_lt (Nat.ne_of_gt hm)).mpr hlt
          omega
      · have hm := hlow hpos
        have hlog : (m * 2 ^ k).log2 = 52 + k := by
          rw [Nat.log2_eq_iff (by have := Nat.two_pow_pos k; positivity)]
          constructor
          · rw [Nat.pow_add]
            exact Nat.mul_le_mul_right _ hm
          · rw [show 52 + k + 1 = 53 + k by omega, Nat.pow_add]
            exact Nat.mul_lt_mul_of_pos_right hlt (Nat.two_pow_pos k)
        omega
    rw [hweight, Nat.mul_div_cancel _ (Nat.two_pow_pos k)]
    exact h
  · rw [← Nat.pow_add, Nat.log2_two_pow, show 53 + k - 52 = k + 1 by omega,
      Nat.pow_div (by omega) (by decide), show 53 + k - (k + 1) = 52 by omega]
    decide

/-- The distance of a fraction to a multiple of a weight, as a multiple of the weight. -/
theorem abs_sub_mul_two_pow (hd : 0 < d) (m k : Nat) :
    |(n / d : ℚ) - (m * 2 ^ k : ℕ)| = |(n / (d * 2 ^ k : ℕ) : ℚ) - (m : ℤ)| * 2 ^ k := by
  have hpos : (d : ℚ) ≠ 0 := by exact_mod_cast hd.ne'
  have hw : (0 : ℚ) < 2 ^ k := by positivity
  rw [← abs_of_pos hw, ← abs_mul]
  congr 1
  push_cast
  field_simp

/-- No count of the format is nearer to a fraction than what the fraction is rounded to, and if one
is as near, the result is even. -/
theorem roundUnits_nearest (hd : 0 < d) (hu : Representable u) :
    |(n / d : ℚ) - roundUnits n d| ≤ |(n / d : ℚ) - u| ∧
      (u ≠ roundUnits n d → |(n / d : ℚ) - u| = |(n / d : ℚ) - roundUnits n d| →
        Even (significand (roundUnits n d))) := by
  have hw : (0 : ℚ) < 2 ^ excess n d := by positivity
  have hnearest := isNearestInt_roundDiv n (Nat.mul_pos hd (Nat.two_pow_pos (excess n d)))
  have heven := even_significand (n := n) hd
  have hpow := two_pow_le_of_excess (n := n) hd
  rw [roundUnits_eq] at heven ⊢
  generalize excess n d = k at *
  generalize roundDiv n (d * 2 ^ k) = m at *
  rcases hu.dvd_or_lt k with ⟨j, rfl⟩ | ⟨hk, hlt⟩
  · rw [Nat.mul_comm (2 ^ k) j, abs_sub_mul_two_pow hd, abs_sub_mul_two_pow hd]
    refine ⟨mul_le_mul_of_nonneg_right (hnearest.le j) hw.le, fun hne htie => heven ?_⟩
    refine (Int.even_coe_nat m).mp (hnearest.even_of_tie (k := (j : ℤ)) ?_ ?_)
    · rintro heq
      exact hne (by rw [Int.natCast_inj.mp heq])
    · exact mul_right_cancel₀ hw.ne' htie
  · -- A power of two that the format can hold lies between the two
    have hlt : |(n / d : ℚ) - (m * 2 ^ k : ℕ)| < |(n / d : ℚ) - u| := by
      have hu : (u : ℚ) < (2 ^ 52 * 2 ^ k : ℕ) := by
        rw [← Nat.pow_add]
        exact_mod_cast hlt
      have hn : ((2 ^ 52 * 2 ^ k : ℕ) : ℚ) ≤ n / d := by
        rw [le_div_iff₀ (by exact_mod_cast hd), ← Nat.pow_add]
        exact_mod_cast hpow hk
      have hnear := mul_le_mul_of_nonneg_right (hnearest.le (2 ^ 52 : ℕ)) hw.le
      rw [← abs_sub_mul_two_pow hd, ← abs_sub_mul_two_pow hd, abs_of_nonneg (sub_nonneg.mpr hn)] at hnear
      rw [abs_of_pos (sub_pos.mpr (hu.trans_le hn))]
      exact hnear.trans_lt (sub_lt_sub_left hu _)
    exact ⟨hlt.le, fun _ htie => absurd htie hlt.ne'⟩

/-- Neither is a count below zero. -/
theorem roundUnits_nearest_int {i : ℤ} (hd : 0 < d) (hi : Representable i.natAbs) :
    |(n / d : ℚ) - roundUnits n d| ≤ |(n / d : ℚ) - i| ∧
      (i ≠ roundUnits n d → |(n / d : ℚ) - i| = |(n / d : ℚ) - roundUnits n d| →
        Even (significand (roundUnits n d))) := by
  rcases le_or_gt 0 i with hpos | hneg
  · obtain ⟨u, rfl⟩ := Int.eq_ofNat_of_zero_le hpos
    obtain ⟨hle, heven⟩ := roundUnits_nearest (n := n) hd hi
    exact ⟨hle, fun hne => heven (by exact_mod_cast hne)⟩
  · have hlt : |(n / d : ℚ) - roundUnits n d| < |(n / d : ℚ) - i| := by
      have hq : (0 : ℚ) ≤ n / d := by positivity
      have hi : (i : ℚ) < 0 := by exact_mod_cast hneg
      have hzero := (roundUnits_nearest (n := n) hd Binary64.representable_zero).1
      rw [Nat.cast_zero, sub_zero, abs_of_nonneg hq] at hzero
      rw [abs_of_pos (by linarith : (0 : ℚ) < n / d - i)]
      linarith
    exact ⟨hlt.le, fun _ htie => absurd htie hlt.ne'⟩

end

/-! ## Numbers -/

namespace Binary64

/-- The exact value of a finite number. -/
def value (x : Binary64) : ℚ := x.signedUnits / one

/-- `y` is the number of the format that is nearest to `r`; of two that are as near it is the one with
an even last digit. -/
structure IsNearest (r : ℚ) (y : Binary64) : Prop where
  finite : y.isFinite = true
  near : ∀ z : Binary64, z.isFinite = true → |r - y.value| ≤ |r - z.value|
  even : ∀ z : Binary64, z.isFinite = true → z.value ≠ y.value → |r - z.value| = |r - y.value| →
    Even (significand y.signedUnits.natAbs)

/-- The sign of a number as a factor. -/
def signum (s : Bool) : ℤ := if s then -1 else 1

theorem signum_mul_self (s : Bool) : signum s * signum s = 1 := by
  cases s <;> rfl

theorem abs_signum (s : Bool) : |(signum s : ℚ)| = 1 := by
  cases s <;> simp [signum]

theorem natAbs_signum_mul (s : Bool) (i : ℤ) : (signum s * i).natAbs = i.natAbs := by
  cases s <;> simp [signum]

theorem signedUnits_finite (s : Bool) {u : Nat} (hu : Representable u) :
    (finite s u hu).signedUnits = signum s * u := by
  cases s <;> simp [signum, signedUnits]

theorem representable_natAbs {x : Binary64} (hx : x.isFinite = true) :
    Representable x.signedUnits.natAbs := by
  obtain ⟨s, u, hu, rfl⟩ := exists_of_isFinite hx
  rw [signedUnits_finite, natAbs_signum_mul, Int.natAbs_natCast]
  exact hu

theorem cast_one_pos : (0 : ℚ) < one := by exact_mod_cast one_pos

/-- The distance to a number, in units and on the side of the sign. -/
theorem abs_sub_value (s : Bool) (q : ℚ) (x : Binary64) :
    |signum s * q / one - x.value| = |q - (signum s * x.signedUnits : ℤ)| / one := by
  have hself : (signum s * signum s : ℚ) = 1 := by exact_mod_cast signum_mul_self s
  have hflip : signum s * q - x.signedUnits =
      (signum s : ℚ) * (q - (signum s * x.signedUnits : ℤ)) := by
    push_cast
    linear_combination (x.signedUnits : ℚ) * hself
  rw [value, ← sub_div, abs_div, abs_of_pos cast_one_pos, hflip, abs_mul, abs_signum, one_mul]

/-- A fraction of units of either sign is brought to the nearest number. -/
theorem isNearest_ofUnits {n d : Nat} (hd : 0 < d) (h : Representable (roundUnits n d)) (s : Bool) :
    IsNearest (signum s * (n / d) / one) (ofUnits s (roundUnits n d)) := by
  have hself : signum s * (ofUnits s (roundUnits n d)).signedUnits = roundUnits n d := by
    rw [ofUnits_of_representable h, signedUnits_finite, ← Int.mul_assoc, signum_mul_self,
      Int.one_mul]
  have hunits : (ofUnits s (roundUnits n d)).signedUnits.natAbs = roundUnits n d := by
    rw [← natAbs_signum_mul s, hself, Int.natAbs_natCast]
  have hnearest : ∀ z : Binary64, z.isFinite = true → _ := fun z hz =>
    roundUnits_nearest_int (n := n) (i := signum s * z.signedUnits) hd
      (by rw [natAbs_signum_mul]; exact representable_natAbs hz)
  refine ⟨by rw [ofUnits_of_representable h]; rfl, fun z hz => ?_, fun z hz hne htie => ?_⟩
  · rw [abs_sub_value, abs_sub_value, hself]
    exact div_le_div_of_nonneg_right (hnearest z hz).1 cast_one_pos.le
  · rw [hunits]
    refine (hnearest z hz).2 (fun heq => hne ?_) ?_
    · rw [value, value, mul_left_cancel₀ (by cases s <;> decide) (heq.trans hself.symm)]
    · rw [abs_sub_value, abs_sub_value, hself] at htie
      exact (div_left_inj' cast_one_pos.ne').mp htie

/-- A power of ten, as the fraction of units that it is. -/
theorem ten_zpow_eq (e : Int) : (10 : ℚ) ^ e = (stepUnits e : ℕ) / (stepParts e : ℕ) / one := by
  have hpow : (10 : ℚ) ^ e = 10 ^ e.toNat / 10 ^ (-e).toNat := by
    rw [← zpow_natCast, ← zpow_natCast, ← zpow_sub₀ (by norm_num)]
    congr 1
    omega
  have hone := cast_one_pos.ne'
  rw [hpow, stepUnits, stepParts]
  push_cast
  field_simp

/-- A decimal of either sign is brought to the nearest number, if it is not out of range. -/
theorem isNearest_ofDecimal {s : Bool} {n : Nat} {e : Int} (he : -400 ≤ e)
    (h : (ofDecimal s n e).isFinite = true) :
    IsNearest (signum s * (n * 10 ^ e)) (ofDecimal s n e) := by
  rcases Nat.eq_zero_or_pos n with rfl | hn
  · have hzero := isNearest_ofUnits (n := 0) (d := 1) Nat.one_pos
      (by rw [roundUnits_of_representable representable_zero]; exact representable_zero) s
    rw [roundUnits_of_representable representable_zero] at hzero
    rw [Nat.cast_zero, zero_div, mul_zero, zero_div] at hzero
    rw [ofDecimal_zero, Nat.cast_zero, zero_mul, mul_zero]
    exact hzero
  have hlength := Nat.length_toDigits_pos (b := 10) (n := n)
  have hhigh : (Nat.toDigits 10 n).length + e ≤ 400 := by
    by_contra hout
    unfold ofDecimal at h
    dsimp only at h
    rw [if_neg (by omega), if_pos (by omega)] at h
    cases h
  rw [ofDecimal_eq hn (by omega) hhigh] at h ⊢
  have hrep : Representable (roundUnits (n * stepUnits e) (stepParts e)) := by
    by_contra hout
    rw [ofUnits, dif_neg hout] at h
    cases h
  have hvalue : (signum s * (n * 10 ^ e) : ℚ) =
      signum s * ((n * stepUnits e : ℕ) / (stepParts e : ℕ)) / one := by
    rw [ten_zpow_eq]
    push_cast
    ring
  rw [hvalue]
  exact isNearest_ofUnits (stepParts_pos e) hrep s

end Binary64

end LiveForm
