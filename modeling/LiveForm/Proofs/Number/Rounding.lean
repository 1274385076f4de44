import LiveForm.Proofs.Number.Binary64
import Mathlib.Tactic.Linarith
import Mathlib.Tactic.Ring

/-!
# Rounding to the nearest number of the format

`roundUnits n d` is the count of units nearest to `n / d` among those with 53 significant binary
digits.  It depends on the fraction only (`roundUnits_mul_right`), it is a count that the format can
hold unless it is out of range (`representable_roundUnits`), and it is a count `u` of the format
whenever the fraction is off `u` by less than one part in `2 ^ 54` (`roundUnits_of_near`): that is
less than half of the gap to the next number, also below a power of two, where the gap is narrower.
-/

namespace LiveForm

/-! ## Division to the nearest -/

section

variable {n d : Nat}

/-- The nearest natural number is off the fraction by one half at most. -/
theorem roundDiv_bounds (hd : 0 < d) :
    2 * n ≤ 2 * (roundDiv n d * d) + d ∧ 2 * (roundDiv n d * d) ≤ 2 * n + d := by
  have hn : d * (n / d) + n % d = n := Nat.div_add_mod n d
  have hr : n % d < d := Nat.mod_lt n hd
  have hsucc : (n / d + 1) * d = d * (n / d) + d := by ring
  have hsame : n / d * d = d * (n / d) := Nat.mul_comm _ _
  simp only [roundDiv]
  split_ifs <;> simp only [hsucc, hsame] <;> omega

/-- A natural number that is off the fraction by less than one half is the nearest one. -/
theorem roundDiv_of_near {m : Nat} (hd : 0 < d) (hlow : 2 * (m * d) < 2 * n + d)
    (hhigh : 2 * n < 2 * (m * d) + d) : roundDiv n d = m := by
  obtain ⟨h1, h2⟩ := roundDiv_bounds (n := n) hd
  rcases Nat.lt_trichotomy (roundDiv n d) m with h | h | h
  · have := Nat.mul_le_mul_right d (Nat.succ_le_of_lt h)
    rw [Nat.succ_mul] at this
    omega
  · exact h
  · have := Nat.mul_le_mul_right d (Nat.succ_le_of_lt h)
    rw [Nat.succ_mul] at this
    omega

theorem div_le_roundDiv (n d : Nat) : n / d ≤ roundDiv n d := by
  simp only [roundDiv]
  split_ifs <;> omega

/-- A greater fraction is rounded to no less. -/
theorem roundDiv_mono (hd : 0 < d) (h : n ≤ n') : roundDiv n d ≤ roundDiv n' d := by
  rcases Nat.eq_or_lt_of_le h with rfl | hlt
  · exact Nat.le_refl _
  · obtain ⟨-, hhigh⟩ := roundDiv_bounds (n := n) hd
    obtain ⟨hlow, -⟩ := roundDiv_bounds (n := n') hd
    by_contra hgt
    have hstep := Nat.mul_le_mul_right d (Nat.succ_le_of_lt (Nat.lt_of_not_le hgt))
    rw [Nat.succ_mul] at hstep
    omega

theorem roundDiv_mul_right {c : Nat} (hc : 0 < c) : roundDiv (n * c) (d * c) = roundDiv n d := by
  have hmod : n * c % (d * c) = n % d * c := Nat.mul_mod_mul_right c n d
  have hlow : 2 * (n % d * c) < d * c ↔ 2 * (n % d) < d := by
    rw [← Nat.mul_assoc]
    exact Nat.mul_lt_mul_right hc
  have hhigh : d * c < 2 * (n % d * c) ↔ d < 2 * (n % d) := by
    rw [← Nat.mul_assoc]
    exact Nat.mul_lt_mul_right hc
  simp only [roundDiv, Nat.mul_div_mul_right n d hc, hmod, hlow, hhigh]

end

/-! ## Counts with 53 digits -/

section

variable {n d : Nat}

/-- Rounding depends on the fraction only. -/
theorem roundUnits_mul_right {c : Nat} (hc : 0 < c) :
    roundUnits (n * c) (d * c) = roundUnits n d := by
  simp only [roundUnits, Nat.mul_div_mul_right n d hc, Nat.mul_right_comm d c]
  rw [roundDiv_mul_right hc]

/-- The binary digits that are cut off, in number. -/
def excess (n d : Nat) : Nat := (n / d).log2 - 52

theorem roundUnits_eq : roundUnits n d =
    roundDiv n (d * 2 ^ excess n d) * 2 ^ excess n d := rfl

/-- The fraction has 53 binary digits before those that are cut off. -/
theorem lt_of_excess (hd : 0 < d) : n < 2 ^ 53 * 2 ^ excess n d * d := by
  have hq : n / d < 2 ^ ((n / d).log2 + 1) := Nat.lt_log2_self
  have hle : 2 ^ ((n / d).log2 + 1) ≤ 2 ^ (53 + excess n d) :=
    Nat.pow_le_pow_right (by decide) (by unfold excess; omega)
  rw [← Nat.pow_add]
  exact (Nat.div_lt_iff_lt_mul hd).mp (Nat.lt_of_lt_of_le hq hle)

/-- Fewer digits are cut off a fraction below a power of two. -/
theorem excess_le {k : Nat} (hd : 0 < d) (h : n < 2 ^ (53 + k) * d) : excess n d ≤ k := by
  have hq : n / d < 2 ^ (53 + k) := (Nat.div_lt_iff_lt_mul hd).mpr h
  unfold excess
  by_cases h0 : n / d = 0
  · rw [h0]
    exact Nat.zero_le k
  · have := (Nat.log2_lt h0).mpr hq
    omega

/-- As many digits are cut off a fraction above a power of two. -/
theorem le_excess {k : Nat} (hd : 0 < d) (h : 2 ^ (52 + k) * d ≤ n) : k ≤ excess n d := by
  have hq : 2 ^ (52 + k) ≤ n / d := (Nat.le_div_iff_mul_le hd).mpr h
  have h0 : n / d ≠ 0 := by
    have := Nat.two_pow_pos (52 + k)
    omega
  have := (Nat.le_log2 h0).mpr hq
  unfold excess
  omega

theorem roundDiv_excess_le (hd : 0 < d) : roundDiv n (d * 2 ^ excess n d) ≤ 2 ^ 53 := by
  have hpos : 0 < d * 2 ^ excess n d := Nat.mul_pos hd (Nat.two_pow_pos _)
  obtain ⟨-, hb⟩ := roundDiv_bounds (n := n) hpos
  have hn : n < 2 ^ 53 * (d * 2 ^ excess n d) := by
    have := lt_of_excess (n := n) hd
    rwa [Nat.mul_assoc, Nat.mul_comm _ d] at this
  by_contra h
  have := Nat.mul_le_mul_right (d * 2 ^ excess n d) (Nat.succ_le_of_lt (Nat.lt_of_not_le h))
  rw [Nat.succ_mul] at this
  omega

/-- A count with 53 digits is a multiple of the weight of its 53rd digit. -/
theorem mod_weight {m : Nat} (hm : m ≤ 2 ^ 53) (k : Nat) :
    m * 2 ^ k % 2 ^ ((m * 2 ^ k).log2 - 52) = 0 := by
  apply Nat.mod_eq_zero_of_dvd
  rcases Nat.lt_or_eq_of_le hm with h | rfl
  · by_cases h0 : m * 2 ^ k = 0
    · rw [h0]
      exact Nat.dvd_zero _
    · have hlt : m * 2 ^ k < 2 ^ (53 + k) := by
        rw [Nat.pow_add]
        exact Nat.mul_lt_mul_of_pos_right h (Nat.two_pow_pos k)
      have hlog := (Nat.log2_lt h0).mpr hlt
      exact Nat.dvd_mul_left_of_dvd (Nat.pow_dvd_pow 2 (by omega)) m
  · rw [← Nat.pow_add, Nat.log2_two_pow]
    exact Nat.pow_dvd_pow 2 (by omega)

/-- What rounding makes is a count of the format, unless it is out of range. -/
theorem representable_roundUnits (hd : 0 < d) (h : roundUnits n d < Nat.pow 2 2098) :
    Representable (roundUnits n d) :=
  ⟨h, mod_weight (roundDiv_excess_le hd) _⟩

/-- A fraction that is not below a power of two is not rounded to less. -/
theorem two_pow_le_roundUnits {k : Nat} (hd : 0 < d) (h : 2 ^ k * d ≤ n) :
    2 ^ k ≤ roundUnits n d := by
  have hq : 2 ^ k ≤ n / d := (Nat.le_div_iff_mul_le hd).mpr h
  have h0 : n / d ≠ 0 := by
    have := Nat.two_pow_pos k
    omega
  have hk : k ≤ (n / d).log2 := (Nat.le_log2 h0).mpr hq
  have hexcess : excess n d ≤ (n / d).log2 := Nat.sub_le _ _
  have hdiv : 2 ^ ((n / d).log2 - excess n d) ≤ n / d / 2 ^ excess n d := by
    rw [Nat.le_div_iff_mul_le (Nat.two_pow_pos _), ← Nat.pow_add, Nat.sub_add_cancel hexcess]
    exact Nat.log2_self_le h0
  calc 2 ^ k ≤ 2 ^ (n / d).log2 := Nat.pow_le_pow_right (by decide) hk
    _ = 2 ^ ((n / d).log2 - excess n d) * 2 ^ excess n d := by
        rw [← Nat.pow_add, Nat.sub_add_cancel hexcess]
    _ ≤ n / d / 2 ^ excess n d * 2 ^ excess n d := Nat.mul_le_mul_right _ hdiv
    _ ≤ roundUnits n d := by
        rw [roundUnits_eq, Nat.div_div_eq_div_mul]
        exact Nat.mul_le_mul_right _ (div_le_roundDiv n _)

/-- A greater fraction is rounded to no less, also where more of its digits are cut off. -/
theorem roundUnits_mono (hd : 0 < d) (h : n ≤ n') : roundUnits n d ≤ roundUnits n' d := by
  have hexcess : excess n d ≤ excess n' d := by
    refine excess_le hd (Nat.lt_of_le_of_lt h ?_)
    rw [Nat.pow_add]
    exact lt_of_excess hd
  rcases Nat.eq_or_lt_of_le hexcess with heq | hlt
  · rw [roundUnits_eq, roundUnits_eq, heq]
    exact Nat.mul_le_mul_right _ (roundDiv_mono (Nat.mul_pos hd (Nat.two_pow_pos _)) h)
  · -- Between the two lies a power of two
    have hpow : 2 ^ (53 + excess n d) * d ≤ n' := by
      by_contra hlow
      exact Nat.not_le_of_lt hlt (excess_le hd (Nat.lt_of_not_le hlow))
    calc roundUnits n d
      _ ≤ 2 ^ 53 * 2 ^ excess n d := Nat.mul_le_mul_right _ (roundDiv_excess_le hd)
      _ = 2 ^ (53 + excess n d) := (Nat.pow_add 2 53 _).symm
      _ ≤ roundUnits n' d := two_pow_le_roundUnits hd hpow

/-- A fraction below the greatest count with so many digits, or less than half a gap above it, is
rounded to one of these counts. -/
theorem roundUnits_lt {k : Nat} (hd : 0 < d) (h : 2 * n + 2 ^ k * d < 2 ^ 54 * (2 ^ k * d)) :
    roundUnits n d < 2 ^ (53 + k) := by
  have hle : excess n d ≤ k := by
    refine excess_le hd ?_
    rw [Nat.pow_add, Nat.mul_assoc]
    omega
  rw [roundUnits_eq, Nat.pow_add]
  rcases Nat.lt_or_eq_of_le hle with hlt | heq
  · exact Nat.lt_of_le_of_lt (Nat.mul_le_mul_right _ (roundDiv_excess_le hd))
      (Nat.mul_lt_mul_of_pos_left (Nat.pow_lt_pow_right (by decide) hlt) (by decide))
  · rw [heq]
    have hpos : 0 < d * 2 ^ k := Nat.mul_pos hd (Nat.two_pow_pos k)
    obtain ⟨-, hb⟩ := roundDiv_bounds (n := n) hpos
    refine Nat.mul_lt_mul_of_pos_right ?_ (Nat.two_pow_pos k)
    by_contra hr
    have := Nat.mul_le_mul_right (d * 2 ^ k) (Nat.le_of_not_lt hr)
    rw [Nat.mul_comm (2 ^ k) d] at h
    omega

/-- A multiple of the weight in use that is less than half of it off the fraction is what the
fraction is rounded to. -/
theorem roundUnits_of_dvd {u : Nat} (hd : 0 < d) (hdvd : 2 ^ excess n d ∣ u)
    (hlow : 2 * (u * d) < 2 * n + 2 ^ excess n d * d)
    (hhigh : 2 * n < 2 * (u * d) + 2 ^ excess n d * d) : roundUnits n d = u := by
  obtain ⟨m, rfl⟩ := hdvd
  have hpos : 0 < d * 2 ^ excess n d := Nat.mul_pos hd (Nat.two_pow_pos _)
  have hu : m * (d * 2 ^ excess n d) = 2 ^ excess n d * m * d := by ring
  have hw : d * 2 ^ excess n d = 2 ^ excess n d * d := Nat.mul_comm _ _
  rw [roundUnits_eq, roundDiv_of_near hpos (by rw [hu, hw]; exact hlow)
    (by rw [hu, hw]; exact hhigh), Nat.mul_comm]

/-- A representable count of at least 54 digits, as a multiple of twice the power of two that is the
weight of its 54th digit. -/
theorem Representable.exists_weight {u : Nat} (hu : Representable u) (h : 2 ^ 53 ≤ u) :
    ∃ m k, u = 2 * (m * 2 ^ k) ∧ 2 ^ 52 ≤ m ∧ m < 2 ^ 53 := by
  have h0 : u ≠ 0 := by omega
  have hlog : 53 ≤ u.log2 := (Nat.le_log2 h0).mpr h
  obtain ⟨k, hk⟩ := Nat.exists_eq_add_of_le hlog
  have hexp : u.log2 - 52 = k + 1 := by omega
  obtain ⟨m, hm⟩ := Nat.dvd_of_mod_eq_zero hu.2
  have hm : u = 2 ^ (k + 1) * m := by
    rw [hexp] at hm
    exact hm
  have hlow : 2 ^ (k + 1) * 2 ^ 52 ≤ 2 ^ (k + 1) * m := by
    rw [← hm, ← Nat.pow_add, show k + 1 + 52 = u.log2 by omega]
    exact Nat.log2_self_le h0
  have hhigh : 2 ^ (k + 1) * m < 2 ^ (k + 1) * 2 ^ 53 := by
    rw [← hm, ← Nat.pow_add, show k + 1 + 53 = u.log2 + 1 by omega]
    exact Nat.lt_log2_self
  refine ⟨m, k, ?_, Nat.le_of_mul_le_mul_left hlow (Nat.two_pow_pos _),
    Nat.lt_of_mul_lt_mul_left hhigh⟩
  rw [hm]
  ring

/-- A fraction that is off a count of the format by less than one part in `2 ^ 54` is rounded to
it. -/
theorem roundUnits_of_near {u : Nat} (hd : 0 < d) (hu : Representable u)
    (hlow : 2 ^ 54 * (u * d) < 2 ^ 54 * n + u * d) (hhigh : 2 ^ 54 * n < 2 ^ 54 * (u * d) + u * d) :
    roundUnits n d = u := by
  rcases Nat.lt_or_ge u (2 ^ 53) with hsmall | hlarge
  · -- All units count: the gaps are one unit wide
    have hud : u * d ≤ (2 ^ 53 - 1) * d := Nat.mul_le_mul_right d (by omega)
    have hexcess : excess n d = 0 := Nat.le_zero.mp (excess_le hd (by rw [Nat.add_zero]; omega))
    apply roundUnits_of_dvd hd
    · rw [hexcess]
      exact Nat.one_dvd u
    · rw [hexcess, Nat.pow_zero]
      omega
    · rw [hexcess, Nat.pow_zero]
      omega
  · obtain ⟨m, k, rfl, hm1, hm2⟩ := hu.exists_weight hlarge
    have hud : 2 * (m * 2 ^ k) * d = 2 * (m * (2 ^ k * d)) := by ring
    have hY1 : 2 ^ 52 * (2 ^ k * d) ≤ m * (2 ^ k * d) := Nat.mul_le_mul_right _ hm1
    have hY2 : m * (2 ^ k * d) ≤ (2 ^ 53 - 1) * (2 ^ k * d) := Nat.mul_le_mul_right _ (by omega)
    rw [hud] at hlow hhigh
    have hpow : ∀ i j, 2 ^ (i + j) * d = 2 ^ i * (2 ^ j * d) := fun i j => by
      rw [Nat.pow_add, Nat.mul_assoc]
    rcases Nat.lt_or_ge n (2 ^ 53 * (2 ^ k * d)) with hn | hn
    · -- Below a power of two the gap is half as wide, and only that power is near enough
      have hm : m = 2 ^ 52 := by
        by_contra hne
        have hY : (2 ^ 52 + 1) * (2 ^ k * d) ≤ m * (2 ^ k * d) :=
          Nat.mul_le_mul_right _ (by omega)
        omega
      subst hm
      have hexcess : excess n d = k :=
        Nat.le_antisymm (excess_le hd (by rw [hpow]; exact hn))
          (le_excess hd (by rw [hpow]; omega))
      apply roundUnits_of_dvd hd
      · rw [hexcess]
        exact Nat.dvd_mul_left_of_dvd (Nat.dvd_mul_left _ _) _
      · rw [hexcess, hud]
        omega
      · rw [hexcess, hud]
        omega
    · have hstep : 2 ^ (k + 1) * d = 2 * (2 ^ k * d) := by ring
      have hexcess : excess n d = k + 1 :=
        Nat.le_antisymm (excess_le hd (by rw [hpow, hstep]; omega))
          (le_excess hd (by rw [hpow, hstep]; omega))
      apply roundUnits_of_dvd hd
      · rw [hexcess]
        exact ⟨m, by ring⟩
      · rw [hexcess, hud, hstep]
        omega
      · rw [hexcess, hud, hstep]
        omega

end

/-! ## The range of the format -/

/-- The gap between the greatest numbers of the format, in units. -/
def widestGap : Nat := Nat.pow 2 2045

/-- The exponent of the gap, kept from being carried out. -/
theorem widestGap_eq : ∃ k, k = 2045 ∧ widestGap = Nat.pow 2 k :=
  ⟨2045, rfl, by unfold widestGap; rfl⟩

theorem pow_le_widestGap {k : Nat} (h : k ≤ 2045) : 2 ^ k ≤ widestGap := by
  obtain ⟨m, hm, hgap⟩ := widestGap_eq
  rw [hgap]
  exact Nat.pow_le_pow_right (by decide) (by omega)

theorem pow_mul_widestGap : 2 ^ 53 * widestGap = Nat.pow 2 2098 := by
  obtain ⟨m, hm, hgap⟩ := widestGap_eq
  rw [hgap, show 2098 = 53 + m by omega]
  exact (Nat.pow_add 2 53 m).symm

/-- The greatest count of units that the format can hold. -/
theorem Representable.le {u : Nat} (h : Representable u) : u ≤ (2 ^ 53 - 1) * widestGap := by
  have hgap : 1 ≤ widestGap := pow_le_widestGap (Nat.zero_le _)
  rcases Nat.lt_or_ge u (2 ^ 53) with hsmall | hge
  · exact Nat.le_trans (Nat.le_sub_one_of_lt hsmall) (Nat.le_mul_of_pos_right _ hgap)
  · obtain ⟨m, k, rfl, hm1, hm2⟩ := h.exists_weight hge
    have hexp : ∀ K, 2 * (m * 2 ^ k) < Nat.pow 2 K → 53 + k < K := by
      intro K hK
      have hle : 2 ^ (53 + k) ≤ 2 * (m * 2 ^ k) := by
        rw [Nat.pow_add, show 2 ^ 53 = 2 * 2 ^ 52 from rfl, Nat.mul_assoc]
        exact Nat.mul_le_mul_left 2 (Nat.mul_le_mul_right _ hm1)
      exact (Nat.pow_lt_pow_iff_right (by decide : 1 < 2)).mp (Nat.lt_of_le_of_lt hle hK)
    have hk : 53 + k < 2098 := hexp 2098 h.1
    calc 2 * (m * 2 ^ k) = m * 2 ^ (k + 1) := by ring
      _ ≤ (2 ^ 53 - 1) * widestGap := Nat.mul_le_mul (by omega) (pow_le_widestGap (by omega))

/-- A fraction that is less than half of a gap above the greatest number is rounded to a number of
the format. -/
theorem representable_roundUnits_of_lt {n d : Nat} (hd : 0 < d)
    (h : 2 * n + widestGap * d < 2 ^ 54 * (widestGap * d)) : Representable (roundUnits n d) := by
  obtain ⟨k, -, hgap⟩ := widestGap_eq
  rw [hgap] at h
  refine representable_roundUnits hd ?_
  rw [← pow_mul_widestGap, hgap]
  have := roundUnits_lt hd h
  rwa [Nat.pow_add] at this

end LiveForm
