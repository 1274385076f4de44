import LiveForm.Proofs.Number.Rounding
import Mathlib.Data.Prod.Lex

/-!
# The order of binary floating point numbers

But for "not a number", the numbers are ordered as their places: the infinities lie outside, and
between them a number lies where its count of units does.  Sums are rounded, but adding what is not
negative still makes no number smaller (`Binary64.le_add`).
-/

namespace LiveForm.Binary64

variable {x y z : Binary64}

/-- Where a number lies: on which side of the finite ones, and where among them.  Both zeros have
one place. -/
def place : Binary64 → Int ×ₗ Int
  | nan => toLex (0, 0)
  | infinite negative => toLex (if negative then -1 else 1, 0)
  | x@(finite ..) => toLex (0, x.signedUnits)

theorem lt_iff_place (hx : x.isNaN = false) (hy : y.isNaN = false) :
    x.lt y = true ↔ x.place < y.place := by
  cases x with
  | nan => cases hx
  | infinite s =>
    cases y with
    | nan => cases hy
    | infinite t => cases s <;> cases t <;> simp [lt, place, Prod.Lex.toLex_lt_toLex]
    | finite t v hv => cases s <;> simp [lt, place, Prod.Lex.toLex_lt_toLex]
  | finite s u hu =>
    cases y with
    | nan => cases hy
    | infinite t => cases t <;> simp [lt, place, Prod.Lex.toLex_lt_toLex]
    | finite t v hv => simp [lt, place, Prod.Lex.toLex_lt_toLex]

theorem eqv_iff_place (hx : x.isNaN = false) (hy : y.isNaN = false) :
    x.eqv y = true ↔ x.place = y.place := by
  cases x with
  | nan => cases hx
  | infinite s =>
    cases y with
    | nan => cases hy
    | infinite t => cases s <;> cases t <;> simp [eqv, place]
    | finite t v hv => cases s <;> simp [eqv, place]
  | finite s u hu =>
    cases y with
    | nan => cases hy
    | infinite t => cases t <;> simp [eqv, place]
    | finite t v hv => simp [eqv, place]

theorem isNaN_of_le (h : x ≤ y) : x.isNaN = false ∧ y.isNaN = false := by
  cases x with
  | nan => cases h
  | infinite s | finite s u hu =>
    cases y with
    | nan => cases h
    | infinite t | finite t v hv => exact ⟨rfl, rfl⟩

theorem place_le_of_le (h : x ≤ y) : x.place ≤ y.place := by
  obtain ⟨hx, hy⟩ := isNaN_of_le h
  rcases Bool.or_eq_true_iff.mp h with hlt | heqv
  · exact ((lt_iff_place hx hy).mp hlt).le
  · exact ((eqv_iff_place hx hy).mp heqv).le

theorem isNaN_of_isFinite (h : x.isFinite = true) : x.isNaN = false := by
  obtain ⟨s, u, r, rfl⟩ := exists_of_isFinite h
  rfl

theorem isFinite_zero : (0 : Binary64).isFinite = true := by
  rw [zero_eq]
  rfl

theorem le_iff_place (hx : x.isNaN = false) (hy : y.isNaN = false) : x ≤ y ↔ x.place ≤ y.place := by
  refine ⟨place_le_of_le, fun h => Bool.or_eq_true_iff.mpr ?_⟩
  exact (lt_or_eq_of_le h).imp (lt_iff_place hx hy).mpr (eqv_iff_place hx hy).mpr

protected theorem le_refl (hx : x.isNaN = false) : x ≤ x := (le_iff_place hx hx).mpr le_rfl

protected theorem le_trans (h : x ≤ y) (h' : y ≤ z) : x ≤ z :=
  (le_iff_place (isNaN_of_le h).1 (isNaN_of_le h').2).mpr
    ((place_le_of_le h).trans (place_le_of_le h'))

protected theorem le_of_lt (h : x < y) : x ≤ y := Bool.or_eq_true_iff.mpr (Or.inl h)

protected theorem not_le (hx : x.isNaN = false) (hy : y.isNaN = false) : ¬ x ≤ y ↔ y < x := by
  rw [le_iff_place hx hy, not_le]
  exact (lt_iff_place hy hx).symm

/-! ## The greater of two numbers -/

protected theorem max_eq_right (h : x < y) : x.max y = y := if_pos h

protected theorem max_eq_or (x y : Binary64) : x.max y = x ∨ x.max y = y := by
  unfold max
  split
  · exact Or.inr rfl
  · exact Or.inl rfl

theorem isFinite_max (hx : x.isFinite = true) (hy : y.isFinite = true) :
    (x.max y).isFinite = true := by
  rcases Binary64.max_eq_or x y with h | h
  · exact (congrArg isFinite h).trans hx
  · exact (congrArg isFinite h).trans hy

protected theorem le_max_left (hx : x.isNaN = false) (y : Binary64) : x ≤ x.max y := by
  unfold max
  split
  · next h => exact Binary64.le_of_lt h
  · exact Binary64.le_refl hx

protected theorem le_max_right (hx : x.isNaN = false) (hy : y.isNaN = false) : y ≤ x.max y := by
  unfold max
  split
  · exact Binary64.le_refl hy
  · next h => exact Decidable.not_not.mp fun hle => h ((Binary64.not_le hy hx).mp hle)

protected theorem max_le (hx : x ≤ z) (hy : y ≤ z) : x.max y ≤ z := by
  rcases Binary64.max_eq_or x y with h | h
  · rwa [h]
  · rwa [h]

/-! ## Sums -/

theorem zero_le_cases (h : 0 ≤ y) :
    y = infinite false ∨ ∃ s v r, y = finite s v r ∧ 0 ≤ y.signedUnits := by
  rw [zero_eq] at h
  have hplace := place_le_of_le h
  cases y with
  | nan => cases h
  | infinite s =>
    cases s with
    | false => exact Or.inl rfl
    | true => cases h
  | finite s v r =>
    refine Or.inr ⟨s, v, r, rfl, ?_⟩
    simpa [place, Prod.Lex.toLex_le_toLex, signedUnits] using hplace

/-- A sum of finite numbers is a number, if it is not out of range. -/
theorem isNaN_add (hx : x.isNaN = false) (hy : y.isFinite = true) : (x + y).isNaN = false := by
  obtain ⟨t, v, r, rfl⟩ := exists_of_isFinite hy
  show (add _ _).isNaN = false
  cases x with
  | nan => cases hx
  | infinite s => rfl
  | finite s u hu =>
    simp only [add, ofSignedUnits, ofUnits]
    split_ifs <;> rfl

theorem finite_le {s t : Bool} {u v : Nat} {hu : Representable u} {hv : Representable v} :
    finite s u hu ≤ finite t v hv ↔ (finite s u hu).signedUnits ≤ (finite t v hv).signedUnits := by
  rw [le_iff_place rfl rfl]
  simp [place, Prod.Lex.toLex_le_toLex]

theorem le_infinite (hx : x.isFinite = true) : x ≤ infinite false := by
  obtain ⟨s, u, hu, rfl⟩ := exists_of_isFinite hx
  rfl

theorem signedUnits_positive {u : Nat} (hu : Representable u) :
    (finite false u hu).signedUnits = u := rfl

theorem signedUnits_negative {u : Nat} (hu : Representable u) :
    (finite true u hu).signedUnits = -u := rfl

/-- What is not below a number is not rounded to less. -/
theorem le_ofSignedUnits {i : Int} (hx : x.isFinite = true) (h : x.signedUnits ≤ i) :
    x ≤ ofSignedUnits i := by
  obtain ⟨s, u, hu, rfl⟩ := exists_of_isFinite hx
  have hround : roundUnits u 1 = u := roundUnits_of_representable hu
  by_cases hi : i < 0
  · cases s with
    | false =>
      rw [signedUnits_positive] at h
      omega
    | true =>
      rw [signedUnits_negative] at h
      have hle : roundUnits i.natAbs 1 ≤ u := hround ▸ roundUnits_mono Nat.one_pos (by omega)
      have hrep := representable_roundUnits Nat.one_pos (Nat.lt_of_le_of_lt hle hu.1)
      rw [ofSignedUnits, decide_eq_true hi, ofUnits_of_representable hrep, finite_le,
        signedUnits_negative, signedUnits_negative]
      omega
  · rw [ofSignedUnits, decide_eq_false hi, ofUnits]
    split
    · rw [finite_le, signedUnits_positive]
      cases s with
      | false =>
        rw [signedUnits_positive] at h ⊢
        exact Int.ofNat_le.mpr (hround ▸ roundUnits_mono Nat.one_pos (by omega))
      | true =>
        rw [signedUnits_negative]
        omega
    · exact le_infinite rfl

/-- Adding what is not negative makes no number smaller, also when the sum is rounded. -/
protected theorem le_add (hsum : (x + y).isNaN = false) (hy : 0 ≤ y) : x ≤ x + y := by
  change (add x y).isNaN = false at hsum
  show x ≤ add x y
  rcases zero_le_cases hy with rfl | ⟨t, v, hv, rfl, hv0⟩
  · cases x with
    | nan => cases hsum
    | infinite s =>
      cases s with
      | true => cases hsum
      | false => rfl
    | finite s u hu => rfl
  · cases x with
    | nan => cases hsum
    | infinite s => exact Binary64.le_refl rfl
    | finite s u hu =>
      simp only [add]
      split
      · next h =>
        rw [ofUnits_of_representable representable_zero, finite_le]
        have hzero : (finite (s && t) 0 representable_zero).signedUnits = 0 := by
          cases s && t <;> rfl
        omega
      · exact le_ofSignedUnits rfl (by omega)

/-- From a finite number on, adding what is not negative makes no number smaller. -/
theorem le_add_of_finite_le (hz : z.isFinite = true) (hx : z ≤ x) (hy : 0 ≤ y) : x ≤ x + y := by
  obtain ⟨s, u, hu, rfl⟩ := exists_of_isFinite hz
  rcases zero_le_cases hy with rfl | ⟨t, v, hv, rfl, -⟩
  · refine Binary64.le_add ?_ hy
    cases x with
    | nan => cases hx
    | infinite t =>
      cases t with
      | true => cases hx
      | false => rfl
    | finite t v hv => rfl
  · exact Binary64.le_add (isNaN_add (isNaN_of_le hx).2 rfl) hy

end LiveForm.Binary64
