import LiveForm.Proofs.Number.Nearest
import LiveForm.Proofs.Number.Order
import LiveForm.Proofs.Value.Entered
import LiveForm.Proofs.Value.Mirror

/-!
# Numbers that are shown

A number is shown rounded to some places and grouped by thousands, and the text can be entered
again.  The digits that are written denote the rounded magnitude (`IsWritten.value_eq`), and the marks
between them are taken for what they are under the convention that put them there
(`normalizeSeparators_amount`), so that the text is read as the number nearest to what it shows.
-/

namespace LiveForm

open Text

/-! ## What is written -/

/-- What a numeral denotes. -/
def Number.Numeral.value (m : Number.Numeral) : ℚ :=
  digitsValue (m.whole ++ m.fraction) * 10 ^ (m.exponent - m.fraction.length)

/-- The digits before and behind the point are those of the magnitude rounded to this many places;
zeros at the end may be missing. -/
structure IsWritten (units places : Nat) (whole fraction : List Char) : Prop where
  whole_digits : AllDigits whole
  fraction_digits : AllDigits fraction
  whole_ne : whole ≠ []
  length_le : fraction.length ≤ places
  value : digitsValue (whole ++ fraction) * 10 ^ (places - fraction.length) =
    Binary64.scaledMagnitude units places

theorem isWritten_fixedDigits (units places : Nat) :
    IsWritten units places (Binary64.fixedDigits units places).1
      (Binary64.fixedDigits units places).2 where
  whole_digits := (Binary64.allDigits_fixedDigits units places).1
  fraction_digits := (Binary64.allDigits_fixedDigits units places).2
  whole_ne := Binary64.fixedDigits_ne_nil units places
  length_le := (Binary64.length_fixedDigits units places).le
  value := by
    rw [Binary64.length_fixedDigits, Nat.sub_self, Nat.pow_zero, Nat.mul_one,
      Binary64.digitsValue_fixedDigits]

theorem isWritten_shownFraction (units : Nat) :
    IsWritten units 3 (Binary64.fixedDigits units 3).1 (shownFraction units) := by
  have h := isWritten_fixedDigits units 3
  obtain ⟨z, hz⟩ : ∃ z, (Binary64.fixedDigits units 3).2 =
      shownFraction units ++ List.replicate z '0' := Binary64.exists_zeros _
  have hlength := Binary64.length_fixedDigits units 3
  rw [hz, List.length_append, List.length_replicate] at hlength
  refine ⟨h.whole_digits, allDigits_shownFraction units, h.whole_ne, by omega, ?_⟩
  rw [← Binary64.digitsValue_fixedDigits, hz, ← List.append_assoc, digitsValue_append _
    (List.replicate z '0'), digitsValue_zeros, List.length_replicate, Nat.add_zero]
  congr 2
  omega

/-- Digits with a point between them, if there are any behind it. -/
def pointed (whole fraction : List Char) : List Char :=
  whole ++ if fraction = [] then [] else '.' :: fraction

namespace IsWritten

variable {units places : Nat} {whole fraction : List Char}
  (h : IsWritten units places whole fraction)

include h

/-- The digits denote the rounded magnitude. -/
theorem value_eq :
    (⟨whole, fraction, 0⟩ : Number.Numeral).value =
      (Binary64.scaledMagnitude units places : ℚ) / 10 ^ places := by
  have hpow : (10 : ℚ) ^ places = 10 ^ (places - fraction.length) * 10 ^ fraction.length := by
    rw [← pow_add, Nat.sub_add_cancel h.length_le]
  rw [Number.Numeral.value, ← h.value, zero_sub, zpow_neg, zpow_natCast, hpow]
  push_cast
  field_simp

theorem isRounded (s : Bool) (r : Representable units) :
    IsRounded places |(Binary64.finite s units r).value|
      (⟨whole, fraction, 0⟩ : Number.Numeral).value := by
  refine ⟨Binary64.scaledMagnitude units places, ?_, h.value_eq⟩
  have hvalue : |(Binary64.finite s units r).value| * 10 ^ places =
      ((units * 10 ^ places : ℕ) : ℚ) / (Binary64.one : ℕ) := by
    rw [Binary64.value, Binary64.signedUnits_finite, abs_div, Int.cast_mul, abs_mul,
      Binary64.abs_signum, abs_of_pos Binary64.cast_one_pos]
    push_cast
    rw [Nat.abs_cast]
    ring
  have hscaled : Binary64.scaledMagnitude units places = roundDiv (units * 10 ^ places) Binary64.one := by
    rw [Binary64.scaledMagnitude, if_pos (Int.natCast_nonneg places), Int.toNat_natCast, Nat.pow_eq]
  rw [hvalue, hscaled]
  exact isNearestInt_roundDiv _ Binary64.one_pos

theorem toBinary64_eq (s : Bool) :
    (⟨whole, fraction, 0⟩ : Number.Numeral).toBinary64 s =
      .ofDecimal s (Binary64.scaledMagnitude units places) (-places) := by
  have hexponent : -(places : Int) + (places - fraction.length : ℕ) = 0 - fraction.length := by
    have := h.length_le
    omega
  rw [← h.value, Binary64.ofDecimal_mul_pow, hexponent, Number.Numeral.toBinary64]

/-- What is written is read as the number that is nearest to it. -/
theorem isNearest (s : Bool) (r : Representable units) (hplaces : places ≤ 323) :
    Binary64.IsNearest
      (Binary64.signum s * (⟨whole, fraction, 0⟩ : Number.Numeral).value)
      ((⟨whole, fraction, 0⟩ : Number.Numeral).toBinary64 s) := by
  have hexponent : (-400 : Int) ≤ 0 - fraction.length := by
    have := h.length_le
    omega
  refine Binary64.isNearest_ofDecimal hexponent ?_
  have hround : (Binary64.finite s units r).roundPlaces places =
      .ofDecimal s (Binary64.scaledMagnitude units places) (-places) := by
    rw [Binary64.roundPlaces, if_neg (by omega), if_neg (by omega)]
  have hfinite : ((Binary64.finite s units r).roundPlaces places).isFinite = true :=
    Binary64.isFinite_roundPlaces rfl (Or.inr (by omega))
  rwa [hround, ← h.toBinary64_eq] at hfinite

theorem scanNumeral?_pointed :
    Number.scanNumeral? (pointed whole fraction) = some (⟨whole, fraction, 0⟩, []) := by
  have hwhole := h.whole_digits.isDecimalDigit
  by_cases hnone : fraction = []
  · rw [pointed, if_pos hnone, hnone]
    exact NumeralLayout.scanNumeral?_of_parts h.whole_ne hwhole nofun rfl rfl
  · rw [pointed, if_neg hnone]
    have hpoint := NumeralLayout.scanFraction_point (z := [])
      h.fraction_digits.isDecimalDigit nofun
    rw [List.append_nil] at hpoint
    exact NumeralLayout.scanNumeral?_of_parts h.whole_ne hwhole
      (NumeralLayout.not_isDecimalDigit_head (by decide)) hpoint rfl

end IsWritten

/-! ## What the marks are taken for -/

section

variable {whole fraction : List Char} (hwhole : AllDigits whole) (hfraction : AllDigits fraction)

include hwhole hfraction

theorem isPositional_pointed (hne : whole ≠ []) : IsPositional (pointed whole fraction) := by
  by_cases hnone : fraction = []
  · rw [pointed, if_pos hnone, List.append_nil]
    exact isPositional_of_digits hwhole.isDecimalDigit
  · rw [pointed, if_neg hnone]
    exact isPositional_of_point hne hnone (hwhole.append hfraction).isDecimalDigit

/-- Between groups of three digits and in front of a fraction the marks are told apart. -/
theorem normalizeSeparators_of_groups (hgroup : ',' ∈ groupThousands ',' whole) :
    normalizeSeparators ',' (groupThousands ',' whole ++ '.' :: fraction) =
      whole ++ '.' :: fraction := by
  have hnotsep : ∀ c ∈ fraction, isSeparator c = false := fun c hc =>
    isSeparator_of_isDecimalDigit (hfraction.isDecimalDigit c hc)
  have hlast : (groupThousands ',' whole ++ '.' :: fraction).reverse.find? isSeparator =
      some '.' := by
    have hbehind : fraction.reverse.find? isSeparator = none :=
      List.find?_eq_none.mpr fun c hc =>
        Bool.not_eq_true _ ▸ hnotsep c (List.mem_reverse.mp hc)
    rw [List.reverse_append, List.reverse_cons, List.find?_append, List.find?_append, hbehind]
    rfl
  have hfront : (groupThousands ',' whole).filter (fun c => c == '.' || !isSeparator c) =
      whole := by
    refine Eq.trans (List.filter_congr fun c hc => ?_) (filter_groupThousands (hwhole.not_mem rfl))
    rcases mem_groupThousands (hwhole.not_mem rfl) hc with rfl | hdigit
    · rfl
    · have hdigit := hwhole.isDecimalDigit c hdigit
      have hcomma : c ≠ ',' := ne_of_isDecimalDigit hdigit (by decide)
      simp [isSeparator_of_isDecimalDigit hdigit, hcomma]
  have hbehind : ('.' :: fraction).filter (fun c => c == '.' || !isSeparator c) =
      '.' :: fraction := by
    rw [List.filter_eq_self]
    intro c hc
    rcases List.mem_cons.mp hc with rfl | hc
    · rfl
    · simp [hnotsep c hc]
  rw [normalizeSeparators_of_both (by simp) (List.mem_append_left _ hgroup) hlast,
    List.filter_append, hfront, hbehind, replaceChar_self]

/-- Of an amount the marks between groups of three are dropped. -/
theorem normalizeSeparators_amount_en (hne : whole ≠ []) :
    normalizeSeparators ',' (NumberLocale.en.amount whole fraction) = pointed whole fraction := by
  have hcomma : ',' ∉ whole := hwhole.not_mem rfl
  have honly : ∀ c ∈ groupThousands ',' whole, isSeparator c = true → c = ',' := by
    intro c hc hsep
    have hnot := isDecimalDigit_of_isSeparator hsep
    exact (mem_groupThousands hcomma hc).resolve_right fun hdigit =>
      Bool.false_ne_true (hnot.symm.trans (hwhole.isDecimalDigit c hdigit))
  by_cases hgroup : ',' ∈ groupThousands ',' whole
  · by_cases hnone : fraction = []
    · -- A lone mark: several of them, or one with three digits behind it
      have hmany := length_dropWhile_groupThousands hgroup hcomma
      rw [NumberLocale.amount, NumberLocale.thousands, pointed, if_pos hnone, if_pos hnone,
        List.append_nil, List.append_nil, normalizeSeparators_of_lone rfl hgroup honly,
        if_pos (hmany.imp_right fun h => ⟨h, rfl⟩)]
      exact filter_groupThousands hcomma
    · rw [NumberLocale.amount, pointed, if_neg hnone, if_neg hnone]
      exact normalizeSeparators_of_groups hwhole hfraction hgroup
  · -- Without a group the amount is what the digits with a point are
    have hsame : groupThousands ',' whole = whole := by
      refine Eq.trans (List.filter_eq_self.mpr fun c hc => ?_).symm (filter_groupThousands hcomma)
      exact bne_iff_ne.mpr fun heq => hgroup (heq ▸ hc)
    rw [NumberLocale.amount, NumberLocale.thousands, hsame]
    exact (isPositional_pointed hwhole hfraction hne).normalizeSeparators_eq
      fun h => absurd h.1 (by decide)

theorem normalizeSeparators_amount (l : NumberLocale) (hne : whole ≠ []) :
    normalizeSeparators l.thousands (l.amount whole fraction) = pointed whole fraction := by
  have hen := normalizeSeparators_amount_en hwhole hfraction hne
  cases l with
  | en => exact hen
  | id =>
    have hmirror : NumberLocale.id.amount whole fraction =
        (NumberLocale.en.amount whole fraction).map mirrorMark :=
      NumberLocale.en.amount_mirror hwhole hfraction
    rw [hmirror]
    exact normalizeSeparators_map_mirrorMark.trans hen

theorem isFigure_amount (l : NumberLocale) (hne : whole ≠ []) : IsFigure (l.amount whole fraction) := by
  have hthousands : l.thousands.isDigit = false ∧ isSeparator l.thousands = true := by
    cases l <;> decide
  have hdecimal : isSeparator l.decimal = true := by cases l <;> rfl
  obtain ⟨d, r, rfl⟩ := List.exists_cons_of_ne_nil hne
  have hhead : (l.amount (d :: r) fraction).head? = some d := by
    rw [NumberLocale.amount, List.head?_append, head?_groupThousands]
    rfl
  refine ⟨?_, ⟨d, hhead, hwhole.isDecimalDigit d List.mem_cons_self⟩, ?_⟩
  · rw [NumberLocale.amount, List.forall_mem_append]
    constructor
    · intro c hc
      rcases mem_groupThousands (hwhole.not_mem hthousands.1) hc with rfl | hc
      · exact Or.inl hthousands.2
      · exact Or.inr (hwhole.isDecimalDigit c hc)
    · split
      · simp
      · exact List.forall_mem_cons.mpr
          ⟨Or.inl hdecimal, fun c hc => Or.inr (hfraction.isDecimalDigit c hc)⟩
  · intro c hc
    rw [NumberLocale.amount] at hc
    split at hc
    · rw [List.append_nil, getLast?_groupThousands] at hc
      exact hwhole.isDecimalDigit c (List.mem_of_mem_getLast? hc)
    · next hnone =>
      rw [List.getLast?_append, List.getLast?_cons_of_ne_nil hnone,
        List.getLast?_eq_some_getLast hnone, Option.some_or] at hc
      cases hc
      exact hfraction.isDecimalDigit _ (List.getLast_mem hnone)

end

/-! ## Signs -/

theorem Binary64.value_finite_neg_iff {s : Bool} {units : Nat} (r : Representable units) :
    (Binary64.finite s units r).value < 0 ↔ s = true ∧ units ≠ 0 := by
  rw [Binary64.value, Binary64.signedUnits_finite, div_lt_iff₀ Binary64.cast_one_pos, zero_mul,
    Int.cast_lt_zero]
  cases s with
  | false => simp [Binary64.signum]
  | true => simp [Binary64.signum, Nat.pos_iff_ne_zero]

theorem Binary64.scaledMagnitude_zero (places : Nat) : scaledMagnitude 0 places = 0 := by
  rw [scaledMagnitude, if_pos (Int.natCast_nonneg places), Nat.zero_mul]
  decide +kernel

/-- The sign of an amount is written unless nothing but zeros is. -/
theorem showsSign_eq (negative : Bool) (units : Nat) :
    showsSign negative units = (negative && decide (Binary64.scaledMagnitude units (3 : ℕ) ≠ 0)) := by
  have hzero : ((Binary64.fixedDigits units 3).1.all (· == '0') && (shownFraction units).isEmpty) =
      decide (Binary64.scaledMagnitude units (3 : ℕ) = 0) := by
    rw [Bool.eq_iff_iff, decide_eq_true_iff]
    constructor
    · intro h
      simp only [Bool.and_eq_true, List.all_eq_true, beq_iff_eq, List.isEmpty_iff] at h
      obtain ⟨hwhole, hfraction⟩ := h
      rw [← (isWritten_shownFraction units).value, hfraction, List.append_nil,
        List.eq_replicate_of_mem hwhole, digitsValue_zeros, Nat.zero_mul]
    · intro h
      have hdigits : Binary64.fixedDigits units 3 = (['0'], ['0', '0', '0']) := by
        rw [Binary64.fixedDigits, h]
        rfl
      simp [shownFraction, hdigits]
  rw [showsSign, hzero, decide_not]

theorem toFixed_finite (negative : Bool) {units : Nat} (h : Representable units) (places : Nat)
    (percent : Bool) :
    (Binary64.finite negative units h).toFixed places ++ (if percent then "%" else "") =
      withSigns negative (pointed (Binary64.fixedDigits units places).1
        (Binary64.fixedDigits units places).2) percent := by
  have hsign : (if negative then "-" else "") = String.ofList (if negative then ['-'] else []) := by
    cases negative <;> rfl
  have hpercent : (if percent then "%" else "") = String.ofList (if percent then ['%'] else []) := by
    cases percent <;> rfl
  have hfraction : ∀ f : List Char, (if f.isEmpty then "" else "." ++ String.ofList f) =
      .ofList (if f = [] then [] else '.' :: f) := by
    intro f
    cases f with
    | nil => rfl
    | cons d f => exact (@String.ofList_append ['.'] (d :: f)).symm
  rw [withSigns, pointed, String.ofList_append, String.ofList_append, String.ofList_append, ← hsign,
    ← hpercent, ← hfraction, ← String.append_assoc, ← String.append_assoc]
  rfl

/-! ## Reading what is shown -/

/-- The numeral that is to be seen in a text denotes the magnitude of a number, rounded to this many
places, and there is a minus sign in front of it if the number is negative; zero may have either
sign. -/
structure ShowsRounded (l : NumberLocale) (places : Nat) (x : Binary64) (s : String)
    (m : Number.Numeral) : Prop where
  numeral : Number.scanNumeral? (l.numeral s) = some (m, [])
  rounded : IsRounded places |x.value| m.value
  minus : m.value ≠ 0 → (showsMinus s = true ↔ x.value < 0)

/-- A magnitude with the sign of a number. -/
def withSignOf (x : Binary64) (q : ℚ) : ℚ := if x.value < 0 then -q else q

/-- Rounding does not depend on the sign. -/
theorem IsRounded.withSignOf {places : Nat} {x : Binary64} {r : ℚ}
    (h : IsRounded places |x.value| r) : IsRounded places x.value (withSignOf x r) := by
  obtain ⟨n, hn, rfl⟩ := h
  unfold LiveForm.withSignOf
  split
  · next hneg =>
    refine ⟨-n, ?_, by push_cast; ring⟩
    rw [abs_of_neg hneg, neg_mul] at hn
    simpa using hn.neg
  · next hpos =>
    rw [abs_of_nonneg (not_lt.mp hpos)] at hn
    exact ⟨n, hn, rfl⟩

section

variable {units places : Nat} {whole fraction : List Char} {s shown : Bool}
  (r : Representable units) (h : IsWritten units places whole fraction)
  (hsign : Binary64.scaledMagnitude units places ≠ 0 → shown = s)

include h hsign

/-- What is not zero is written with the sign of the number. -/
theorem IsWritten.shown_iff (hvalue : (⟨whole, fraction, 0⟩ : Number.Numeral).value ≠ 0) :
    shown = true ↔ (Binary64.finite s units r).value < 0 := by
  have hscaled : Binary64.scaledMagnitude units places ≠ 0 := by
    intro hzero
    rw [h.value_eq, hzero, Nat.cast_zero, zero_div] at hvalue
    exact hvalue rfl
  have hunits : units ≠ 0 := by
    rintro rfl
    exact hscaled (Binary64.scaledMagnitude_zero places)
  rw [Binary64.value_finite_neg_iff, hsign hscaled, and_iff_left hunits]

theorem IsWritten.signum_mul_value :
    Binary64.signum shown * (⟨whole, fraction, 0⟩ : Number.Numeral).value =
      withSignOf (.finite s units r) (⟨whole, fraction, 0⟩ : Number.Numeral).value := by
  by_cases hvalue : (⟨whole, fraction, 0⟩ : Number.Numeral).value = 0
  · simp [withSignOf, hvalue]
  · have hshown := h.shown_iff r hsign hvalue
    cases shown with
    | false =>
      have hpos : ¬ (Binary64.finite s units r).value < 0 := fun hneg =>
        Bool.false_ne_true (hshown.mpr hneg)
      simp [withSignOf, Binary64.signum, hpos]
    | true => simp [withSignOf, Binary64.signum, hshown.mp rfl]

/-- If the marks of a text are told apart, it shows the rounded number. -/
theorem IsWritten.showsRounded (l : NumberLocale) {cs : List Char} (hfigure : IsFigure cs)
    (hmarks : normalizeSeparators l.thousands cs = pointed whole fraction) (percent : Bool) :
    ShowsRounded l places (.finite s units r) (withSigns shown cs percent)
      ⟨whole, fraction, 0⟩ where
  numeral := by
    rw [hfigure.numeral_withSigns, hmarks]
    exact h.scanNumeral?_pointed
  rounded := h.isRounded s r
  minus hvalue := by
    rw [hfigure.showsMinus_withSigns]
    exact h.shown_iff r hsign hvalue

/-- The number that is read is the one nearest to what is shown. -/
theorem IsWritten.isNearest_shown (hplaces : places ≤ 323) :
    Binary64.IsNearest
      (withSignOf (.finite s units r) (⟨whole, fraction, 0⟩ : Number.Numeral).value)
      ((⟨whole, fraction, 0⟩ : Number.Numeral).toBinary64 shown) := by
  rw [← h.signum_mul_value r hsign]
  exact h.isNearest shown r hplaces

end

variable (l : NumberLocale) {x : Binary64} (hx : x.isFinite = true)

include hx

/-- An amount is read as the number nearest to what it shows. -/
theorem reads_groupedText :
    ∃ m y, ShowsRounded l 3 x (groupedText l x) m ∧
      (m.value = 0 → showsMinus (groupedText l x) = false) ∧
      y.IsNearest (withSignOf x m.value) ∧ l.readNumber (groupedText l x) = y := by
  obtain ⟨s, u, r, rfl⟩ := Binary64.exists_of_isFinite hx
  have h := isWritten_shownFraction u
  have hfigure := isFigure_amount h.whole_digits h.fraction_digits l h.whole_ne
  have hmarks := normalizeSeparators_amount h.whole_digits h.fraction_digits l h.whole_ne
  have hsign : Binary64.scaledMagnitude u (3 : ℕ) ≠ 0 → showsSign s u = s := by
    intro hscaled
    rw [showsSign_eq, decide_eq_true hscaled, Bool.and_true]
  have hread := hfigure.readNumber_withSigns (showsSign s u) false l
    (by rw [hmarks]; exact h.scanNumeral?_pointed)
  rw [if_neg Bool.false_ne_true] at hread
  rw [groupedText_finite]
  refine ⟨_, _, h.showsRounded r hsign l hfigure hmarks false, fun hvalue => ?_,
    h.isNearest_shown r hsign (by decide), hread⟩
  rw [h.value_eq, div_eq_zero_iff, or_iff_left (by positivity), Nat.cast_eq_zero] at hvalue
  rw [hfigure.showsMinus_withSigns, showsSign_eq, hvalue]
  exact Bool.and_false s

/-- So is a number that is written with two places. -/
theorem reads_toFixed (percent : Bool) :
    ∃ m y, ShowsRounded l 2 x (x.toFixed 2 ++ if percent then "%" else "") m ∧
      y.IsNearest (withSignOf x m.value) ∧
      l.readNumber (x.toFixed 2 ++ if percent then "%" else "") =
        if percent then y / 100 else y := by
  obtain ⟨s, u, r, rfl⟩ := Binary64.exists_of_isFinite hx
  have h := isWritten_fixedDigits u 2
  have hpositional := isPositional_pointed h.whole_digits h.fraction_digits h.whole_ne
  have hfigure := hpositional.isFigure (by simp [pointed, h.whole_ne])
  -- Two digits are no group, so that the point is one under both conventions
  have hplaces : ((pointed (Binary64.fixedDigits u 2).1 (Binary64.fixedDigits u 2).2).dropWhile
      (· != '.')).length ≠ 4 := by
    have hlength := Binary64.length_fixedDigits u 2
    have hnone : (Binary64.fixedDigits u 2).2 ≠ [] := by
      intro hnone
      rw [hnone] at hlength
      exact absurd hlength (by decide)
    have hwhole : ∀ c ∈ (Binary64.fixedDigits u 2).1, (c != '.') = true := fun c hc =>
      bne_iff_ne.mpr (ne_of_isDecimalDigit (h.whole_digits.isDecimalDigit c hc) (by decide))
    rw [pointed, if_neg hnone, List.dropWhile_append_of_pos hwhole,
      List.dropWhile_cons_of_neg (by simp), List.length_cons, hlength]
    decide
  have hmarks : normalizeSeparators l.thousands _ = _ :=
    hpositional.normalizeSeparators_eq fun hgroup => hplaces hgroup.2
  have hread := hfigure.readNumber_withSigns s percent l
    (by rw [hmarks]; exact h.scanNumeral?_pointed)
  rw [toFixed_finite]
  exact ⟨_, _, h.showsRounded r (fun _ => rfl) l hfigure hmarks percent,
    h.isNearest_shown r (fun _ => rfl) (by decide), hread⟩

namespace Value

/-- A number that is shown is read as what is shown of it, under the same convention: amounts and
decimals as the number nearest to the rounded one, and a percentage as a hundredth of that. -/
theorem reads_shown {v : Value} (hv : v.asNumber = .ok x) :
    (∀ p ∈ [(FormatKind.currency, 3), (.idr, 3), (.number, 3), (.decimal, 2)],
      ∃ s m y, v.format l (some p.1) = .ok s ∧ ShowsRounded l p.2 x s m ∧
        (m.value = 0 → p.1 ≠ .decimal → showsMinus s = false) ∧
        y.IsNearest (withSignOf x m.value) ∧ (text s).toNumber? l = some y) ∧
    ((x * 100).isFinite = true →
      ∃ s q y, v.format l (some .percent) = .ok s ∧ IsRounded 2 (x * 100).value q ∧
        y.IsNearest q ∧ (text s).toNumber? l = some (y / 100)) := by
  have hempty : v.isEmpty = false := by
    cases v with
    | number y =>
      cases hv
      exact Binary64.isNaN_of_isFinite hx
    | flag | integer => rfl
    | _ => cases hv
  have hformat : ∀ kind, kind ≠ .plain → v.format l (some kind) = kind.render l x := by
    intro kind hkind
    rw [format_of_asNumber l hv hkind, hempty]
    exact if_neg Bool.false_ne_true
  constructor
  · obtain ⟨m, y, hshows, hzero, hnearest, hread⟩ := reads_groupedText l hx
    have hamount : ∀ kind : FormatKind, kind.render l x = .ok (groupedText l x) → kind ≠ .plain →
        ∃ s m y, v.format l (some kind) = .ok s ∧ ShowsRounded l 3 x s m ∧
          (m.value = 0 → kind ≠ .decimal → showsMinus s = false) ∧
          y.IsNearest (withSignOf x m.value) ∧ (text s).toNumber? l = some y :=
      fun kind hrender hplain => ⟨_, m, y, (hformat kind hplain).trans hrender, hshows,
        fun hvalue _ => hzero hvalue, hnearest, congrArg some hread⟩
    obtain ⟨m', y', hshows', hnearest', hread'⟩ := reads_toFixed l hx false
    rw [if_neg Bool.false_ne_true, String.append_empty] at hshows' hread'
    rw [if_neg Bool.false_ne_true] at hread'
    have hdecimal : v.format l (some .decimal) = .ok (x.toFixed 2) := hformat _ (by decide)
    simp only [List.forall_mem_cons, List.not_mem_nil, false_implies, implies_true, and_true]
    exact ⟨hamount _ rfl (by decide), hamount _ rfl (by decide), hamount _ rfl (by decide),
      _, m', y', hdecimal, hshows', fun _ hne => absurd rfl hne, hnearest', congrArg some hread'⟩
  · intro hpercent
    obtain ⟨m, y, hshows, hnearest, hread⟩ := reads_toFixed l hpercent true
    rw [if_pos rfl] at hshows hread
    rw [if_pos rfl] at hread
    exact ⟨_, _, y, hformat .percent (by decide), hshows.rounded.withSignOf, hnearest,
      congrArg some hread⟩

omit hx in
/-- -1,234.125 has three digits before the point in a group and three behind it. -/
theorem reads_shown_groups :
    (Binary64.ofDecimal true 1234125 (-3)).isFinite = true ∧
      (Binary64.ofDecimal true 1234125 (-3) * 100).isFinite = true ∧
      (∃ m y, ShowsRounded .id 3 (.ofDecimal true 1234125 (-3)) "-1.234,125" m ∧
        y.IsNearest (withSignOf (.ofDecimal true 1234125 (-3)) m.value) ∧
        (text "-1.234,125").toNumber? .id = some y) ∧
      ∃ q y, IsRounded 2 (Binary64.ofDecimal true 1234125 (-3) * 100).value q ∧ y.IsNearest q ∧
        (text "-123412.50%").toNumber? .id = some (y / 100) := by
  have hfinite : (Binary64.ofDecimal true 1234125 (-3)).isFinite = true := by decide +kernel
  have hpercent : (Binary64.ofDecimal true 1234125 (-3) * 100).isFinite = true := by
    decide +kernel
  have hshown : (number (.ofDecimal true 1234125 (-3))).format .id (some .currency) =
      .ok "-1.234,125" := by decide +kernel
  have hshown' : (number (.ofDecimal true 1234125 (-3))).format .id (some .percent) =
      .ok "-123412.50%" := by decide +kernel
  obtain ⟨hround, hratio⟩ := reads_shown .id hfinite
    (v := number (.ofDecimal true 1234125 (-3))) rfl
  obtain ⟨s, m, y, hs, hshows, -, hnearest, hread⟩ := hround (.currency, 3) List.mem_cons_self
  obtain ⟨s', q, y', hs', hrounded, hnearest', hread'⟩ := hratio hpercent
  cases hshown.symm.trans hs
  cases hshown'.symm.trans hs'
  exact ⟨hfinite, hpercent, ⟨m, y, hshows, hnearest, hread⟩, q, y', hrounded, hnearest', hread'⟩

end Value

end LiveForm
