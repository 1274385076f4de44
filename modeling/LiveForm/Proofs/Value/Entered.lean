import LiveForm.Proofs.Value.Figures

/-!
# Numbers that are entered

A number that is put into a field is kept as a text, which a reader takes to pieces again: it keeps
the digits and the separators and guesses what a separator is for.  The text of an integer is read
as that integer (`toNumber?_integerDigits`), and the text of any other number as that number
(`toNumber?_toText`), unless the text is `Misleading`: it has an exponent, or the reader's convention
has points between groups of three digits and there happen to be three digits behind the point.
-/

namespace LiveForm

open Text

/-! ## Texts that are kept -/

/-- Nothing but digits, with at most one point between them. -/
structure IsPositional (cs : List Char) : Prop where
  chars : ∀ c ∈ cs, c = '.' ∨ isDecimalDigit c = true
  first : ∀ c ∈ cs.head?, isDecimalDigit c = true
  last : ∀ c ∈ cs.getLast?, isDecimalDigit c = true
  points : cs.count '.' ≤ 1

theorem count_point_of_digits {w : List Char} (hw : ∀ c ∈ w, isDecimalDigit c = true) :
    w.count '.' = 0 :=
  List.count_eq_zero.mpr fun h => ne_of_isDecimalDigit (hw _ h) (by decide) rfl

theorem isPositional_of_digits {w : List Char} (hw : ∀ c ∈ w, isDecimalDigit c = true) :
    IsPositional w where
  chars c hc := Or.inr (hw c hc)
  first c hc := hw c (List.mem_of_mem_head? hc)
  last c hc := hw c (List.mem_of_mem_getLast? hc)
  points := (count_point_of_digits hw).trans_le (Nat.zero_le 1)

theorem isPositional_of_point {w f : List Char} (hw : w ≠ []) (hf : f ≠ [])
    (hdigits : ∀ c ∈ w ++ f, isDecimalDigit c = true) : IsPositional (w ++ '.' :: f) := by
  obtain ⟨hdw, hdf⟩ := List.forall_mem_append.mp hdigits
  refine ⟨fun c hc => ?_, fun c hc => ?_, fun c hc => ?_, ?_⟩
  · rcases List.mem_append.mp hc with hc | hc
    · exact Or.inr (hdw c hc)
    · exact (List.mem_cons.mp hc).imp id (hdf c)
  · cases w with
    | nil => exact absurd rfl hw
    | cons d w =>
      cases hc
      exact hdw _ List.mem_cons_self
  · rw [List.getLast?_append, List.getLast?_cons_of_ne_nil hf, List.getLast?_eq_some_getLast hf,
      Option.some_or] at hc
    cases hc
    exact hdf _ (List.getLast_mem hf)
  · rw [List.count_append, List.count_cons_self, count_point_of_digits hdw,
      count_point_of_digits hdf]

namespace IsPositional

variable {cs : List Char} (h : IsPositional cs)

include h

/-- A lone separator is left as it is unless it separates thousands. -/
theorem normalizeSeparators_eq {thousands : Char}
    (hgroup : ¬ (thousands = '.' ∧ (cs.dropWhile (· != '.')).length = 4)) :
    normalizeSeparators thousands cs = cs := by
  have honly : ∀ c ∈ cs, isSeparator c = true → c = '.' := by
    intro c hc hsep
    simpa [isDecimalDigit_of_isSeparator hsep] using h.chars c hc
  by_cases hpoint : '.' ∈ cs
  · have hcount := h.points
    rw [normalizeSeparators_of_lone rfl hpoint honly, if_neg, replaceChar_self]
    rintro (hmany | hbehind)
    · omega
    · exact hgroup ⟨hbehind.2.symm, hbehind.1⟩
  · exact normalizeSeparators_of_none fun c hc =>
      Bool.eq_false_of_not_eq_true fun hsep => hpoint (honly c hc hsep ▸ hc)

theorem isFigure (hne : cs ≠ []) : IsFigure cs where
  chars c hc := (h.chars c hc).imp_left (congrArg isSeparator)
  first := ⟨cs.head hne, List.head_mem_head? hne, h.first _ (List.head_mem_head? hne)⟩
  last := h.last

end IsPositional

/-! ## Reading -/

namespace NumberLocale

/-- A numeral without an exponent is read as what it denotes, behind a minus sign as well. -/
theorem readNumber_of_scanNumeral? (l : NumberLocale) {cs : List Char} {m : Number.Numeral}
    (h : IsPositional cs) (hscan : Number.scanNumeral? cs = some (m, []))
    (hgroup : ¬ (l.thousands = '.' ∧ (cs.dropWhile (· != '.')).length = 4)) (negative : Bool) :
    l.readNumber (.ofList ((if negative then ['-'] else []) ++ cs)) = m.toBinary64 negative := by
  have hne : cs ≠ [] := by
    rintro rfl
    cases hscan
  have hread := (h.isFigure hne).readNumber_withSigns negative false l
    (by rwa [h.normalizeSeparators_eq hgroup])
  rwa [withSigns, if_neg Bool.false_ne_true, List.append_nil, if_neg Bool.false_ne_true] at hread

end NumberLocale

namespace Value

/-- The text of a number that is not read as that number: it has an exponent, or three digits behind
a point that the reader takes for a mark between groups of three digits. -/
def Misleading (l : NumberLocale) (s : String) : Prop :=
  'e' ∈ s.toList ∨ (l.thousands = '.' ∧ (s.toList.dropWhile (· != '.')).length = 4)

instance (l : NumberLocale) (s : String) : Decidable (Misleading l s) :=
  inferInstanceAs (Decidable (_ ∨ _))

theorem toNumber?_text (l : NumberLocale) (s : String) :
    (text s).toNumber? l = some (l.readNumber s) := rfl

/-- The text of an integer is read as the integer. -/
theorem toNumber?_integerDigits (l : NumberLocale) {i : Int}
    (h : (Binary64.ofInt i).isFinite = true) :
    (text (integerDigits i)).toNumber? l = some (Binary64.ofInt i) := by
  have hdigits : ∀ c ∈ Nat.toDigits 10 i.natAbs, isDecimalDigit c = true := fun c hc =>
    isDecimalDigit_of_isDigit (Nat.isDigit_of_mem_toDigits (by decide) (by decide) hc)
  have hscan := NumeralLayout.scanNumeral?_of_parts (y := []) Nat.toDigits_ne_nil hdigits nofun rfl rfl
  rw [List.append_nil] at hscan
  have hnone : (Nat.toDigits 10 i.natAbs).dropWhile (· != '.') = [] :=
    List.dropWhile_eq_nil_iff.mpr fun c hc =>
      bne_iff_ne.mpr (ne_of_isDecimalDigit (hdigits c hc) (by decide))
  have hread := l.readNumber_of_scanNumeral? (isPositional_of_digits hdigits) hscan
    (fun hg => by rw [hnone] at hg; exact absurd hg.2 (by decide)) (decide (i < 0))
  simp only [decide_eq_true_eq] at hread
  rw [toNumber?_text, integerDigits, integerChars, hread, Number.Numeral.toBinary64,
    List.append_nil, digitsValue_toDigits]
  exact congrArg some (Binary64.ofDecimal_natAbs h)

/-- The text of a number is read as the number, unless it is misleading. -/
theorem toNumber?_toText (l : NumberLocale) {x : Binary64} (hx : x.isFinite = true)
    (h : ¬ Misleading l x.toText) : (text x.toText).toNumber? l = some x := by
  obtain ⟨s, u, hu, rfl⟩ := Binary64.exists_of_isFinite hx
  obtain ⟨ds, lead, hne, hds, htext, hvalue⟩ := Binary64.toText_finite s hu
  obtain ⟨hexponent, hgroup⟩ := not_or.mp h
  rw [htext] at hexponent hgroup ⊢
  rw [String.toList_ofList] at hexponent hgroup
  have hlayout : -4 ≤ lead ∧ lead < 16 := by
    by_contra hout
    exact hexponent (List.mem_append_right _ (NumeralLayout.mem_write hout))
  have hpositional := NumeralLayout.positional_write hne hds hlayout.1 hlayout.2
  obtain ⟨m, hscan, hdenotes⟩ := NumeralLayout.scanNumeral?_of_positional hpositional
  obtain ⟨w, f, hwrite, hw, hf, hdigits, -⟩ := hpositional
  rw [hwrite, String.toList_ofList] at hgroup hscan ⊢
  rw [List.dropWhile_append_of_pos (by cases s <;> simp)] at hgroup
  rw [toNumber?_text, l.readNumber_of_scanNumeral? (isPositional_of_point hw hf hdigits) hscan hgroup,
    hdenotes s, hvalue]

/-- The value is an integer or a number, and `x` is the finite number that it is. -/
inductive IsFloat : Value → Binary64 → Prop where
  | integer {i : Int} (h : (Binary64.ofInt i).isFinite = true) : IsFloat (integer i) (.ofInt i)
  | number {x : Binary64} (h : x.isFinite = true) : IsFloat (number x) x

/-- A number without a fraction is kept as an integer, any other one as it is printed. -/
theorem numberText_eq {x : Binary64} (hx : x.isFinite = true) :
    numberText x = if x.isInteger then integerDigits (x.truncate?.getD 0) else x.toText := by
  obtain ⟨s, u, r, rfl⟩ := Binary64.exists_of_isFinite hx
  rfl

/-- An integer in the range of numbers has few enough digits to be kept. -/
theorem plainText_integer {i : Int} (h : (Binary64.ofInt i).isFinite = true) :
    (integer i).plainText = .ok (integerDigits i) := by
  have hlength := Binary64.length_toDigits_le (Binary64.representable_of_isFinite_ofInt h)
  have hwrite : writeInteger i = .ok (integerChars i) := if_neg (by rw [maxDigits]; omega)
  show integerText i = _
  rw [integerText, hwrite]
  rfl

/-- The text that is kept for a number is read as a number equal to it, unless it is misleading. -/
theorem toNumber?_plainText (l : NumberLocale) {v : Value} {x : Binary64} (hv : IsFloat v x) :
    ∃ s, v.plainText = .ok s ∧
      (¬ Misleading l s → ∃ y, (text s).toNumber? l = some y ∧ y.eqv x = true) := by
  cases hv with
  | integer hi =>
    exact ⟨_, plainText_integer hi,
      fun _ => ⟨_, toNumber?_integerDigits l hi, Binary64.eqv_self_of_isFinite hi⟩⟩
  | number hx =>
    refine ⟨_, rfl, fun h => ?_⟩
    rw [numberText_eq hx] at h ⊢
    split at h
    · next hint =>
      obtain ⟨hfinite, heqv⟩ := Binary64.ofInt_truncate? hint
      rw [if_pos hint]
      exact ⟨_, toNumber?_integerDigits l hfinite, heqv⟩
    · next hfraction =>
      rw [if_neg hfraction]
      exact ⟨x, toNumber?_toText l hx h, Binary64.eqv_self_of_isFinite hx⟩

end Value

end LiveForm
