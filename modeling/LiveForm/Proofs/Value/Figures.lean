import LiveForm.Proofs.Number.Shortest
import LiveForm.Value.Locale

/-!
# Figures

What a reader of a number looks at in a text is which digits and separators it has and whether
there are a minus sign in front of them and a percent sign (`NumberLocale.readNumber_congr`).  Of a
figure, which has a digit first and last, with a sign before it or behind it, these are the figure
and the signs.
-/

namespace LiveForm

open Text

/-! ## What the marks are for -/

theorem isSeparator_cases {c : Char} (h : isSeparator c = true) : c = '.' ∨ c = ',' := by
  simpa [isSeparator] using h

theorem ne_of_isDecimalDigit {c d : Char} (h : isDecimalDigit c = true)
    (hd : d.toNat < 48 ∨ (57 < d.toNat ∧ d.toNat < 128)) : c ≠ d := by
  rintro rfl
  have := toNat_of_isDecimalDigit h
  omega

theorem isSeparator_of_isDecimalDigit {c : Char} (h : isDecimalDigit c = true) :
    isSeparator c = false := by
  have hpoint : c ≠ '.' := ne_of_isDecimalDigit h (by decide)
  have hcomma : c ≠ ',' := ne_of_isDecimalDigit h (by decide)
  simp [isSeparator, hpoint, hcomma]

theorem isDecimalDigit_of_isSeparator {c : Char} (h : isSeparator c = true) :
    isDecimalDigit c = false :=
  Bool.eq_false_of_not_eq_true fun hdigit =>
    Bool.false_ne_true (isSeparator_of_isDecimalDigit hdigit ▸ h)

theorem replaceChar_self (c : Char) (cs : List Char) : replaceChar c c cs = cs := by
  refine (List.map_congr_left fun x _ => ?_).trans (List.map_id cs)
  split
  · next hx => exact (beq_iff_eq.mp hx).symm
  · rfl

section

variable {thousands : Char} {cs : List Char}

/-- There is no mark, only one of the marks, or both. -/
theorem separators_cases (cs : List Char) :
    (∀ c ∈ cs, isSeparator c = false) ∨
      (∃ mark ∈ cs, isSeparator mark = true ∧ ∀ c ∈ cs, isSeparator c = true → c = mark) ∨
      ('.' ∈ cs ∧ ',' ∈ cs) := by
  by_cases hpoint : '.' ∈ cs
  · by_cases hcomma : ',' ∈ cs
    · exact Or.inr (Or.inr ⟨hpoint, hcomma⟩)
    · refine Or.inr (Or.inl ⟨'.', hpoint, rfl, fun c hc hsep => ?_⟩)
      exact (isSeparator_cases hsep).resolve_right fun h => hcomma (h ▸ hc)
  · by_cases hcomma : ',' ∈ cs
    · refine Or.inr (Or.inl ⟨',', hcomma, rfl, fun c hc hsep => ?_⟩)
      exact (isSeparator_cases hsep).resolve_left fun h => hpoint (h ▸ hc)
    · refine Or.inl fun c hc => Bool.eq_false_of_not_eq_true fun hsep => ?_
      exact (isSeparator_cases hsep).elim (fun h => hpoint (h ▸ hc)) fun h => hcomma (h ▸ hc)

theorem normalizeSeparators_of_none (hnone : ∀ c ∈ cs, isSeparator c = false) :
    normalizeSeparators thousands cs = cs := by
  have hpoint : '.' ∉ cs := fun h => absurd (hnone _ h) (by decide)
  have hcomma : ',' ∉ cs := fun h => absurd (hnone _ h) (by decide)
  simp [normalizeSeparators, hpoint, hcomma]

/-- A mark that is alone separates thousands if it occurs several times, or if that is what it is for
and three digits follow it. -/
theorem normalizeSeparators_of_lone {mark : Char} (hsep : isSeparator mark = true)
    (hmark : mark ∈ cs) (honly : ∀ c ∈ cs, isSeparator c = true → c = mark) :
    normalizeSeparators thousands cs =
      if 1 < cs.count mark ∨ ((cs.dropWhile (· != mark)).length = 4 ∧ mark = thousands) then
        cs.filter (· != mark)
      else replaceChar mark '.' cs := by
  have hsplit : ∀ {p q : Prop} [Decidable p] [Decidable q] (a b : List Char),
      (if p then a else if q then a else b) = if p ∨ q then a else b := by
    intro p q _ _ a b
    by_cases hp : p <;> simp [hp]
  rcases isSeparator_cases hsep with rfl | rfl
  · have hcomma : ',' ∉ cs := fun h => absurd (honly _ h rfl) (by decide)
    simp [normalizeSeparators, hmark, hcomma, hsplit]
  · have hpoint : '.' ∉ cs := fun h => absurd (honly _ h rfl) (by decide)
    simp [normalizeSeparators, hmark, hpoint, hsplit]

/-- Of two different marks the last one is put in front of the fraction. -/
theorem normalizeSeparators_of_both {last : Char} (hpoint : '.' ∈ cs) (hcomma : ',' ∈ cs)
    (hlast : cs.reverse.find? isSeparator = some last) :
    normalizeSeparators thousands cs =
      replaceChar last '.' (cs.filter fun c => c == last || !isSeparator c) := by
  simp [normalizeSeparators, hpoint, hcomma, hlast]

theorem exists_last (hpoint : '.' ∈ cs) : ∃ last, cs.reverse.find? isSeparator = some last :=
  Option.isSome_iff_exists.mp (List.find?_isSome.mpr ⟨'.', by simpa using hpoint, rfl⟩)

/-- A numeral has no other mark than a point. -/
theorem mem_normalizeSeparators {c : Char} (h : c ∈ normalizeSeparators thousands cs) :
    c = '.' ∨ (c ∈ cs ∧ isSeparator c = false) := by
  have hreplaced : ∀ {mark : Char} {kept : List Char}, c ∈ replaceChar mark '.' kept →
      c = '.' ∨ (c ∈ kept ∧ c ≠ mark) := by
    intro mark kept hc
    obtain ⟨x, hx, rfl⟩ := List.mem_map.mp hc
    by_cases hmark : x = mark
    · simp [hmark]
    · simp [hmark, hx]
  rcases separators_cases cs with hnone | ⟨mark, hmark, hsep, honly⟩ | ⟨hpoint, hcomma⟩
  · rw [normalizeSeparators_of_none hnone] at h
    exact Or.inr ⟨h, hnone c h⟩
  · have hother : c ∈ cs → c ≠ mark → isSeparator c = false := fun hc hne =>
      Bool.eq_false_of_not_eq_true fun hc' => hne (honly c hc hc')
    rw [normalizeSeparators_of_lone hsep hmark honly] at h
    split at h
    · obtain ⟨hc, hne⟩ := List.mem_filter.mp h
      exact Or.inr ⟨hc, hother hc (bne_iff_ne.mp hne)⟩
    · exact (hreplaced h).imp_right fun ⟨hc, hne⟩ => ⟨hc, hother hc hne⟩
  · obtain ⟨last, hlast⟩ := exists_last hpoint
    rw [normalizeSeparators_of_both hpoint hcomma hlast] at h
    refine (hreplaced h).imp_right fun ⟨hc, hne⟩ => ?_
    obtain ⟨hc, hkept⟩ := List.mem_filter.mp hc
    simpa [hne, hc] using hkept

end

/-! ## What a reader sees in a text -/

/-- The numeral that is made of the digits and separators of a text. -/
def NumberLocale.numeral (l : NumberLocale) (s : String) : List Char :=
  normalizeSeparators l.thousands (numeralChars (trimChars s.toList))

/-- There is a digit in the text. -/
def showsDigit (s : String) : Bool := (trimChars s.toList).any isDecimalDigit

/-- There is a minus sign in front of the first digit. -/
def showsMinus (s : String) : Bool :=
  ((trimChars s.toList).takeWhile (!isDecimalDigit ·)).contains '-'

/-- There is a percent sign in the text. -/
def showsPercent (s : String) : Bool := (trimChars s.toList).contains '%'

namespace NumberLocale

/-- The number that a text shows, from what a reader sees in it. -/
theorem readNumber_eq (l : NumberLocale) (s : String) :
    l.readNumber s =
      if !showsDigit s then 0
      else match Number.readNumber? (.ofList (l.numeral s)) with
        | none => 0
        | some x =>
          let x := if showsMinus s then -x else x
          if showsPercent s then x / 100 else x := by
  unfold numeral
  cases hread : Number.readNumber? (.ofList (normalizeSeparators l.thousands
    (numeralChars (trimChars s.toList)))) with
  | none =>
    simp only [readNumber, hread]
    rfl
  | some x =>
    simp only [readNumber, hread]
    rfl

/-- What a reader sees in a text decides which number it reads. -/
theorem readNumber_congr {l m : NumberLocale} {s t : String}
    (hdigit : showsDigit s = showsDigit t) (hnumeral : l.numeral s = m.numeral t)
    (hminus : showsMinus s = showsMinus t) (hpercent : showsPercent s = showsPercent t) :
    l.readNumber s = m.readNumber t := by
  rw [readNumber_eq, readNumber_eq, hdigit, hnumeral, hminus, hpercent]

/-- If there is one numeral to be seen, its number is read, with the signs that are to be seen. -/
theorem readNumber_of_numeral (l : NumberLocale) {s : String} {m : Number.Numeral}
    (hdigit : showsDigit s = true) (hscan : Number.scanNumeral? (l.numeral s) = some (m, [])) :
    l.readNumber s =
      if showsPercent s then m.toBinary64 (showsMinus s) / 100 else m.toBinary64 (showsMinus s) := by
  have hread := Number.readNumber?_of_scanNumeral? hscan false
  rw [if_neg Bool.false_ne_true, List.nil_append] at hread
  have hsign : (if showsMinus s then -m.toBinary64 false else m.toBinary64 false) =
      m.toBinary64 (showsMinus s) := by
    cases showsMinus s with
    | false => exact if_neg Bool.false_ne_true
    | true => exact (if_pos rfl).trans m.neg_toBinary64
  rw [readNumber_eq, hdigit, hread]
  simp only [hsign, Bool.not_true, Bool.false_eq_true, if_false]

end NumberLocale

/-! ## Nothing is read that is not a number -/

theorem Binary64.isNaN_ofUnits (negative : Bool) (units : Nat) :
    (Binary64.ofUnits negative units).isNaN = false := by
  unfold Binary64.ofUnits
  split <;> rfl

theorem Number.Numeral.isNaN_toBinary64 (m : Number.Numeral) (negative : Bool) :
    (m.toBinary64 negative).isNaN = false := by
  rcases Binary64.ofDecimal_cases negative (digitsValue (m.whole ++ m.fraction))
    (m.exponent - m.fraction.length) with ⟨v, hv⟩ | hv
  · rw [Number.Numeral.toBinary64, hv, Binary64.isNaN_ofUnits]
  · rw [Number.Numeral.toBinary64, hv]
    rfl

theorem Binary64.isNaN_div_hundred {x : Binary64} (h : x.isNaN = false) :
    (x / 100).isNaN = false := by
  have hfinite : (100 : Binary64).isFinite = true ∧ (100 : Binary64).isZero = false := by
    decide +kernel
  obtain ⟨t, v, r, hv⟩ := Binary64.exists_of_isFinite hfinite.1
  rw [hv] at hfinite ⊢
  have hne : v ≠ 0 := by simpa [Binary64.isZero] using hfinite.2
  cases x with
  | nan => cases h
  | infinite s => rfl
  | finite s u r' =>
    have hdiv : Binary64.finite s u r' / .finite t v r =
        .ofUnits (s != t) (roundUnits (u * Binary64.one) v) := if_neg hne
    rw [hdiv, Binary64.isNaN_ofUnits]

/-- Of digits and points no name of a number is made. -/
theorem Number.isNaN_of_readNumber? {cs : List Char} (h : ∀ c ∈ cs, c = '.' ∨ isDecimalDigit c = true)
    {x : Binary64} (hx : Number.readNumber? (.ofList cs) = some x) : x.isNaN = false := by
  have hchars : ∀ c ∈ cs, Number.isNumeralChar c = true := by
    intro c hc
    rcases h c hc with rfl | hdigit
    · decide
    · simp [Number.isNumeralChar, hdigit]
  have hunderscore : ∀ c ∈ cs, c ≠ '_' := by
    rintro c hc rfl
    exact absurd (hchars _ hc) (by decide)
  rw [Number.readNumber?, String.toList_ofList,
    trimChars_of_forall fun c hc => Number.isBlank_of_isNumeralChar (hchars c hc),
    Number.dropUnderscores?_of_forall hunderscore] at hx
  cases cs with
  | nil => cases hx
  | cons c cs =>
    have hc := h c List.mem_cons_self
    have hsign : Number.scanSign (c :: cs) = (false, c :: cs) :=
      @Number.scanSign_of_head c hc cs false
    have hnan := Number.beq_name_eq_false hc (d := 'n') (by decide) cs ['a', 'n']
    simp only [Option.bind_eq_bind, Option.bind_some, hsign] at hx
    split at hx
    · cases hx
      rfl
    · split at hx
      · next hname => exact absurd (hnan.symm.trans hname) Bool.false_ne_true
      · obtain ⟨⟨m, rest⟩, -, hx⟩ := Option.bind_eq_some_iff.mp hx
        split at hx
        · cases hx
          exact m.isNaN_toBinary64 false
        · cases hx

namespace NumberLocale

theorem isNaN_readNumber (l : NumberLocale) (s : String) : (l.readNumber s).isNaN = false := by
  have hnumeral : ∀ c ∈ l.numeral s, c = '.' ∨ isDecimalDigit c = true := by
    intro c hc
    refine (mem_normalizeSeparators hc).imp_right fun ⟨hmem, hsep⟩ => ?_
    have hkept : c ∈ (trimChars s.toList).filter fun c => isDecimalDigit c || isSeparator c := by
      unfold numeralChars at hmem
      exact (List.dropWhile_sublist _).mem (List.mem_reverse.mp
        ((List.dropWhile_sublist _).mem (List.mem_reverse.mp hmem)))
    simpa [hsep] using (List.mem_filter.mp hkept).2
  have hzero : (0 : Binary64).isNaN = false := by decide +kernel
  rw [readNumber_eq]
  split
  · exact hzero
  · split
    · exact hzero
    · next x hx =>
      have hnumber := Number.isNaN_of_readNumber? hnumeral hx
      have hsigned : (if showsMinus s then -x else x).isNaN = false := by
        split
        · cases x <;> first | rfl | cases hnumber
        · exact hnumber
      dsimp only
      split
      · exact Binary64.isNaN_div_hundred hsigned
      · exact hsigned

end NumberLocale

/-- What a value counts as is a number. -/
theorem Value.isNaN_toNumber? {l : NumberLocale} {v : Value} {x : Binary64}
    (h : v.toNumber? l = some x) : x.isNaN = false := by
  have hflag : ∀ b : Bool, (if b then 1 else 0 : Binary64).isNaN = false := by decide +kernel
  unfold toNumber? at h
  split at h
  · rw [← Option.some.inj h]
    exact hflag false
  · rw [← Option.some.inj h]
    exact hflag _
  · next i =>
    dsimp only at h
    split at h
    · next hfinite =>
      rw [← Option.some.inj h]
      obtain ⟨s, u, r, hi⟩ := Binary64.exists_of_isFinite hfinite
      rw [hi]
      rfl
    · exact absurd h nofun
  · next y =>
    rw [← Option.some.inj h]
    split
    · exact hflag false
    · next hnumber => exact Bool.eq_false_of_not_eq_true hnumber
  all_goals
    rw [← Option.some.inj h]
    exact l.isNaN_readNumber _

/-! ## Figures with signs -/

/-- Digits and separators, with a digit first and last. -/
structure IsFigure (cs : List Char) : Prop where
  chars : ∀ c ∈ cs, isSeparator c = true ∨ isDecimalDigit c = true
  first : ∃ c ∈ cs.head?, isDecimalDigit c = true
  last : ∀ c ∈ cs.getLast?, isDecimalDigit c = true

/-- The characters with a minus sign in front of them, a percent sign behind them or both. -/
def withSigns (negative : Bool) (cs : List Char) (percent : Bool) : String :=
  .ofList ((if negative then ['-'] else []) ++ (cs ++ if percent then ['%'] else []))

namespace IsFigure

variable {cs : List Char} (h : IsFigure cs) (negative percent : Bool)

include h

theorem ne {c d : Char} (hc : c ∈ cs) (hsep : isSeparator d = false)
    (hd : isDecimalDigit d = false) : c ≠ d := by
  rintro rfl
  rcases h.chars c hc with hc | hc
  · exact Bool.false_ne_true (hsep.symm.trans hc)
  · exact Bool.false_ne_true (hd.symm.trans hc)

theorem trimChars_withSigns : trimChars (withSigns negative cs percent).toList =
    (if negative then ['-'] else []) ++ (cs ++ if percent then ['%'] else []) := by
  have hfigure : ∀ c ∈ cs, isBlank c = false := by
    intro c hc
    rcases h.chars c hc with hsep | hdigit
    · rcases isSeparator_cases hsep with rfl | rfl <;> decide
    · exact Number.isBlank_of_isNumeralChar (by simp [Number.isNumeralChar, hdigit])
  have hsigns : isBlank '-' = false ∧ isBlank '%' = false := by decide
  rw [withSigns, String.toList_ofList, trimChars_of_forall]
  rw [List.forall_mem_append, List.forall_mem_append]
  refine ⟨?_, hfigure, ?_⟩
  · cases negative <;> simp [hsigns.1]
  · cases percent <;> simp [hsigns.2]

theorem showsDigit_withSigns : showsDigit (withSigns negative cs percent) = true := by
  obtain ⟨d, hd, hdigit⟩ := h.first
  rw [showsDigit, h.trimChars_withSigns]
  simp only [List.any_append, Bool.or_eq_true, List.any_eq_true]
  exact Or.inr (Or.inl ⟨d, List.mem_of_mem_head? hd, hdigit⟩)

theorem showsMinus_withSigns : showsMinus (withSigns negative cs percent) = negative := by
  obtain ⟨d, hd, hdigit⟩ := h.first
  obtain ⟨r, rfl⟩ := List.head?_eq_some_iff.mp hd
  have hminus : isDecimalDigit '-' = false := by decide
  have hsign : ∀ c ∈ if negative then ['-'] else [], (!isDecimalDigit c) = true := by
    cases negative <;> simp [hminus]
  rw [showsMinus, h.trimChars_withSigns, List.takeWhile_append_of_pos hsign, List.cons_append,
    List.takeWhile_cons_of_neg (by simp [hdigit]), List.append_nil]
  cases negative <;> rfl

theorem showsPercent_withSigns : showsPercent (withSigns negative cs percent) = percent := by
  have hfigure : cs.contains '%' = false := by
    rw [Bool.eq_false_iff, Ne, List.contains_iff_mem]
    exact fun hmem => h.ne hmem rfl (by decide) rfl
  rw [showsPercent, h.trimChars_withSigns, List.contains_append, List.contains_append, hfigure]
  cases negative <;> cases percent <;> rfl

theorem numeral_withSigns (l : NumberLocale) : l.numeral (withSigns negative cs percent) =
    normalizeSeparators l.thousands cs := by
  have hkept : ((if negative then ['-'] else []) ++ (cs ++ if percent then ['%'] else [])).filter
      (fun c => isDecimalDigit c || isSeparator c) = cs := by
    have hself : cs.filter (fun c => isDecimalDigit c || isSeparator c) = cs :=
      List.filter_eq_self.mpr fun c hc => by simpa [or_comm] using h.chars c hc
    rw [List.filter_append, List.filter_append, hself]
    have hsigns : ['-'].filter (fun c => isDecimalDigit c || isSeparator c) = [] ∧
        ['%'].filter (fun c => isDecimalDigit c || isSeparator c) = [] := by decide
    cases negative <;> cases percent <;> simp [hsigns]
  have hfirst : cs.dropWhile isSeparator = cs := by
    obtain ⟨d, hd, hdigit⟩ := h.first
    refine dropWhile_of_head fun c hc => ?_
    cases Option.mem_unique hc hd
    exact isSeparator_of_isDecimalDigit hdigit
  have hlast : cs.reverse.dropWhile isSeparator = cs.reverse :=
    dropWhile_of_head fun c hc =>
      isSeparator_of_isDecimalDigit (h.last c (List.head?_reverse ▸ hc))
  rw [NumberLocale.numeral, h.trimChars_withSigns]
  simp only [numeralChars, hkept, hfirst, hlast, List.reverse_reverse]

/-- The number of a figure is read with the signs that stand before it and behind it. -/
theorem readNumber_withSigns (l : NumberLocale) {m : Number.Numeral}
    (hscan : Number.scanNumeral? (normalizeSeparators l.thousands cs) = some (m, [])) :
    l.readNumber (withSigns negative cs percent) =
      if percent then m.toBinary64 negative / 100 else m.toBinary64 negative := by
  rw [l.readNumber_of_numeral (h.showsDigit_withSigns negative percent)
      (by rwa [h.numeral_withSigns negative percent l]),
    h.showsPercent_withSigns, h.showsMinus_withSigns]

end IsFigure

end LiveForm
