import LiveForm.Proofs.Number.Fixed
import LiveForm.Proofs.Value.Figures
import LiveForm.Value.Format

/-!
# Mirror images

The two conventions for numbers differ in what points and commas are for, and in nothing else: a text
with its points and commas exchanged is read under one convention as the text itself is under the
other (`readNumber_mirror`), and a number is shown with points and commas exchanged
(`groupedText_mirror`).
-/

namespace LiveForm

open Text

/-- The other convention. -/
def NumberLocale.mirror : NumberLocale → NumberLocale
  | id => en
  | en => id

/-! ## Exchanging the marks -/

/-- A point for a comma, and a comma for a point. -/
def mirrorMark (c : Char) : Char := if c = '.' then ',' else if c = ',' then '.' else c

/-- The text with its points and commas exchanged. -/
def mirrorMarks (s : String) : String := .ofList (s.toList.map mirrorMark)

theorem toList_mirrorMarks (s : String) : (mirrorMarks s).toList = s.toList.map mirrorMark :=
  String.toList_ofList

theorem mirrorMark_of_isSeparator {c : Char} (h : isSeparator c = false) : mirrorMark c = c := by
  simp only [isSeparator, Bool.or_eq_false_iff, beq_eq_false_iff_ne] at h
  rw [mirrorMark, if_neg h.1, if_neg h.2]

/-- Marks go to marks, and what is no mark stays. -/
theorem mirrorMark_cases (c : Char) :
    (c = '.' ∧ mirrorMark c = ',') ∨ (c = ',' ∧ mirrorMark c = '.') ∨
      (isSeparator c = false ∧ mirrorMark c = c) := by
  cases h : isSeparator c with
  | false => exact Or.inr (Or.inr ⟨rfl, mirrorMark_of_isSeparator h⟩)
  | true =>
    rcases isSeparator_cases h with rfl | rfl
    · exact Or.inl ⟨rfl, rfl⟩
    · exact Or.inr (Or.inl ⟨rfl, rfl⟩)

/-- A class of characters that points and commas belong to both or neither. -/
theorem map_mirrorMark_congr {α : Type} {p : Char → α} (h : p '.' = p ',') (c : Char) :
    p (mirrorMark c) = p c := by
  rcases mirrorMark_cases c with ⟨rfl, hc⟩ | ⟨rfl, hc⟩ | ⟨-, hc⟩
  · rw [hc, h]
  · rw [hc, h]
  · rw [hc]

theorem mirrorMark_mirrorMark (c : Char) : mirrorMark (mirrorMark c) = c := by
  rcases mirrorMark_cases c with ⟨rfl, hc⟩ | ⟨rfl, hc⟩ | ⟨-, hc⟩
  · rfl
  · rfl
  · rw [hc, hc]

theorem mirrorMark_inj {c d : Char} : mirrorMark c = mirrorMark d ↔ c = d :=
  ⟨fun h => by rw [← mirrorMark_mirrorMark c, h, mirrorMark_mirrorMark], congrArg mirrorMark⟩

theorem mirrorMark_beq (c d : Char) : (mirrorMark c == mirrorMark d) = (c == d) := by
  simp only [Bool.beq_eq_decide_eq, mirrorMark_inj]

theorem isSeparator_mirrorMark (c : Char) : isSeparator (mirrorMark c) = isSeparator c :=
  map_mirrorMark_congr rfl c

theorem bne_comp_mirrorMark (c : Char) : (· != mirrorMark c) ∘ mirrorMark = (· != c) := by
  funext d
  simp only [Function.comp_apply, bne, mirrorMark_beq]

/-- Of the marks one is looked for in a text and the other one in its mirror image. -/
theorem mem_map_mirrorMark {c : Char} {cs : List Char} :
    c ∈ cs.map mirrorMark ↔ mirrorMark c ∈ cs := by
  rw [List.mem_map]
  constructor
  · rintro ⟨d, hd, rfl⟩
    rwa [mirrorMark_mirrorMark]
  · exact fun h => ⟨_, h, mirrorMark_mirrorMark c⟩

/-- Characters that are no marks stay. -/
theorem map_mirrorMark_eq_self {cs : List Char} (h : ∀ c ∈ cs, isSeparator c = false) :
    cs.map mirrorMark = cs :=
  (List.map_congr_left fun c hc => mirrorMark_of_isSeparator (h c hc)).trans (List.map_id cs)

section

variable {p : Char → Bool} (h : p '.' = p ',') (cs : List Char)

include h

theorem comp_mirrorMark : p ∘ mirrorMark = p := funext (map_mirrorMark_congr h)

theorem dropWhile_map_mirrorMark :
    (cs.map mirrorMark).dropWhile p = (cs.dropWhile p).map mirrorMark := by
  rw [List.dropWhile_map, comp_mirrorMark h]

theorem takeWhile_map_mirrorMark :
    (cs.map mirrorMark).takeWhile p = (cs.takeWhile p).map mirrorMark := by
  rw [List.takeWhile_map, comp_mirrorMark h]

theorem filter_map_mirrorMark :
    (cs.map mirrorMark).filter p = (cs.filter p).map mirrorMark := by
  rw [List.filter_map, comp_mirrorMark h]

theorem any_map_mirrorMark : (cs.map mirrorMark).any p = cs.any p := by
  rw [List.any_map, comp_mirrorMark h]

end

/-- Whether a character that is no mark is there does not depend on the marks. -/
theorem contains_map_mirrorMark {c : Char} (h : isSeparator c = false) (cs : List Char) :
    (cs.map mirrorMark).contains c = cs.contains c := by
  rw [Bool.eq_iff_iff, List.contains_iff_mem, List.contains_iff_mem, mem_map_mirrorMark,
    mirrorMark_of_isSeparator h]

theorem trimChars_map_mirrorMark (cs : List Char) :
    trimChars (cs.map mirrorMark) = (trimChars cs).map mirrorMark := by
  have hblank : isBlank '.' = isBlank ',' := by decide
  simp only [trimChars, dropBlanks, dropWhile_map_mirrorMark hblank, ← List.map_reverse]

theorem numeralChars_map_mirrorMark (cs : List Char) :
    numeralChars (cs.map mirrorMark) = (numeralChars cs).map mirrorMark := by
  have hkept := filter_map_mirrorMark (p := fun c => isDecimalDigit c || isSeparator c)
    (by decide) cs
  have hmark : isSeparator '.' = isSeparator ',' := rfl
  simp only [numeralChars, hkept, dropWhile_map_mirrorMark hmark, ← List.map_reverse]

/-! ## What the marks are for -/

section

variable {thousands : Char} {cs : List Char}

/-- Where there is only one of the marks, nothing else is exchanged. -/
theorem mirrorMark_of_lone {mark c : Char} (honly : ∀ c ∈ cs, isSeparator c = true → c = mark)
    (hc : c ∈ cs) (hne : c ≠ mark) : mirrorMark c = c :=
  mirrorMark_of_isSeparator (Bool.eq_false_of_not_eq_true fun hsep => hne (honly c hc hsep))

theorem replaceChar_map_mirrorMark {mark : Char} (d : Char)
    (honly : ∀ c ∈ cs, isSeparator c = true → c = mark) :
    replaceChar (mirrorMark mark) d (cs.map mirrorMark) = replaceChar mark d cs := by
  rw [replaceChar, replaceChar, List.map_map]
  apply List.map_congr_left
  intro c hc
  simp only [Function.comp_apply, mirrorMark_beq]
  by_cases h : c = mark
  · simp [h]
  · simp [h, mirrorMark_of_lone honly hc h]

theorem filter_ne_map_mirrorMark {mark : Char}
    (honly : ∀ c ∈ cs, isSeparator c = true → c = mark) :
    (cs.map mirrorMark).filter (· != mirrorMark mark) = cs.filter (· != mark) := by
  rw [List.filter_map, bne_comp_mirrorMark]
  refine (List.map_congr_left fun c hc => ?_).trans (List.map_id _)
  obtain ⟨hc, hne⟩ := List.mem_filter.mp hc
  exact mirrorMark_of_lone honly hc (by simpa using hne)

theorem find?_reverse_map_mirrorMark :
    (cs.map mirrorMark).reverse.find? isSeparator =
      (cs.reverse.find? isSeparator).map mirrorMark := by
  have hmark : isSeparator '.' = isSeparator ',' := rfl
  rw [← List.map_reverse, List.find?_map, comp_mirrorMark hmark]

theorem normalizeSeparators_map_mirrorMark_of_lone {mark : Char} (hsep : isSeparator mark = true)
    (hmark : mark ∈ cs) (honly : ∀ c ∈ cs, isSeparator c = true → c = mark) :
    normalizeSeparators (mirrorMark thousands) (cs.map mirrorMark) =
      normalizeSeparators thousands cs := by
  have hsep' : isSeparator (mirrorMark mark) = true := by rwa [isSeparator_mirrorMark]
  have honly' : ∀ c ∈ cs.map mirrorMark, isSeparator c = true → c = mirrorMark mark := by
    intro c hc hc'
    obtain ⟨d, hd, rfl⟩ := List.mem_map.mp hc
    rw [isSeparator_mirrorMark] at hc'
    rw [honly d hd hc']
  have hcount : (cs.map mirrorMark).count (mirrorMark mark) = cs.count mark := by
    simp only [List.count, List.countP_map, Function.comp_def, mirrorMark_beq]
  have hlength : ((cs.map mirrorMark).dropWhile (· != mirrorMark mark)).length =
      (cs.dropWhile (· != mark)).length := by
    rw [List.dropWhile_map, bne_comp_mirrorMark, List.length_map]
  rw [normalizeSeparators_of_lone hsep hmark honly,
    normalizeSeparators_of_lone hsep' (List.mem_map_of_mem hmark) honly', hcount, hlength,
    filter_ne_map_mirrorMark honly, replaceChar_map_mirrorMark _ honly]
  simp only [mirrorMark_inj]

theorem normalizeSeparators_map_mirrorMark_of_both (hpoint : '.' ∈ cs) (hcomma : ',' ∈ cs) :
    normalizeSeparators (mirrorMark thousands) (cs.map mirrorMark) =
      normalizeSeparators thousands cs := by
  obtain ⟨last, hlast⟩ := exists_last hpoint
  have hkept : (cs.map mirrorMark).filter (fun c => c == mirrorMark last || !isSeparator c) =
      (cs.filter fun c => c == last || !isSeparator c).map mirrorMark := by
    rw [List.filter_map]
    simp only [Function.comp_def, mirrorMark_beq, isSeparator_mirrorMark]
  -- The other mark is dropped before the last one is replaced
  have honly : ∀ c ∈ cs.filter fun c => c == last || !isSeparator c,
      isSeparator c = true → c = last := by
    intro c hc hsep
    simpa [hsep] using (List.mem_filter.mp hc).2
  have hlast' : (cs.map mirrorMark).reverse.find? isSeparator = some (mirrorMark last) := by
    rw [find?_reverse_map_mirrorMark, hlast]
    rfl
  have hpoint' : '.' ∈ cs.map mirrorMark := mem_map_mirrorMark.mpr hcomma
  have hcomma' : ',' ∈ cs.map mirrorMark := mem_map_mirrorMark.mpr hpoint
  rw [normalizeSeparators_of_both hpoint hcomma hlast,
    normalizeSeparators_of_both hpoint' hcomma' hlast', hkept, replaceChar_map_mirrorMark _ honly]

/-- A mark in the mirror image is for what the mark in its place is for. -/
theorem normalizeSeparators_map_mirrorMark :
    normalizeSeparators (mirrorMark thousands) (cs.map mirrorMark) =
      normalizeSeparators thousands cs := by
  rcases separators_cases cs with hnone | ⟨mark, hmark, hsep, honly⟩ | ⟨hpoint, hcomma⟩
  · rw [map_mirrorMark_eq_self hnone, normalizeSeparators_of_none hnone,
      normalizeSeparators_of_none hnone]
  · exact normalizeSeparators_map_mirrorMark_of_lone hsep hmark honly
  · exact normalizeSeparators_map_mirrorMark_of_both hpoint hcomma

end

/-! ## Reading -/

namespace NumberLocale

variable (l : NumberLocale)

theorem thousands_mirror : l.mirror.thousands = mirrorMark l.thousands := by
  cases l <;> rfl

theorem decimal_mirror : l.mirror.decimal = mirrorMark l.decimal := by
  cases l <;> rfl

theorem numeral_mirror (s : String) : l.mirror.numeral (mirrorMarks s) = l.numeral s := by
  rw [numeral, toList_mirrorMarks, trimChars_map_mirrorMark, numeralChars_map_mirrorMark,
    thousands_mirror, normalizeSeparators_map_mirrorMark, numeral]

end NumberLocale

theorem showsDigit_mirrorMarks (s : String) : showsDigit (mirrorMarks s) = showsDigit s := by
  rw [showsDigit, toList_mirrorMarks, trimChars_map_mirrorMark, any_map_mirrorMark (by decide),
    showsDigit]

theorem showsMinus_mirrorMarks (s : String) : showsMinus (mirrorMarks s) = showsMinus s := by
  rw [showsMinus, toList_mirrorMarks, trimChars_map_mirrorMark, takeWhile_map_mirrorMark (by decide),
    contains_map_mirrorMark rfl, showsMinus]

theorem showsPercent_mirrorMarks (s : String) : showsPercent (mirrorMarks s) = showsPercent s := by
  rw [showsPercent, toList_mirrorMarks, trimChars_map_mirrorMark, contains_map_mirrorMark rfl,
    showsPercent]

/-- A text is read as its mirror image is under the other convention. -/
theorem NumberLocale.readNumber_mirror (l : NumberLocale) (s : String) :
    l.mirror.readNumber (mirrorMarks s) = l.readNumber s :=
  readNumber_congr (showsDigit_mirrorMarks s) (l.numeral_mirror s) (showsMinus_mirrorMarks s)
    (showsPercent_mirrorMarks s)

/-! ## Showing -/

theorem AllDigits.map_mirrorMark {ds : List Char} (h : AllDigits ds) : ds.map mirrorMark = ds :=
  map_mirrorMark_eq_self fun c hc => isSeparator_of_isDecimalDigit (h.isDecimalDigit c hc)

theorem groupThousands_mirrorMark {ds : List Char} (h : AllDigits ds) (mark : Char) :
    groupThousands (mirrorMark mark) ds = (groupThousands mark ds).map mirrorMark := by
  have hgo : ∀ k r, AllDigits r →
      groupThousands.go (mirrorMark mark) k r = (groupThousands.go mark k r).map mirrorMark := by
    intro k r
    induction r generalizing k with
    | nil => exact fun _ => rfl
    | cons d r ih =>
      intro hr
      have hd : mirrorMark d = d := List.head_eq_of_cons_eq hr.map_mirrorMark
      have hr : AllDigits r := fun c hc => hr c (List.mem_cons_of_mem _ hc)
      rw [groupThousands.go, groupThousands.go]
      split
      · simp [ih 1 hr, hd]
      · simp [ih (k + 1) hr, hd]
  rw [groupThousands, hgo _ _ fun c hc => h c (List.mem_reverse.mp hc), ← List.map_reverse,
    groupThousands]

theorem mirrorMarks_withSigns (negative : Bool) (cs : List Char) (percent : Bool) :
    mirrorMarks (withSigns negative cs percent) = withSigns negative (cs.map mirrorMark) percent := by
  rw [mirrorMarks, withSigns, withSigns, String.toList_ofList, List.map_append, List.map_append]
  cases negative <;> cases percent <;> rfl

/-- The places behind the point that are written of an amount. -/
def shownFraction (units : Nat) : List Char :=
  ((Binary64.fixedDigits units 3).2.reverse.dropWhile (· == '0')).reverse

theorem allDigits_shownFraction (units : Nat) : AllDigits (shownFraction units) := by
  intro c hc
  have hc : c ∈ (Binary64.fixedDigits units 3).2.reverse.dropWhile (· == '0') :=
    List.mem_reverse.mp hc
  exact (Binary64.allDigits_fixedDigits units 3).2 c
    (List.mem_reverse.mp ((List.dropWhile_sublist _).mem hc))

/-- The digits and marks of an amount. -/
def NumberLocale.amount (l : NumberLocale) (whole fraction : List Char) : List Char :=
  groupThousands l.thousands whole ++ if fraction = [] then [] else l.decimal :: fraction

theorem NumberLocale.amount_mirror (l : NumberLocale) {whole fraction : List Char}
    (hwhole : AllDigits whole) (hfraction : AllDigits fraction) :
    l.mirror.amount whole fraction = (l.amount whole fraction).map mirrorMark := by
  rw [amount, amount, l.thousands_mirror, l.decimal_mirror, groupThousands_mirrorMark hwhole]
  by_cases h : fraction = []
  · simp [h]
  · simp [h, hfraction.map_mirrorMark]

/-- Zero has no sign when it is written. -/
def showsSign (negative : Bool) (units : Nat) : Bool :=
  negative && !((Binary64.fixedDigits units 3).1.all (· == '0') && (shownFraction units).isEmpty)

theorem groupedText_finite (l : NumberLocale) (negative : Bool) {units : Nat}
    (h : Representable units) :
    groupedText l (.finite negative units h) =
      withSigns (showsSign negative units)
        (l.amount (Binary64.fixedDigits units 3).1 (shownFraction units)) false := by
  have hsign : (if showsSign negative units then "-" else "") =
      String.ofList (if showsSign negative units then ['-'] else []) := by
    cases showsSign negative units <;> rfl
  have hfraction : (if (shownFraction units).isEmpty then "" else
      String.ofList (l.decimal :: shownFraction units)) =
      .ofList (if shownFraction units = [] then [] else l.decimal :: shownFraction units) := by
    cases shownFraction units <;> rfl
  rw [withSigns, if_neg Bool.false_ne_true, List.append_nil, String.ofList_append,
    NumberLocale.amount, String.ofList_append, ← String.append_assoc, ← hsign, ← hfraction]
  rfl

/-- A number is shown under one convention as the mirror image of what it is under the other. -/
theorem groupedText_mirror (l : NumberLocale) (x : Binary64) :
    groupedText l.mirror x = mirrorMarks (groupedText l x) := by
  match x with
  | .nan =>
    have hname : mirrorMarks "nan" = "nan" := by decide
    exact hname.symm
  | .infinite negative =>
    have hname : ∀ negative : Bool, mirrorMarks (if negative then "-inf" else "inf") =
        if negative then "-inf" else "inf" := by decide
    exact (hname negative).symm
  | .finite negative units h =>
    rw [groupedText_finite, groupedText_finite, mirrorMarks_withSigns,
      l.amount_mirror (Binary64.allDigits_fixedDigits units 3).1 (allDigits_shownFraction units)]

namespace Value

/-- A value that is a number is shown as that number. -/
theorem format_of_asNumber (l : NumberLocale) {v : Value} {x : Binary64} (hx : v.asNumber = .ok x)
    {kind : FormatKind} (hkind : kind ≠ .plain) :
    v.format l (some kind) = if v.isEmpty then .ok "" else kind.render l x := by
  have hformat : v.format l (some kind) =
      if v.isEmpty then .ok "" else (do kind.render l (← v.asNumber)) := by
    cases v with
    | text s => cases hx
    | _ =>
      cases kind with
      | plain => exact absurd rfl hkind
      | _ => rfl
  rw [hformat, hx]
  rfl

/-- The two conventions are mirror images of each other: a text with its points and commas exchanged
is read under one of them as the text itself is under the other, and an amount is shown with its
points and commas exchanged. -/
theorem conventions_mirror (l : NumberLocale) :
    (∀ s, ∃ y, (text s).toNumber? l = some y ∧ (text (mirrorMarks s)).toNumber? l.mirror = some y) ∧
    ∀ (v : Value) (x : Binary64) (kind : FormatKind), v.asNumber = .ok x →
      kind ∈ [FormatKind.currency, .idr, .number] →
      ∃ shown, v.format l (some kind) = .ok shown ∧
        v.format l.mirror (some kind) = .ok (mirrorMarks shown) := by
  constructor
  · intro s
    exact ⟨l.readNumber s, rfl, congrArg some (l.readNumber_mirror s)⟩
  · intro v x kind hx hkind
    have hrender : ∀ l', kind.render l' x = .ok (groupedText l' x) := by
      intro l'
      cases kind with
      | currency | idr | number => rfl
      | _ => exact absurd hkind (by decide)
    have hplain : kind ≠ .plain := by
      rintro rfl
      exact absurd hkind (by decide)
    rw [format_of_asNumber l hx hplain, format_of_asNumber l.mirror hx hplain, hrender, hrender,
      groupedText_mirror]
    cases v.isEmpty with
    | true => exact ⟨"", rfl, rfl⟩
    | false => exact ⟨groupedText l x, rfl, rfl⟩

/-- The amount -1,234,567 under both conventions. -/
theorem conventions_mirror_integer :
    (integer (-1234567)).asNumber = .ok (.ofInt (-1234567)) ∧
      FormatKind.currency ∈ [FormatKind.currency, .idr, .number] ∧
      (integer (-1234567)).format .id (some .currency) = .ok "-1.234.567" ∧
      (integer (-1234567)).format .en (some .currency) = .ok "-1,234,567" := by
  have hx : (integer (-1234567)).asNumber = .ok (.ofInt (-1234567)) := by decide +kernel
  have hkind : FormatKind.currency ∈ [FormatKind.currency, .idr, .number] := by decide
  have hid : (integer (-1234567)).format .id (some .currency) = .ok "-1.234.567" := by
    decide +kernel
  obtain ⟨shown, hshown, hmirror⟩ := (conventions_mirror .id).2 _ _ _ hx hkind
  cases hid.symm.trans hshown
  exact ⟨hx, hkind, hid, hmirror⟩

end Value

end LiveForm
