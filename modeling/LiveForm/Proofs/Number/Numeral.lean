import LiveForm.Number.Decimal
import LiveForm.Proofs.Text.Digit
import Mathlib.Data.List.TakeWhile

/-!
# Numerals that stand alone

A scanner finds a numeral in front of a text; `readNumber?` reads a whole text.
`readNumber?_of_scanNumeral?` says that what the scanner finds is read as the same number when it
stands alone.
-/

namespace LiveForm.Number

open Text

/-! ## Parts of a numeral -/

/-- Digits in front of something else are found. -/
theorem scanDigits_append_of {w y : List Char} (hw : ∀ c ∈ w, isDecimalDigit c = true)
    (hy : ∀ c ∈ y.head?, isDecimalDigit c = false) : scanDigits (w ++ y) = (w, y) := by
  rw [scanDigits, List.takeWhile_append_of_pos hw, List.dropWhile_append_of_pos hw]
  cases y with
  | nil => simp
  | cons c y => simp [hy c rfl]

theorem scanDigits_of_forall {w : List Char} (hw : ∀ c ∈ w, isDecimalDigit c = true) :
    scanDigits w = (w, []) := by
  have := scanDigits_append_of (y := []) hw nofun
  rwa [List.append_nil] at this

/-- A row of digits: the digits, and behind them something else. -/
theorem scanDigits_eq {cs w r : List Char} (h : scanDigits cs = (w, r)) :
    cs = w ++ r ∧ (∀ c ∈ w, isDecimalDigit c = true) ∧
      ∀ c ∈ r.head?, isDecimalDigit c = false := by
  simp only [scanDigits, Prod.mk.injEq] at h
  obtain ⟨rfl, rfl⟩ := h
  refine ⟨List.takeWhile_append_dropWhile.symm, fun _ hc => List.mem_takeWhile_imp hc,
    fun c hc => ?_⟩
  have := List.head?_dropWhile_not isDecimalDigit cs
  rw [hc] at this
  simpa using this

/-- The text goes on as the other one, or ends first. -/
theorem head?_of_append {α : Type} {p : α → Prop} {r s t : List α} (h : r = s ++ t)
    (hr : ∀ c ∈ r.head?, p c) : ∀ c ∈ s.head?, p c := by
  intro c hc
  refine hr c ?_
  rw [h, List.head?_append, hc]
  rfl

/-- A fraction takes a front part of the text, and finds the same there whatever part of what it
leaves follows. -/
theorem scanFraction_split {cs f r : List Char} (h : scanFraction cs = (f, r)) :
    ∃ q, cs = q ++ r ∧ (∀ c ∈ q, c = '.' ∨ isDecimalDigit c = true) ∧
      ∀ s t, r = s ++ t → scanFraction (q ++ s) = (f, s) := by
  unfold scanFraction at h
  split at h
  · next r' =>
    obtain ⟨rfl, hw, hr⟩ := scanDigits_eq h
    refine ⟨'.' :: f, rfl, List.forall_mem_cons.mpr ⟨Or.inl rfl, fun c hc => Or.inr (hw c hc)⟩,
      fun s t hst => ?_⟩
    exact scanDigits_append_of hw (head?_of_append hst hr)
  · next hpoint =>
    cases h
    refine ⟨[], rfl, nofun, fun s t hst => ?_⟩
    rw [List.nil_append]
    unfold scanFraction
    split
    · next r' => exact absurd hst (hpoint (r' ++ t))
    · rfl

/-- A sign, if there is one, is found again in front of a part of what it leaves. -/
theorem scanSign_split {cs r : List Char} {negative : Bool} (h : scanSign cs = (negative, r)) :
    ∃ q, cs = q ++ r ∧ (∀ c ∈ q, c = '-' ∨ c = '+') ∧
      ∀ s t, r = s ++ t → s ≠ [] → scanSign (q ++ s) = (negative, s) := by
  unfold scanSign at h
  split at h
  · cases h
    exact ⟨['-'], rfl, by simp, fun s t hst hs => rfl⟩
  · cases h
    exact ⟨['+'], rfl, by simp, fun s t hst hs => rfl⟩
  · next hminus hplus =>
    cases h
    refine ⟨[], rfl, nofun, fun s t hst hs => ?_⟩
    cases s with
    | nil => exact absurd rfl hs
    | cons c s =>
      rw [List.nil_append]
      unfold scanSign
      split
      · next heq =>
        cases heq
        exact absurd hst (hminus _)
      · next heq =>
        cases heq
        exact absurd hst (hplus _)
      · rfl

/-- A character that a numeral may consist of. -/
def isNumeralChar (c : Char) : Bool :=
  isDecimalDigit c || c == '.' || c == 'e' || c == 'E' || c == '-' || c == '+'

/-- An exponent takes a front part of the text, and finds the same when it stands alone. -/
theorem scanExponent_split {cs r : List Char} {e : Int} (h : scanExponent cs = (e, r)) :
    ∃ q, cs = q ++ r ∧ (∀ c ∈ q, isNumeralChar c = true) ∧ scanExponent q = (e, []) := by
  have hnone : ∀ {cs : List Char}, (0, cs) = (e, r) →
      ∃ q, cs = q ++ r ∧ (∀ c ∈ q, isNumeralChar c = true) ∧ scanExponent q = (e, []) := by
    rintro cs ⟨⟩
    exact ⟨[], rfl, nofun, rfl⟩
  unfold scanExponent at h
  split at h
  · exact hnone h
  · next c cs =>
    split at h
    · next hmark =>
      cases hs : scanSign cs with
      | mk negative s =>
        cases hd : scanDigits s with
        | mk w rest =>
          simp only [hs, hd] at h
          split at h
          · exact hnone h
          · next hne =>
            obtain ⟨he, rfl⟩ := Prod.mk.inj h
            obtain ⟨q, hq, hsigns, hsign⟩ := scanSign_split hs
            obtain ⟨hsplit, hdigits, -⟩ := scanDigits_eq hd
            refine ⟨c :: (q ++ w), ?_, ?_, ?_⟩
            · rw [List.cons_append, List.append_assoc, ← hsplit, ← hq]
            · refine List.forall_mem_cons.mpr ⟨?_, fun x hx => ?_⟩
              · simp only [Bool.or_eq_true, beq_iff_eq] at hmark
                rcases hmark with rfl | rfl <;> decide
              · rcases List.mem_append.mp hx with hx | hx
                · rcases hsigns x hx with rfl | rfl <;> decide
                · simp [isNumeralChar, hdigits x hx]
            · rw [scanExponent, if_pos hmark, hsign _ _ hsplit (by simpa using hne)]
              simp only [scanDigits_of_forall hdigits, if_neg hne, he]
    · exact hnone h

/-! ## Whole numerals -/

/-- A numeral takes a front part of the text, which is the same numeral when it stands alone. -/
theorem scanNumeral?_split {cs rest : List Char} {n : Numeral}
    (h : scanNumeral? cs = some (n, rest)) :
    ∃ p, cs = p ++ rest ∧ (∀ c ∈ p, isNumeralChar c = true) ∧
      (∀ c ∈ p.head?, c = '.' ∨ isDecimalDigit c = true) ∧ scanNumeral? p = some (n, []) := by
  obtain ⟨⟨w, r⟩, hd⟩ : ∃ x, scanDigits cs = x := ⟨_, rfl⟩
  obtain ⟨⟨f, r'⟩, hf⟩ : ∃ x, scanFraction r = x := ⟨_, rfl⟩
  obtain ⟨⟨e, r''⟩, he⟩ : ∃ x, scanExponent r' = x := ⟨_, rfl⟩
  simp only [scanNumeral?, hd, hf, he] at h
  split at h
  · cases h
  · next hne =>
    cases h
    obtain ⟨rfl, hw, hbehind⟩ := scanDigits_eq hd
    obtain ⟨q, rfl, hqchars, hfraction⟩ := scanFraction_split hf
    obtain ⟨x, rfl, hxchars, hexponent⟩ := scanExponent_split he
    have hfront : ∀ c ∈ (q ++ x).head?, isDecimalDigit c = false :=
      head?_of_append (t := rest) (by rw [List.append_assoc]) hbehind
    refine ⟨w ++ (q ++ x), by simp only [List.append_assoc], fun c hc => ?_, fun c hc => ?_, ?_⟩
    · rcases List.mem_append.mp hc with hc | hc
      · simp [isNumeralChar, hw c hc]
      · rcases List.mem_append.mp hc with hc | hc
        · rcases hqchars c hc with rfl | hc
          · decide
          · simp [isNumeralChar, hc]
        · exact hxchars c hc
    · cases w with
      | cons d w =>
        cases hc
        exact Or.inr (hw _ List.mem_cons_self)
      | nil =>
        -- Without digits in front there is a fraction, which starts with a point
        cases q with
        | cons d q =>
          cases hc
          exact hqchars _ List.mem_cons_self
        | nil =>
          have : scanFraction [] = (f, []) := hfraction [] _ rfl
          cases this
          exact absurd rfl hne
    · rw [scanNumeral?, scanDigits_append_of hw hfront]
      simp only [hfraction x rest rfl, hexponent, if_neg hne]

/-! ## Whole texts -/

/-- No blank is part of a numeral. -/
theorem isBlank_of_isNumeralChar {c : Char} (h : isNumeralChar c = true) : isBlank c = false := by
  have hall : ∀ r ∈ blankRanges, ∀ n ∈ List.range' r.1 (r.2 + 1 - r.1),
      isNumeralChar (Char.ofNat n) = false := by
    decide +kernel
  by_contra hb
  obtain ⟨r, hr, h1, h2⟩ := inRanges_iff.mp (Bool.eq_true_of_not_eq_false hb)
  have := hall r hr c.toNat (List.mem_range'_1.mpr ⟨h1, by omega⟩)
  rw [Char.ofNat_toNat, h] at this
  cases this

theorem dropUnderscores?_of_forall {cs : List Char} (h : ∀ c ∈ cs, c ≠ '_')
    (before : Option Char) : dropUnderscores? before cs = some cs := by
  induction cs generalizing before with
  | nil => rfl
  | cons c cs ih =>
    rw [dropUnderscores?, ih fun x hx => h x (List.mem_cons_of_mem _ hx)]
    · rfl
    · exact fun heq => h c List.mem_cons_self heq

/-- A digit or a point starts none of the names of numbers. -/
theorem toLower_toNat_lt {c : Char} (h : c = '.' ∨ isDecimalDigit c = true) :
    c.toLower.toNat ≤ 57 ∨ 128 ≤ c.toLower.toNat := by
  rcases h with rfl | h
  · decide
  · have hc := toNat_of_isDecimalDigit h
    have hlower : c.toLower = c := by
      refine dif_neg ?_
      rintro ⟨h1, h2⟩
      rw [ge_iff_le, UInt32.le_iff_toNat_le] at h1
      rw [UInt32.le_iff_toNat_le] at h2
      have h1 : 65 ≤ c.toNat := h1
      have h2 : c.toNat ≤ 90 := h2
      omega
    rw [hlower]
    omega

theorem beq_name_eq_false {c d : Char} (h : c = '.' ∨ isDecimalDigit c = true)
    (hd : 57 < d.toNat ∧ d.toNat < 128) (cs ds : List Char) :
    (String.ofList ((c :: cs).map Char.toLower) == String.ofList (d :: ds)) = false := by
  rw [beq_eq_false_iff_ne]
  intro heq
  have := String.ofList_injective heq
  rw [List.map_cons, List.cons.injEq] at this
  have hlower := toLower_toNat_lt h
  rw [this.1] at hlower
  omega

/-- A minus sign, if there is one, is found in front of a digit or a point. -/
theorem scanSign_of_head {c : Char} (hc : c = '.' ∨ isDecimalDigit c = true) {cs : List Char}
    {negative : Bool} :
    scanSign ((if negative then ['-'] else []) ++ c :: cs) = (negative, c :: cs) := by
  cases negative with
  | true => rfl
  | false =>
    rw [if_neg Bool.false_ne_true, List.nil_append]
    unfold scanSign
    split
    · next heq =>
      cases heq
      exact absurd hc (by decide)
    · next heq =>
      cases heq
      exact absurd hc (by decide)
    · rfl

/-- Nothing but a numeral, perhaps behind a minus sign, is read as the number that it denotes. -/
theorem readNumber?_of_scanNumeral? {p : List Char} {n : Numeral}
    (h : scanNumeral? p = some (n, [])) (negative : Bool) :
    readNumber? (.ofList ((if negative then ['-'] else []) ++ p)) =
      some (n.toBinary64 negative) := by
  obtain ⟨q, hq, hp, hhead, -⟩ := scanNumeral?_split h
  rw [List.append_nil] at hq
  subst hq
  have hchars : ∀ c ∈ (if negative then ['-'] else []) ++ p, isNumeralChar c = true := by
    intro c hc
    rcases List.mem_append.mp hc with hc | hc
    · cases negative with
      | false => cases hc
      | true =>
        cases List.mem_singleton.mp hc
        decide
    · exact hp c hc
  have hblank : ∀ c ∈ (if negative then ['-'] else []) ++ p, isBlank c = false :=
    fun c hc => isBlank_of_isNumeralChar (hchars c hc)
  have hunderscore : ∀ c ∈ (if negative then ['-'] else []) ++ p, c ≠ '_' := by
    rintro c hc rfl
    have := hchars _ hc
    revert this
    decide
  cases p with
  | nil => cases h
  | cons c p =>
    have hc := hhead c rfl
    have hnames : ∀ d ds, 57 < d.toNat ∧ d.toNat < 128 →
        (String.ofList ((c :: p).map Char.toLower) == String.ofList (d :: ds)) = false :=
      fun d ds hd => beq_name_eq_false hc hd p ds
    have hinf := hnames 'i' ['n', 'f'] (by decide)
    have hinfinity := hnames 'i' ['n', 'f', 'i', 'n', 'i', 't', 'y'] (by decide)
    have hnan := hnames 'n' ['a', 'n'] (by decide)
    rw [readNumber?, String.toList_ofList, trimChars_of_forall hblank,
      dropUnderscores?_of_forall hunderscore]
    simp only [Option.bind_eq_bind, Option.bind_some, scanSign_of_head hc]
    rw [show "inf" = String.ofList ['i', 'n', 'f'] from rfl, hinf,
      show "infinity" = String.ofList ['i', 'n', 'f', 'i', 'n', 'i', 't', 'y'] from rfl, hinfinity,
      show "nan" = String.ofList ['n', 'a', 'n'] from rfl, hnan, h]
    rfl

end LiveForm.Number
