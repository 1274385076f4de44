import LiveForm.Number.Shortest
import LiveForm.Proofs.Number.Decimal
import LiveForm.Proofs.Number.Numeral

/-!
# The shortest numeral is found

Of the two decimals of seventeen digits on either side of a number the nearer one is rounded to it
(`readsBack_digitsBelow`), so that the search for a decimal that reads back comes to an end, and
what it finds reads back (`ofDecimal_shortestDecimal`).
-/

namespace LiveForm

namespace Binary64

open Text

variable {u : Nat}

/-! ## Seventeen digits suffice -/

/-- A decimal of at least seventeen digits that is off a number by half of a step at most is rounded
to it. -/
theorem ofDecimal_of_near {n : Nat} {e : Int} (hu : Representable u) (hn : 10 ^ 16 ≤ n)
    (he : -416 ≤ e) (hlow : 2 * (u * stepParts e) ≤ 2 * (n * stepUnits e) + stepUnits e)
    (hhigh : 2 * (n * stepUnits e) ≤ 2 * (u * stepParts e) + stepUnits e) (s : Bool) :
    ofDecimal s n e = finite s u hu := by
  have hS := stepUnits_pos e
  have hwide : 10 ^ 16 * stepUnits e ≤ n * stepUnits e := Nat.mul_le_mul_right _ hn
  have hlength : 17 ≤ (Nat.toDigits 10 n).length := by
    have := (Nat.pow_lt_pow_iff_right (by decide : 1 < 10)).mp
      (Nat.lt_of_le_of_lt hn (lt_pow_length n))
    omega
  have hrange : ∀ k : Nat, k = 309 → (Nat.toDigits 10 n).length + e ≤ k + 1 := by
    intro k hk
    refine (length_add_le (k := k + 1) ?_).resolve_left (by omega)
    have hmax : u * stepParts e ≤ one * 10 ^ k * stepParts e :=
      Nat.mul_le_mul_right _ (Nat.le_trans (Nat.le_trans hu.le
        (Nat.mul_le_mul_right _ (by decide))) (range_le hk))
    have hscaled : one * (n * 10 ^ e.toNat) < one * (10 ^ (k + 1) * stepParts e) :=
      calc one * (n * 10 ^ e.toNat)
          = n * stepUnits e := by
            unfold stepUnits
            ring
        _ < 10 * (one * 10 ^ k * stepParts e) := by omega
        _ = one * (10 ^ (k + 1) * stepParts e) := by ring
    exact Nat.lt_of_mul_lt_mul_left hscaled
  have hrange := hrange 309 rfl
  rw [ofDecimal_eq (by omega) (by omega) (by omega),
    roundUnits_of_near (stepParts_pos e) hu (by omega) (by omega), ofUnits_of_representable hu]

theorem digitsBelow_eq (u : Nat) (point : Int) (k : Nat) :
    digitsBelow u point k =
      (u * stepParts (point - k) / stepUnits (point - k), point - k) := by
  simp only [digitsBelow, stepParts, stepUnits, Nat.pow_eq]
  split_ifs with h
  · rw [show (-(point - k)).toNat = 0 by omega, Nat.pow_zero, Nat.mul_one]
  · rw [show (point - k).toNat = 0 by omega, Nat.pow_zero, Nat.mul_one]

/-- The number of places by which the point is moved is kept from being carried out. -/
theorem pointPosition_eq (u : Nat) {z : Nat} (hz : z = 400) :
    pointPosition u = ((Nat.toDigits 10 (u * 10 ^ z / one)).length : Int) - z := by
  unfold pointPosition
  rw [← hz, Nat.pow_eq]
  omega

theorem le_pointPosition (u : Nat) : -399 ≤ pointPosition u := by
  have := Nat.length_toDigits_pos (b := 10) (n := u * Nat.pow 10 400 / one)
  unfold pointPosition
  omega

/-- A number other than zero has its first digit at `pointPosition`: with `k` places more it is no
less than `10 ^ k` steps. -/
theorem pow_mul_stepUnits_le (hu : 0 < u) {k : Nat} {e : Int} (he : pointPosition u = e + (k + 1)) :
    10 ^ k * stepUnits e ≤ u * stepParts e := by
  obtain ⟨z, hz⟩ : ∃ z, z = 400 := ⟨_, rfl⟩
  have hposition := pointPosition_eq u hz
  have hone : ∀ z ∈ [400], one ≤ 10 ^ z := by decide +kernel
  have hpos : 0 < u * 10 ^ z / one :=
    Nat.div_pos (Nat.le_trans (hone z (List.mem_singleton.mpr hz)) (Nat.le_mul_of_pos_left _ hu))
      one_pos
  have hlength := Nat.length_toDigits_pos (b := 10) (n := u * 10 ^ z / one)
  have hfirst := pow_length_le hpos
  generalize (Nat.toDigits 10 (u * 10 ^ z / one)).length = l at hposition hlength hfirst
  have hexp : z + k + e.toNat = l - 1 + (-e).toNat := by omega
  have hscaled : 10 ^ z * (10 ^ k * stepUnits e) ≤ 10 ^ z * (u * stepParts e) :=
    calc 10 ^ z * (10 ^ k * stepUnits e)
        = one * 10 ^ (z + k + e.toNat) := by
          rw [Nat.pow_add, Nat.pow_add, stepUnits]
          ring
      _ = 10 ^ (l - 1) * one * 10 ^ (-e).toNat := by
          rw [hexp, Nat.pow_add]
          ring
      _ ≤ u * 10 ^ z * 10 ^ (-e).toNat :=
          Nat.mul_le_mul_right _ ((Nat.le_div_iff_mul_le one_pos).mp hfirst)
      _ = 10 ^ z * (u * stepParts e) := by
          rw [stepParts]
          ring
  exact Nat.le_of_mul_le_mul_left hscaled (Nat.pow_pos (by decide))

/-! ## The search -/

/-- A decimal is brought to units of its sign, or to the infinity of its sign. -/
theorem ofDecimal_cases (s : Bool) (n : Nat) (e : Int) :
    (∃ v, ofDecimal s n e = ofUnits s v) ∨ ofDecimal s n e = infinite s := by
  unfold ofDecimal
  dsimp only
  split_ifs
  · exact Or.inl ⟨_, rfl⟩
  · exact Or.inr rfl
  · exact Or.inl ⟨_, rfl⟩
  · exact Or.inl ⟨_, rfl⟩
  · exact Or.inl ⟨_, rfl⟩

theorem readsBack_of_ofDecimal {n : Nat} {e : Int} (hu : Representable u)
    (h : ofDecimal false n e = finite false u hu) : readsBack u n e = true := by
  rw [readsBack, h]
  exact beq_self_eq_true u

theorem ofDecimal_of_readsBack {n : Nat} {e : Int} (hu : Representable u)
    (h : readsBack u n e = true) : ofDecimal false n e = finite false u hu := by
  unfold readsBack at h
  split at h
  · next s v hv hfinite =>
    obtain rfl : v = u := beq_iff_eq.mp h
    rw [hfinite]
    rcases ofDecimal_cases false n e with ⟨w, hw⟩ | hinf
    · rw [hw, ofUnits] at hfinite
      split at hfinite
      · cases hfinite
        rfl
      · cases hfinite
    · rw [hinf] at hfinite
      cases hfinite
  · cases h

/-- One of the two decimals of seventeen digits around a number reads back. -/
theorem readsBack_digitsBelow (hu : Representable u) (hpos : 0 < u) {point : Int}
    (hpoint : pointPosition u = point) {n : Nat} {e : Int} (h : digitsBelow u point 17 = (n, e)) :
    readsBack u n e = true ∨ readsBack u (n + 1) e = true := by
  rw [digitsBelow_eq, Prod.mk.injEq] at h
  obtain ⟨rfl, he⟩ := h
  rw [he]
  have hfirst : 10 ^ 16 * stepUnits e ≤ u * stepParts e := pow_mul_stepUnits_le hpos (by omega)
  have hposition := le_pointPosition u
  have hn : 10 ^ 16 ≤ u * stepParts e / stepUnits e :=
    (Nat.le_div_iff_mul_le (stepUnits_pos e)).mpr hfirst
  have hdiv := Nat.div_add_mod' (u * stepParts e) (stepUnits e)
  have hmod := Nat.mod_lt (u * stepParts e) (stepUnits_pos e)
  have hsucc := Nat.add_one_mul (u * stepParts e / stepUnits e) (stepUnits e)
  rcases Nat.le_total (2 * (u * stepParts e % stepUnits e)) (stepUnits e) with hle | hge
  · exact Or.inl (readsBack_of_ofDecimal hu
      (ofDecimal_of_near hu hn (by omega) (by omega) (by omega) false))
  · exact Or.inr (readsBack_of_ofDecimal hu
      (ofDecimal_of_near hu (by omega) (by omega) (by omega) (by omega) false))

theorem readsBack_of_decimalOfLength? {point : Int} {k n : Nat} {e : Int}
    (h : decimalOfLength? u point k = some (n, e)) : readsBack u n e = true := by
  unfold decimalOfLength? at h
  dsimp only at h
  split at h
  · next hbelow habove =>
    cases h
    split
    · exact hbelow
    · exact habove
  · next hbelow _ =>
    cases h
    exact hbelow
  · next _ habove =>
    cases h
    exact habove
  · cases h

theorem decimalOfLength?_ne_none (hu : Representable u) (hpos : 0 < u) {point : Int}
    (hpoint : pointPosition u = point) : decimalOfLength? u point 17 ≠ none := by
  obtain ⟨⟨n, e⟩, hbelow⟩ : ∃ x, digitsBelow u point 17 = x := ⟨_, rfl⟩
  unfold decimalOfLength?
  rw [hbelow]
  rcases readsBack_digitsBelow hu hpos hpoint hbelow with h | h
  · cases hsucc : readsBack u (n + 1) e <;> simp [h, hsucc]
  · cases hsame : readsBack u n e <;> simp [h, hsame]

/-- The search, with the place of the point kept from being computed. -/
theorem shortestDecimal_eq {point : Int} (hpoint : pointPosition u = point) :
    shortestDecimal u =
      ((List.range 17).findSome? fun k => decimalOfLength? u point (k + 1)).getD
        (digitsBelow u point 17) := by
  subst hpoint
  rfl

/-- The decimal that is found is rounded to the number. -/
theorem ofDecimal_shortestDecimal (hu : Representable u) (hpos : 0 < u) :
    ofDecimal false (shortestDecimal u).1 (shortestDecimal u).2 = finite false u hu := by
  obtain ⟨point, hpoint⟩ : ∃ point, pointPosition u = point := ⟨_, rfl⟩
  rw [shortestDecimal_eq hpoint]
  cases hfind : (List.range 17).findSome? fun k => decimalOfLength? u point (k + 1) with
  | none =>
    exact absurd (List.findSome?_eq_none_iff.mp hfind 16 (by decide))
      (decimalOfLength?_ne_none hu hpos hpoint)
  | some x =>
    obtain ⟨k, -, hk⟩ := List.exists_of_findSome?_eq_some hfind
    exact ofDecimal_of_readsBack hu (readsBack_of_decimalOfLength? hk)

/-! ## The digits that are written -/

/-- Only zeros are cut off at the end. -/
theorem exists_zeros (ds : List Char) :
    ∃ z, ds = (ds.reverse.dropWhile (· == '0')).reverse ++ List.replicate z '0' := by
  have hzeros : ds.reverse.takeWhile (· == '0') =
      List.replicate (ds.reverse.takeWhile (· == '0')).length '0' :=
    List.eq_replicate_of_mem fun c hc =>
      beq_iff_eq.mp (List.mem_takeWhile_imp (p := (· == '0')) hc)
  refine ⟨(ds.reverse.takeWhile (· == '0')).length, ?_⟩
  conv_lhs => rw [← List.reverse_reverse ds,
    ← List.takeWhile_append_dropWhile (p := (· == '0')) (l := ds.reverse), List.reverse_append,
    hzeros, List.reverse_replicate]

/-- The digits of a number denote it. -/
theorem ofDecimal_shortestDigits (hu : Representable u) {ds : List Char} {lead : Int}
    (h : shortestDigits u = (ds, lead)) :
    ds ≠ [] ∧ (∀ c ∈ ds, isDecimalDigit c = true) ∧
      ofDecimal false (digitsValue ds) (lead + 1 - ds.length) = finite false u hu := by
  rcases Nat.eq_zero_or_pos u with rfl | hpos
  · cases h
    refine ⟨by simp, List.forall_mem_singleton.mpr rfl, ?_⟩
    rw [show digitsValue ['0'] = 0 from digitsValue_zeros 1, ofDecimal_zero,
      ofUnits_of_representable hu]
  have hshort := ofDecimal_shortestDecimal hu hpos
  unfold shortestDigits at h
  rw [if_neg (Nat.ne_of_gt hpos)] at h
  generalize shortestDecimal u = x at hshort h
  obtain ⟨n, e⟩ := x
  simp only [Prod.mk.injEq] at h hshort
  obtain ⟨rfl, rfl⟩ := h
  obtain ⟨z, hz⟩ := exists_zeros (Nat.toDigits 10 n)
  generalize ((Nat.toDigits 10 n).reverse.dropWhile (· == '0')).reverse = ds at hz ⊢
  have hn : n = digitsValue ds * 10 ^ z := by
    rw [← digitsValue_toDigits n, hz, digitsValue_append, digitsValue_zeros, List.length_replicate,
      Nat.add_zero]
  have hlength := congrArg List.length hz
  rw [List.length_append, List.length_replicate] at hlength
  refine ⟨?_, fun c hc => ?_, ?_⟩
  · rintro rfl
    rw [hn, digitsValue, List.foldl_nil, Nat.zero_mul, ofDecimal_zero,
      ofUnits_of_representable representable_zero] at hshort
    cases hshort
    exact Nat.lt_irrefl 0 hpos
  · refine isDecimalDigit_of_isDigit
      (Nat.isDigit_of_mem_toDigits (b := 10) (n := n) (by decide) (by decide) ?_)
    rw [hz]
    exact List.mem_append_left _ hc
  · rw [← hshort, hn, ofDecimal_mul_pow, ← hn]
    congr 1
    omega

end Binary64

/-! ## Layout -/

namespace NumeralLayout

open Text Number

/-- A text of digits, a point and digits that denotes what the digits `ds` denote, the first of which
has the weight `10 ^ lead`. -/
def Positional (ds : List Char) (lead : Int) (text : String) : Prop :=
  ∃ w f, text = .ofList (w ++ '.' :: f) ∧ w ≠ [] ∧ f ≠ [] ∧
    (∀ c ∈ w ++ f, isDecimalDigit c = true) ∧
    ∀ s, Binary64.ofDecimal s (digitsValue (w ++ f)) (-f.length) =
      Binary64.ofDecimal s (digitsValue ds) (lead + 1 - ds.length)

theorem layout_iff {lead : Int} :
    (number.leastPositional ≤ lead && lead < number.leastScientific) = true ↔
      -4 ≤ lead ∧ lead < 16 := by
  rw [Bool.and_eq_true, decide_eq_true_eq, decide_eq_true_eq]
  exact Iff.rfl

theorem isDecimalDigit_of_mem_zeros {z : Nat} {c : Char} (h : c ∈ List.replicate z '0') :
    isDecimalDigit c = true := by
  rw [List.eq_of_mem_replicate h]
  decide

section

variable {ds : List Char} {lead : Int} (hne : ds ≠ []) (hds : ∀ c ∈ ds, isDecimalDigit c = true)

include hne hds

/-- A number below one has zeros behind the point. -/
theorem positional_of_neg (h : lead < 0) :
    Positional ds lead
      ("0." ++ String.ofList (List.replicate (-lead - 1).toNat '0' ++ ds)) := by
  refine ⟨List.replicate 1 '0', List.replicate (-lead - 1).toNat '0' ++ ds, ?_, by simp,
    by simp [hne], fun c hc => ?_, fun s => ?_⟩
  · rw [show "0." = String.ofList ['0', '.'] from rfl, ← String.ofList_append]
    rfl
  · rcases List.mem_append.mp hc with hc | hc
    · exact isDecimalDigit_of_mem_zeros hc
    · exact (List.mem_append.mp hc).elim isDecimalDigit_of_mem_zeros (hds c)
  · rw [← List.append_assoc, List.replicate_append_replicate, digitsValue_append,
      digitsValue_zeros, Nat.zero_mul, Nat.zero_add, List.length_append, List.length_replicate]
    congr 1
    omega

/-- An integer has zeros behind its digits, one of them behind the point. -/
theorem positional_of_le {k : Nat} (h : ds.length ≤ k) :
    Positional ds ((k : Int) - 1)
      (String.ofList (ds ++ List.replicate (k - ds.length) '0') ++ ".0") := by
  refine ⟨ds ++ List.replicate (k - ds.length) '0', List.replicate 1 '0', ?_, by simp [hne],
    by simp, fun c hc => ?_, fun s => ?_⟩
  · rw [show ".0" = String.ofList ['.', '0'] from rfl, ← String.ofList_append]
    rfl
  · rcases List.mem_append.mp hc with hc | hc
    · exact (List.mem_append.mp hc).elim (hds c) isDecimalDigit_of_mem_zeros
    · exact isDecimalDigit_of_mem_zeros hc
  · rw [List.append_assoc, List.replicate_append_replicate, digitsValue_append, digitsValue_zeros,
      Nat.add_zero, List.length_replicate, List.length_replicate, Binary64.ofDecimal_mul_pow]
    congr 1
    omega

omit hne in
/-- A number with a fraction has a point between its digits. -/
theorem positional_of_lt {k : Nat} (hk : 0 < k) (h : k < ds.length) :
    Positional ds ((k : Int) - 1)
      (String.ofList (ds.take k) ++ ("." ++ String.ofList (ds.drop k))) := by
  refine ⟨ds.take k, ds.drop k, ?_, ?_, ?_, ?_, fun s => ?_⟩
  · rw [show "." = String.ofList ['.'] from rfl, ← String.ofList_append, ← String.ofList_append]
    rfl
  · rw [← List.length_pos_iff, List.length_take]
    omega
  · rw [← List.length_pos_iff, List.length_drop]
    omega
  · rw [List.take_append_drop]
    exact hds
  · rw [List.take_append_drop, List.length_drop]
    congr 1
    omega

/-- Neither very small nor very great numbers are written in positional notation. -/
theorem positional_write (hlow : -4 ≤ lead) (hhigh : lead < 16) :
    Positional ds lead (number.write ds lead) := by
  unfold write
  rw [if_pos (layout_iff.mpr ⟨hlow, hhigh⟩)]
  by_cases hneg : lead < 0
  · rw [if_pos hneg]
    exact positional_of_neg hne hds hneg
  · rw [if_neg hneg]
    dsimp only
    obtain ⟨k, rfl⟩ : ∃ k : Nat, lead = ((k + 1 : Nat) : Int) - 1 := ⟨lead.toNat, by omega⟩
    have hk : (((k + 1 : Nat) : Int) - 1).toNat + 1 = k + 1 := by omega
    rw [hk]
    rcases Nat.lt_or_ge (k + 1) ds.length with hlt | hle
    · rw [show k + 1 - ds.length = 0 by omega, List.replicate_zero, List.append_nil,
        if_neg (by simp [hlt])]
      exact positional_of_lt hds (Nat.succ_pos k) hlt
    · have hlength : (ds ++ List.replicate (k + 1 - ds.length) '0').length = k + 1 := by
        rw [List.length_append, List.length_replicate]
        omega
      rw [List.take_of_length_le (Nat.le_of_eq hlength),
        List.drop_of_length_le (Nat.le_of_eq hlength), List.isEmpty_nil, if_pos rfl]
      exact positional_of_le hne hds hle

end

/-! ## Reading what is written -/

/-- A numeral that denotes what the digits `ds` denote, the first of which has the weight
`10 ^ lead`. -/
def Denotes (ds : List Char) (lead : Int) (m : Numeral) : Prop :=
  ∀ s, m.toBinary64 s = Binary64.ofDecimal s (digitsValue ds) (lead + 1 - ds.length)

/-- A numeral is put together from its parts. -/
theorem scanNumeral?_of_parts {w f y z : List Char} {e : Int} (hw : w ≠ [])
    (hdw : ∀ c ∈ w, isDecimalDigit c = true) (hy : ∀ c ∈ y.head?, isDecimalDigit c = false)
    (hfraction : scanFraction y = (f, z)) (hexponent : scanExponent z = (e, [])) :
    scanNumeral? (w ++ y) = some (⟨w, f, e⟩, []) := by
  rw [scanNumeral?, scanDigits_append_of hdw hy]
  simp only [hfraction, hexponent]
  rw [if_neg (by simp [hw])]

/-- A fraction ends where the digits end. -/
theorem scanFraction_point {f z : List Char} (hf : ∀ c ∈ f, isDecimalDigit c = true)
    (hz : ∀ c ∈ z.head?, isDecimalDigit c = false) :
    scanFraction ('.' :: (f ++ z)) = (f, z) :=
  scanDigits_append_of hf hz

theorem not_isDecimalDigit_head {d : Char} {cs : List Char} (h : isDecimalDigit d = false) :
    ∀ c ∈ (d :: cs).head?, isDecimalDigit c = false := by
  rintro c ⟨⟩
  exact h

theorem scanNumeral?_of_positional {ds : List Char} {lead : Int} {text : String}
    (h : Positional ds lead text) :
    ∃ m, scanNumeral? text.toList = some (m, []) ∧ Denotes ds lead m := by
  obtain ⟨w, f, rfl, hw, -, hdigits, hvalue⟩ := h
  obtain ⟨hdw, hdf⟩ := List.forall_mem_append.mp hdigits
  refine ⟨⟨w, f, 0⟩, ?_, fun s => ?_⟩
  · have hfraction := scanFraction_point (z := []) hdf nofun
    rw [List.append_nil] at hfraction
    rw [String.toList_ofList]
    exact scanNumeral?_of_parts hw hdw (not_isDecimalDigit_head (by decide)) hfraction rfl
  · rw [← hvalue s, Numeral.toBinary64, Int.zero_sub]

/-- What is not in positional notation has an exponent. -/
theorem mem_write {ds : List Char} {lead : Int} (h : ¬ (-4 ≤ lead ∧ lead < 16)) :
    'e' ∈ (number.write ds lead).toList := by
  unfold write
  rw [if_neg fun hl => h (layout_iff.mp hl), String.toList_ofList]
  simp

end NumeralLayout

namespace Binary64

open Text

variable {u : Nat}

/-- Negation changes the sign of the decimal that is rounded. -/
theorem neg_ofDecimal (s : Bool) (n : Nat) (e : Int) :
    (ofDecimal s n e).neg = ofDecimal (!s) n e := by
  have hunits : ∀ v, (ofUnits s v).neg = ofUnits (!s) v := by
    intro v
    unfold ofUnits
    split <;> rfl
  unfold ofDecimal ofRatio
  dsimp only
  split_ifs
  · exact hunits _
  · rfl
  · exact hunits _
  · exact hunits _
  · exact hunits _

/-- The text of a finite number: a sign, and the digits that are found for it. -/
theorem toText_finite (s : Bool) (hu : Representable u) :
    ∃ ds lead, ds ≠ [] ∧ (∀ c ∈ ds, isDecimalDigit c = true) ∧
      (finite s u hu).toText =
        .ofList ((if s then ['-'] else []) ++ (NumeralLayout.number.write ds lead).toList) ∧
      ofDecimal s (digitsValue ds) (lead + 1 - ds.length) = finite s u hu := by
  obtain ⟨⟨ds, lead⟩, hdigits⟩ : ∃ p, shortestDigits u = p := ⟨_, rfl⟩
  obtain ⟨hne, hds, hvalue⟩ := ofDecimal_shortestDigits hu hdigits
  refine ⟨ds, lead, hne, hds, ?_, ?_⟩
  · rw [String.ofList_append, String.ofList_toList]
    simp only [toText, hdigits]
    cases s <;> rfl
  · cases s with
    | false => exact hvalue
    | true =>
      rw [← Bool.not_false, ← neg_ofDecimal, hvalue]
      rfl

end Binary64

/-- A numeral behind a minus sign denotes the negative of what it denotes. -/
theorem Number.Numeral.neg_toBinary64 (m : Number.Numeral) :
    -m.toBinary64 false = m.toBinary64 true :=
  Binary64.neg_ofDecimal false _ _

end LiveForm
