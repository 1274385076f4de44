import LiveForm.Number.Fixed
import LiveForm.Proofs.Text.Digit

/-!
# Digits that are written

A magnitude is written with a fixed number of places, and what stands before the point in groups of
three digits.  The digits before and behind the point denote the scaled magnitude
(`digitsValue_fixedDigits`), taking the marks away gives the digits back
(`filter_groupThousands`), and a mark that occurs once has three digits behind it
(`length_dropWhile_groupThousands`).
-/

namespace LiveForm

open Text

/-! ## Digits -/

/-- Nothing but the digits from 0 to 9. -/
def AllDigits (ds : List Char) : Prop := ∀ c ∈ ds, c.isDigit = true

theorem AllDigits.append {ds es : List Char} (hds : AllDigits ds) (hes : AllDigits es) :
    AllDigits (ds ++ es) :=
  List.forall_mem_append.mpr ⟨hds, hes⟩

theorem AllDigits.of_append {ds es : List Char} (h : AllDigits (ds ++ es)) :
    AllDigits ds ∧ AllDigits es :=
  List.forall_mem_append.mp h

theorem AllDigits.not_mem {ds : List Char} (h : AllDigits ds) {c : Char}
    (hc : c.isDigit = false) : c ∉ ds :=
  fun hmem => Bool.false_ne_true (hc ▸ h c hmem)

theorem AllDigits.isDecimalDigit {ds : List Char} (h : AllDigits ds) :
    ∀ c ∈ ds, isDecimalDigit c = true :=
  fun c hc => isDecimalDigit_of_isDigit (h c hc)

theorem allDigits_paddedDigits (n least : Nat) : AllDigits (paddedDigits n least) := by
  have hzeros : AllDigits (List.replicate (least - (Nat.toDigits 10 n).length) '0') := by
    intro c hc
    rw [List.eq_of_mem_replicate hc]
    rfl
  exact hzeros.append fun c hc => Nat.isDigit_of_mem_toDigits (by decide) (by decide) hc

theorem le_length_paddedDigits (n least : Nat) : least ≤ (paddedDigits n least).length := by
  simp only [paddedDigits, List.length_append, List.length_replicate]
  omega

theorem digitsValue_paddedDigits (n least : Nat) : digitsValue (paddedDigits n least) = n := by
  rw [paddedDigits, digitsValue_append, digitsValue_zeros, digitsValue_toDigits]
  simp

namespace Binary64

variable (units places : Nat)

theorem fixedDigits_append :
    (fixedDigits units places).1 ++ (fixedDigits units places).2 =
      paddedDigits (scaledMagnitude units places) (places + 1) :=
  List.take_append_drop _ _

/-- The digits before and behind the point denote the magnitude in steps of the last place. -/
theorem digitsValue_fixedDigits :
    digitsValue ((fixedDigits units places).1 ++ (fixedDigits units places).2) =
      scaledMagnitude units places := by
  rw [fixedDigits_append, digitsValue_paddedDigits]

theorem allDigits_fixedDigits :
    AllDigits (fixedDigits units places).1 ∧ AllDigits (fixedDigits units places).2 := by
  apply AllDigits.of_append
  rw [fixedDigits_append]
  exact allDigits_paddedDigits _ _

theorem length_fixedDigits : (fixedDigits units places).2.length = places := by
  have := le_length_paddedDigits (scaledMagnitude units places) (places + 1)
  simp only [fixedDigits, List.length_drop]
  omega

/-- There is a digit before the point. -/
theorem fixedDigits_ne_nil : (fixedDigits units places).1 ≠ [] := by
  have := le_length_paddedDigits (scaledMagnitude units places) (places + 1)
  simp only [fixedDigits, ne_eq, ← List.length_eq_zero_iff, List.length_take]
  omega

end Binary64

/-! ## Groups of three -/

section

variable {mark : Char} {ds : List Char}

theorem groupThousands_of_length_le (h : ds.length ≤ 3) : groupThousands mark ds = ds := by
  match ds, h with
  | [], _ => rfl
  | [_], _ => rfl
  | [_, _], _ => rfl
  | [_, _, _], _ => rfl

/-- The last three digits of more make a group. -/
theorem groupThousands_append (hne : ds ≠ []) (a b c : Char) :
    groupThousands mark (ds ++ [a, b, c]) = groupThousands mark ds ++ mark :: [a, b, c] := by
  have hgroup : groupThousands.go mark 3 ds.reverse = mark :: groupThousands.go mark 0 ds.reverse := by
    cases h : ds.reverse with
    | nil => exact absurd (List.reverse_eq_nil_iff.mp h) hne
    | cons d r => rfl
  have hgo : groupThousands.go mark 0 (ds ++ [a, b, c]).reverse =
      c :: b :: a :: groupThousands.go mark 3 ds.reverse := by
    rw [List.reverse_append]
    rfl
  rw [groupThousands, hgo, hgroup, groupThousands]
  simp

/-- More than three digits end in a group. -/
theorem exists_group (h : 3 < ds.length) : ∃ front a b c, ds = front ++ [a, b, c] ∧ front ≠ [] := by
  have hlast : (ds.drop (ds.length - 3)).length = 3 := by
    rw [List.length_drop]
    omega
  obtain ⟨a, b, c, habc⟩ : ∃ a b c, ds.drop (ds.length - 3) = [a, b, c] :=
    match ds.drop (ds.length - 3), hlast with
    | [a, b, c], _ => ⟨a, b, c, rfl⟩
  refine ⟨ds.take (ds.length - 3), a, b, c, ?_, ?_⟩
  · rw [← habc, List.take_append_drop]
  · simp only [ne_eq, ← List.length_eq_zero_iff, List.length_take]
    omega

/-- Without the marks there are the digits. -/
theorem filter_groupThousands (h : mark ∉ ds) : (groupThousands mark ds).filter (· != mark) = ds := by
  have hgo : ∀ k r, mark ∉ r → (groupThousands.go mark k r).filter (· != mark) = r := by
    intro k r
    induction r generalizing k with
    | nil => exact fun _ => rfl
    | cons d r ih =>
      intro hr
      obtain ⟨hd, hr⟩ := not_or.mp (mt List.mem_cons.mpr hr)
      have hkept : (d != mark) = true := by simpa using Ne.symm hd
      rw [groupThousands.go]
      split
      · simp [hkept, ih 1 hr]
      · simp [hkept, ih (k + 1) hr]
  rw [groupThousands, List.filter_reverse, hgo _ _ (by simpa using h), List.reverse_reverse]

/-- There are only digits and marks. -/
theorem mem_groupThousands {c : Char} (h : mark ∉ ds) (hc : c ∈ groupThousands mark ds) :
    c = mark ∨ c ∈ ds := by
  by_cases hmark : c = mark
  · exact Or.inl hmark
  · right
    rw [← filter_groupThousands h]
    exact List.mem_filter.mpr ⟨hc, by simpa using hmark⟩

/-- The first digit comes first. -/
theorem head?_groupThousands : (groupThousands mark ds).head? = ds.head? := by
  have hgo : ∀ k r, (groupThousands.go mark k r).getLast? = r.getLast? := by
    intro k r
    induction r generalizing k with
    | nil => rfl
    | cons d r ih =>
      rw [groupThousands.go]
      split
      · simp [List.getLast?_cons, ih 1]
      · simp [List.getLast?_cons, ih (k + 1)]
  rw [groupThousands, List.head?_reverse, hgo, List.getLast?_reverse]

/-- The last digit comes last. -/
theorem getLast?_groupThousands : (groupThousands mark ds).getLast? = ds.getLast? := by
  by_cases h : ds.length ≤ 3
  · rw [groupThousands_of_length_le h]
  · obtain ⟨front, a, b, c, rfl, hne⟩ := exists_group (Nat.lt_of_not_le h)
    rw [groupThousands_append hne]
    simp

/-- A mark that occurs once has three digits behind it. -/
theorem length_dropWhile_groupThousands (h : mark ∈ groupThousands mark ds) (hds : mark ∉ ds) :
    1 < (groupThousands mark ds).count mark ∨
      ((groupThousands mark ds).dropWhile (· != mark)).length = 4 := by
  have hlong : 3 < ds.length := by
    by_contra hshort
    rw [groupThousands_of_length_le (Nat.le_of_not_lt hshort)] at h
    exact hds h
  obtain ⟨front, a, b, c, rfl, hne⟩ := exists_group hlong
  rw [groupThousands_append hne]
  by_cases hfront : mark ∈ groupThousands mark front
  · left
    have := List.one_le_count_iff.mpr hfront
    rw [List.count_append, List.count_cons_self]
    omega
  · right
    have hnone : ∀ x ∈ groupThousands mark front, (x != mark) = true := by
      intro x hx
      rw [bne_iff_ne]
      exact fun hxm => hfront (hxm ▸ hx)
    rw [List.dropWhile_append_of_pos hnone, List.dropWhile_cons_of_neg (by simp)]
    rfl

end

end LiveForm
