import LiveForm.Text.Blank
import LiveForm.Text.Letter
import Mathlib.Data.List.Induction
import Mathlib.Tactic.Common
import Mathlib.Tactic.Ring

/-!
# Digits and blanks

Where the decimal digits of all scripts lie, what a row of digits denotes, and that trimming leaves
a text without blanks as it is.
-/

namespace LiveForm.Text

/-! ## Decimal digits -/

/-- A decimal digit of any script is no ASCII letter, mark or underscore. -/
theorem toNat_of_isDecimalDigit {c : Char} (h : isDecimalDigit c = true) :
    (48 ≤ c.toNat ∧ c.toNat ≤ 57) ∨ 128 ≤ c.toNat := by
  have hall : ∀ z ∈ zeros, z = 48 ∨ 128 ≤ z := by decide
  simp only [isDecimalDigit, digitValue?, Option.isSome_map, List.find?_isSome,
    decide_eq_true_eq] at h
  obtain ⟨z, hz, h⟩ := h
  rcases hall z hz with rfl | hz <;> omega

theorem isDecimalDigit_of_isDigit {c : Char} (h : c.isDigit = true) :
    isDecimalDigit c = true := by
  have hall : ∀ n ∈ List.range' 48 10, isDecimalDigit (Char.ofNat n) = true := by
    decide +kernel
  simp only [Char.isDigit, Bool.and_eq_true, decide_eq_true_eq, ge_iff_le,
    UInt32.le_iff_toNat_le] at h
  rw [← Char.ofNat_toNat c]
  exact hall c.toNat (List.mem_range'_1.mpr ⟨h.1, Nat.lt_succ_of_le h.2⟩)

theorem digitValue?_of_isDigit {c : Char} (h : c.isDigit = true) :
    digitValue? c = some (c.toNat - 48) := by
  have hall : ∀ n ∈ List.range' 48 10, digitValue? (Char.ofNat n) = some (n - 48) := by
    decide +kernel
  simp only [Char.isDigit, Bool.and_eq_true, decide_eq_true_eq, ge_iff_le,
    UInt32.le_iff_toNat_le] at h
  have := hall c.toNat (List.mem_range'_1.mpr ⟨h.1, Nat.lt_succ_of_le h.2⟩)
  rwa [Char.ofNat_toNat] at this

/-! ## Rows of digits -/

theorem digitsValue_append (ds es : List Char) :
    digitsValue (ds ++ es) = digitsValue ds * 10 ^ es.length + digitsValue es := by
  have hfrom : ∀ n, es.foldl (fun n c => 10 * n + (digitValue? c).getD 0) n =
      n * 10 ^ es.length + digitsValue es := by
    unfold digitsValue
    induction es with
    | nil => simp
    | cons c es ih =>
      intro n
      rw [List.foldl_cons, ih, List.foldl_cons, ih (10 * 0 + _), List.length_cons, Nat.pow_succ]
      ring
  rw [digitsValue, List.foldl_append, hfrom]
  rfl

theorem digitsValue_zeros (z : Nat) : digitsValue (List.replicate z '0') = 0 := by
  induction z with
  | zero => rfl
  | succ z ih =>
    rw [List.replicate_succ, digitsValue, List.foldl_cons]
    exact ih

/-- The digits of a number denote it. -/
theorem digitsValue_toDigits (n : Nat) : digitsValue (Nat.toDigits 10 n) = n := by
  have hfold : ∀ ds : List Char, (∀ c ∈ ds, c.isDigit = true) → ∀ n,
      ds.foldl (fun n c => 10 * n + (digitValue? c).getD 0) n = Nat.ofDigitChars 10 ds n := by
    intro ds
    induction ds with
    | nil => exact fun _ _ => rfl
    | cons c ds ih =>
      intro h n
      rw [List.foldl_cons, ih fun x hx => h x (List.mem_cons_of_mem _ hx),
        digitValue?_of_isDigit (h c List.mem_cons_self)]
      rfl
  rw [digitsValue, hfold _ fun c hc => Nat.isDigit_of_mem_toDigits (by decide) (by decide) hc]
  exact Nat.ofDigitChars_toDigits (by decide) (by decide)

/-- A row of digits denotes less than the power of ten with as many zeros. -/
theorem digitsValue_lt (ds : List Char) : digitsValue ds < 10 ^ ds.length := by
  induction ds using List.reverseRecOn with
  | nil => decide
  | append_singleton ds c ih =>
    have hlast : digitsValue [c] < 10 := by
      unfold digitsValue
      cases hc : digitValue? c with
      | none => simp [hc]
      | some n => simpa [hc] using digitValue?_lt hc
    rw [digitsValue_append, List.length_append, List.length_singleton, Nat.pow_succ]
    omega

/-- The digits are not padded: they are a single zero or do not start with one. -/
def Unpadded (ds : List Char) : Prop := ds.head? = some '0' → ds = ['0']

instance (ds : List Char) : Decidable (Unpadded ds) :=
  inferInstanceAs (Decidable (_ → _))

/-- What starts with a digit other than zero is the decimal form of what it denotes. -/
theorem toDigits_digitsValue {ds : List Char} (hd : ∀ c ∈ ds, c.isDigit = true) (hne : ds ≠ [])
    (hz : ds.head? ≠ some '0') : Nat.toDigits 10 (digitsValue ds) = ds := by
  induction ds using List.reverseRecOn with
  | nil => exact absurd rfl hne
  | append_singleton ds c ih =>
    have hc : c.isDigit = true := hd c (by simp)
    have hrange : 48 ≤ c.toNat ∧ c.toNat ≤ 57 := by
      simpa [Char.isDigit, UInt32.le_iff_toNat_le] using hc
    have hvalue : digitsValue [c] = c.toNat - 48 := by simp [digitsValue, digitValue?_of_isDigit hc]
    have hlt : digitsValue [c] < 10 := by omega
    have hchar : Nat.toDigits 10 (digitsValue [c]) = [c] := by
      rw [Nat.toDigits_of_lt_base hlt, hvalue, List.cons.injEq, and_iff_left rfl]
      refine Char.toNat_inj.mp ?_
      rw [Nat.toNat_digitChar_of_lt_ten (by omega)]
      omega
    by_cases hds : ds = []
    · rw [hds, List.nil_append, hchar]
    · have hhead : ds.head? ≠ some '0' := by
        cases ds with
        | nil => exact absurd rfl hds
        | cons d ds => exact hz
      have hfront := ih (fun x hx => hd x (List.mem_append_left _ hx)) hds hhead
      have hpos : 0 < digitsValue ds := by
        rw [Nat.pos_iff_ne_zero]
        intro h0
        rw [h0, Nat.toDigits_zero] at hfront
        exact hhead (hfront ▸ rfl)
      rw [digitsValue_append, List.length_singleton, Nat.pow_one, Nat.mul_comm,
        ← Nat.toDigits_append_toDigits (by decide) hpos hlt, hfront, hchar]

/-- Digits are the decimal form of what they denote just if they are not padded. -/
theorem toDigits_digitsValue_iff {ds : List Char} (hd : ∀ c ∈ ds, c.isDigit = true)
    (hne : ds ≠ []) : Nat.toDigits 10 (digitsValue ds) = ds ↔ Unpadded ds := by
  constructor
  · intro h hz
    obtain ⟨ds, rfl⟩ : ∃ r, ds = '0' :: r := List.head?_eq_some_iff.mp hz
    by_cases hds : ds = []
    · rw [hds]
    · have hvalue : digitsValue ('0' :: ds) = digitsValue ds := rfl
      have hlength := (Nat.length_toDigits_le_iff (by decide) (List.length_pos_iff.mpr hds)).mpr
        (digitsValue_lt ds)
      rw [← hvalue, h, List.length_cons] at hlength
      omega
  · intro h
    by_cases hz : ds.head? = some '0'
    · rw [h hz]
      rfl
    · exact toDigits_digitsValue hd hne hz

/-! ## Integers in decimal -/

theorem eq_of_writeInteger {i : Int} {cs : List Char} (h : writeInteger i = .ok cs) :
    cs = integerChars i := by
  unfold writeInteger at h
  split at h
  · cases h
  · exact (Except.ok.inj h).symm

/-- What was read can be written. -/
theorem writeInteger_of_readDigits {ds : List Char} {n : Nat} (h : readDigits ds = .ok n) :
    writeInteger n = .ok (integerChars n) := by
  unfold readDigits at h
  split at h
  · cases h
  · next hlength =>
    cases h
    have hlt : digitsValue ds < 10 ^ maxDigits :=
      Nat.lt_of_lt_of_le (digitsValue_lt ds) (Nat.pow_le_pow_right (by decide) (by omega))
    exact if_neg (Nat.not_lt.mpr ((Nat.length_toDigits_le_iff (by decide) (by decide)).mpr hlt))

theorem exists_readDigits {ds : List Char} :
    (∃ n, readDigits ds = .ok n) ↔ ds.length ≤ maxDigits := by
  unfold readDigits
  split
  · exact ⟨nofun, fun h => by omega⟩
  · exact ⟨fun _ => by omega, fun _ => ⟨_, rfl⟩⟩

theorem eq_of_readDigits {ds : List Char} {n : Nat} (h : readDigits ds = .ok n) :
    n = digitsValue ds := by
  unfold readDigits at h
  split at h
  · cases h
  · exact (Except.ok.inj h).symm

/-! ## Blanks -/

/-- Nothing is dropped from a list that starts with something else. -/
theorem dropWhile_of_head {α : Type} {p : α → Bool} {cs : List α}
    (h : ∀ c ∈ cs.head?, p c = false) : cs.dropWhile p = cs := by
  cases cs with
  | nil => rfl
  | cons c cs => exact List.dropWhile_cons_of_neg (by simp [h c rfl])

/-- A text without blanks is as it is when it is trimmed. -/
theorem trimChars_of_forall {cs : List Char} (h : ∀ c ∈ cs, isBlank c = false) :
    trimChars cs = cs := by
  have hfirst : dropBlanks cs = cs :=
    dropWhile_of_head fun c hc => h c (List.mem_of_mem_head? hc)
  have hlast : dropBlanks cs.reverse = cs.reverse :=
    dropWhile_of_head fun c hc => h c (List.mem_reverse.mp (List.mem_of_mem_head? hc))
  rw [trimChars, hfirst, hlast, List.reverse_reverse]

end LiveForm.Text
