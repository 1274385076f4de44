import LiveForm.Expr.Eval
import LiveForm.Name
import LiveForm.Proofs.Sequence
import LiveForm.Proofs.Text.Digit
import Mathlib.Data.List.Basic
import Mathlib.Data.List.Infix
import Mathlib.Data.List.TakeWhile

/-!
# The rows that a wildcard stands for

A wildcard has an instance for each row, and it covers the variables that have digits in its place.
Each instance is covered (`matchesVariable_rowVariable`).  A field in a row is an instance if its
subscript is written as the index is, that is without zeros in front; a padded subscript is covered
all the same, but no instance has it.
-/

namespace LiveForm

open Text

namespace Name

/-! ## Instances of wildcards -/

theorem fill_append (p q text : List Char) : fill (p ++ q) text = fill p text ++ fill q text :=
  List.flatMap_append

theorem fill_of_not_mem {p : List Char} (h : '?' ∉ p) (text : List Char) : fill p text = p := by
  induction p with
  | nil => rfl
  | cons c p ih =>
    rw [List.mem_cons, not_or] at h
    obtain ⟨hc, hp⟩ := h
    have hne : (c == '?') = false := by simpa using Ne.symm hc
    rw [fill, List.flatMap_cons, hne]
    exact congrArg (c :: ·) (ih hp)

/-- Where there is one wildcard the text stands between what is in front of it and behind it. -/
theorem exists_fill_eq {p : List Char} (h : p.count '?' = 1) :
    ∃ front back, ∀ text, fill p text = front ++ text ++ back := by
  obtain ⟨front, back, rfl⟩ := List.append_of_mem (List.count_pos_iff.mp (h ▸ Nat.one_pos))
  rw [List.count_append, List.count_cons_self] at h
  have hfront : '?' ∉ front := List.count_eq_zero.mp (by omega)
  have hback : '?' ∉ back := List.count_eq_zero.mp (by omega)
  refine ⟨front, back, fun text => ?_⟩
  rw [fill_append, fill_of_not_mem hfront, fill, List.flatMap_cons, beq_self_eq_true, if_pos rfl,
    List.append_assoc]
  exact congrArg (fun r => front ++ (text ++ r)) (fill_of_not_mem hback text)

/-- Digits are a run in front of what is behind them. -/
theorem coversRun_append {rest : List Char → Bool} {cs digits : List Char}
    (hd : ∀ c ∈ digits, isDecimalDigit c = true) (hne : digits ≠ []) (h : rest cs = true) :
    coversRun rest (digits ++ cs) = true := by
  induction digits with
  | nil => exact absurd rfl hne
  | cons d digits ih =>
    rw [List.cons_append, coversRun, hd d List.mem_cons_self, Bool.true_and]
    by_cases hrest : digits = []
    · rw [hrest, List.nil_append, h, Bool.true_or]
    · rw [ih (fun c hc => hd c (List.mem_cons_of_mem _ hc)) hrest, Bool.or_true]

/-- A pattern covers what has digits in the place of its wildcards. -/
theorem covers_fill {digits : List Char} (hd : ∀ c ∈ digits, isDecimalDigit c = true)
    (hne : digits ≠ []) (p : List Char) : covers p (fill p digits) = true := by
  induction p with
  | nil => rfl
  | cons c p ih =>
    rw [fill, List.flatMap_cons]
    by_cases hc : c = '?'
    · rw [hc, beq_self_eq_true, if_pos rfl, covers]
      exact coversRun_append hd hne ih
    · rw [if_neg (by simpa using hc), List.singleton_append, covers]
      · rw [beq_self_eq_true, Bool.true_and]
        exact ih
      · simpa using hc

/-- The pattern with all digits of a row index in the place of each wildcard. -/
def instantiate (pattern : List Char) (index : Int) : List Char := fill pattern (integerChars index)

theorem integerChars_of_nonneg {i : Int} (h : 0 ≤ i) :
    (∀ c ∈ integerChars i, isDecimalDigit c = true) ∧ integerChars i ≠ [] := by
  rw [integerChars, if_neg (by omega), List.nil_append]
  exact ⟨fun c hc =>
      isDecimalDigit_of_isDigit (Nat.isDigit_of_mem_toDigits (by omega) (by omega) hc),
    Nat.toDigits_ne_nil⟩

end Name

theorem matchesVariable_self (n : String) : matchesVariable n n = true := by
  rw [matchesVariable, beq_self_eq_true, Bool.true_or]

/-- A name covers what has digits in the place of its wildcards. -/
theorem matchesVariable_fill {digits : List Char} (hd : ∀ c ∈ digits, isDecimalDigit c = true)
    (hne : digits ≠ []) (n : String) :
    matchesVariable n (.ofList (Name.fill n.toList digits)) = true := by
  cases hw : isWildcard n with
  | true =>
    rw [matchesVariable, hw, String.toList_ofList, Name.covers_fill hd hne, Bool.and_true,
      Bool.or_true]
  | false =>
    have hnone : '?' ∉ n.toList := by simpa [isWildcard] using hw
    rw [Name.fill_of_not_mem hnone, String.ofList_toList, matchesVariable_self]

/-- The variable of a row has the index in the place of each wildcard. -/
theorem rowVariable_eq_ok {n v : String} {i : Int} :
    rowVariable n i = .ok v ↔ writeInteger i = .ok (integerChars i) ∧
      v = .ofList (Name.instantiate n.toList i) := by
  unfold rowVariable
  cases hi : writeInteger i with
  | error e => exact ⟨nofun, fun h => nomatch h.1⟩
  | ok cs =>
    rw [eq_of_writeInteger hi]
    exact ⟨fun h => ⟨rfl, (Except.ok.inj h).symm⟩, fun h => congrArg Except.ok h.2.symm⟩

/-- A name that is no wildcard stands for itself in every row. -/
theorem eq_of_rowVariable {n v : String} {i : Int} (hn : isWildcard n = false)
    (h : rowVariable n i = .ok v) : v = n := by
  have hnone : '?' ∉ n.toList := by simpa [isWildcard] using hn
  rw [(rowVariable_eq_ok.mp h).2, Name.instantiate, Name.fill_of_not_mem hnone,
    String.ofList_toList]

/-- A name covers what it stands for in a row. -/
theorem matchesVariable_rowVariable {n v : String} {i : Int} (hi : 0 ≤ i)
    (h : rowVariable n i = .ok v) : matchesVariable n v = true := by
  obtain ⟨hd, hne⟩ := Name.integerChars_of_nonneg hi
  rw [(rowVariable_eq_ok.mp h).2]
  exact matchesVariable_fill hd hne n

/-! ## Subscripts -/

namespace Name

/-- Decimal digits stand somewhere in brackets. -/
def HasSubscript (cs digits : List Char) : Prop :=
  digits ≠ [] ∧ (∀ c ∈ digits, isDecimalDigit c = true) ∧ '[' :: (digits ++ [']']) <:+: cs

/-- Digits up to a bracket are those in front of what is no digit. -/
theorem isPrefix_iff {digits r : List Char} (hd : ∀ c ∈ digits, isDecimalDigit c = true) :
    digits ++ [']'] <+: r ↔
      digits = r.takeWhile isDecimalDigit ∧ ∃ rest, r.dropWhile isDecimalDigit = ']' :: rest := by
  have hbracket : isDecimalDigit ']' = false := by decide
  constructor
  · rintro ⟨rest, rfl⟩
    rw [List.append_assoc, List.takeWhile_append_of_pos hd, List.dropWhile_append_of_pos hd]
    simp [hbracket]
  · rintro ⟨rfl, rest, hrest⟩
    refine ⟨rest, ?_⟩
    rw [List.append_assoc, List.singleton_append, ← hrest, List.takeWhile_append_dropWhile]

/-- A subscript stands in front or further on. -/
theorem hasSubscript_cons {c : Char} {r digits : List Char} :
    HasSubscript (c :: r) digits ↔ HasSubscript r digits ∨
      c = '[' ∧ digits ≠ [] ∧ digits = r.takeWhile isDecimalDigit ∧
        ∃ rest, r.dropWhile isDecimalDigit = ']' :: rest := by
  unfold HasSubscript
  rw [List.infix_cons_iff, List.cons_prefix_cons]
  constructor
  · rintro ⟨hne, hd, ⟨hc, hhead⟩ | hlater⟩
    · exact Or.inr ⟨hc.symm, hne, (isPrefix_iff hd).mp hhead⟩
    · exact Or.inl ⟨hne, hd, hlater⟩
  · rintro (⟨hne, hd, hlater⟩ | ⟨rfl, hne, htake, hdrop⟩)
    · exact ⟨hne, hd, Or.inr hlater⟩
    · have hd : ∀ c ∈ digits, isDecimalDigit c = true := by
        rw [htake]
        exact fun c hc => List.mem_takeWhile_imp hc
      exact ⟨hne, hd, Or.inl ⟨rfl, (isPrefix_iff hd).mpr ⟨htake, hdrop⟩⟩⟩

/-- The integer subscripts of a name are the digits in its brackets. -/
theorem mem_rowSubscripts {cs digits : List Char} :
    digits ∈ rowSubscripts cs ↔ HasSubscript cs digits := by
  induction cs with
  | nil => simp [rowSubscripts, HasSubscript]
  | cons c r ih =>
    rw [hasSubscript_cons, ← ih, rowSubscripts]
    by_cases hc : c = '['
    · rw [if_pos (beq_iff_eq.mpr hc)]
      dsimp only
      split
      · next rest hrest =>
        split
        · next hempty =>
          rw [List.isEmpty_iff] at hempty
          rw [hempty]
          exact ⟨Or.inl, fun h => h.resolve_right fun ⟨_, hne, heq, _⟩ => hne heq⟩
        · next hne =>
          rw [List.isEmpty_iff] at hne
          rw [List.mem_cons, or_comm]
          refine or_congr_right ⟨?_, fun h => h.2.2.1⟩
          rintro rfl
          exact ⟨hc, hne, rfl, rest, hrest⟩
      · next hrest =>
        rw [or_iff_left]
        rintro ⟨-, -, -, rest, hdrop⟩
        exact hrest rest hdrop
    · rw [if_neg (by simpa using hc)]
      simp [hc]

/-! ## Indices -/

theorem mem_insertSorted {n m : Int} {ns : List Int} :
    m ∈ insertSorted n ns ↔ m = n ∨ m ∈ ns := by
  induction ns with
  | nil => simp [insertSorted]
  | cons k ns ih =>
    rw [insertSorted]
    split
    · simp
    · split
      · next heq => simp [heq]
      · rw [List.mem_cons, ih, List.mem_cons, or_left_comm]

theorem mem_sortDistinct {m : Int} {ns : List Int} : m ∈ sortDistinct ns ↔ m ∈ ns := by
  suffices h : ∀ acc : List Int,
      m ∈ ns.foldl (fun acc n => insertSorted n acc) acc ↔ m ∈ acc ∨ m ∈ ns by
    rw [sortDistinct, h, or_iff_right List.not_mem_nil]
  induction ns with
  | nil => simp
  | cons n ns ih =>
    intro acc
    rw [List.foldl_cons, ih, mem_insertSorted, List.mem_cons, or_assoc, or_left_comm]

theorem pairwise_insertSorted {n : Int} {ns : List Int} (h : ns.Pairwise (· < ·)) :
    (insertSorted n ns).Pairwise (· < ·) := by
  induction ns with
  | nil => exact List.pairwise_singleton _ n
  | cons k ns ih =>
    rw [insertSorted]
    split
    · next hlt =>
      refine List.pairwise_cons.mpr ⟨fun m hm => ?_, h⟩
      rcases List.mem_cons.mp hm with rfl | hm
      · exact hlt
      · exact Int.lt_trans hlt (List.rel_of_pairwise_cons h hm)
    · split
      · exact h
      · refine List.pairwise_cons.mpr ⟨fun m hm => ?_, ih h.of_cons⟩
        rcases mem_insertSorted.mp hm with rfl | hm
        · omega
        · exact List.rel_of_pairwise_cons h hm

theorem pairwise_sortDistinct (ns : List Int) : (sortDistinct ns).Pairwise (· < ·) :=
  List.foldlRecOn ns _ List.Pairwise.nil fun _ h _ _ => pairwise_insertSorted h

end Name

section

variable {fields : List String} {rows : List Int}

/-- The subscripts of all the names can be read just if none of them has too many digits. -/
theorem exists_rowIndices : (∃ rows, rowIndices fields = .ok rows) ↔
    ∀ f ∈ fields, ∀ digits, Name.HasSubscript f.toList digits → digits.length ≤ maxDigits := by
  have hmapM : (∃ rows, rowIndices fields = .ok rows) ↔
      ∃ ns, (fields.flatMap fun f => Name.rowSubscripts f.toList).mapM readDigits = .ok ns := by
    unfold rowIndices
    cases (fields.flatMap fun f => Name.rowSubscripts f.toList).mapM readDigits with
    | error e => exact ⟨nofun, nofun⟩
    | ok ns => exact ⟨fun _ => ⟨_, rfl⟩, fun _ => ⟨_, rfl⟩⟩
  rw [hmapM]
  constructor
  · rintro ⟨ns, hns⟩ f hf digits hs
    obtain ⟨n, -, hread⟩ := exists_of_mapM_eq_ok hns digits
      (List.mem_flatMap.mpr ⟨f, hf, Name.mem_rowSubscripts.mpr hs⟩)
    exact exists_readDigits.mp ⟨n, hread⟩
  · intro h
    refine exists_mapM_eq_ok fun digits hdigits => ?_
    obtain ⟨f, hf, hs⟩ := List.mem_flatMap.mp hdigits
    exact exists_readDigits.mpr (h f hf digits (Name.mem_rowSubscripts.mp hs))

theorem rowIndices_eq_error {f : String} {digits : List Char} (hf : f ∈ fields)
    (hs : Name.HasSubscript f.toList digits) (hlong : maxDigits < digits.length) :
    rowIndices fields = .error .tooMany := by
  cases hr : rowIndices fields with
  | error e => rfl
  | ok rows =>
    have hle := exists_rowIndices.mp ⟨rows, hr⟩ f hf digits hs
    omega

/-- The indices come of digits that stand in brackets in one of the names. -/
theorem exists_digits_of_rowIndices (h : rowIndices fields = .ok rows) {i : Int} (hi : i ∈ rows) :
    ∃ f ∈ fields, ∃ digits, Name.HasSubscript f.toList digits ∧
      readDigits digits = .ok i.natAbs ∧ i = digitsValue digits := by
  unfold rowIndices at h
  cases hns : (fields.flatMap fun f => Name.rowSubscripts f.toList).mapM readDigits with
  | error e =>
    rw [hns] at h
    cases h
  | ok ns =>
    rw [hns] at h
    cases h
    obtain ⟨n, hn, rfl⟩ := List.mem_map.mp (Name.mem_sortDistinct.mp hi)
    obtain ⟨digits, hdigits, hread⟩ := exists_of_mem_of_mapM_eq_ok hns n hn
    obtain ⟨f, hf, hs⟩ := List.mem_flatMap.mp hdigits
    refine ⟨f, hf, digits, Name.mem_rowSubscripts.mp hs, hread, ?_⟩
    rw [eq_of_readDigits hread]
    rfl

/-- The indices are the integer subscripts that the names have. -/
theorem mem_rowIndices (h : rowIndices fields = .ok rows) {i : Int} :
    i ∈ rows ↔
      ∃ f ∈ fields, ∃ digits, Name.HasSubscript f.toList digits ∧ i = digitsValue digits := by
  constructor
  · intro hi
    obtain ⟨f, hf, digits, hs, -, heq⟩ := exists_digits_of_rowIndices h hi
    exact ⟨f, hf, digits, hs, heq⟩
  · rintro ⟨f, hf, digits, hs, rfl⟩
    unfold rowIndices at h
    cases hns : (fields.flatMap fun f => Name.rowSubscripts f.toList).mapM readDigits with
    | error e =>
      rw [hns] at h
      cases h
    | ok ns =>
      rw [hns] at h
      cases h
      obtain ⟨n, hn, hread⟩ := exists_of_mapM_eq_ok hns digits
        (List.mem_flatMap.mpr ⟨f, hf, Name.mem_rowSubscripts.mpr hs⟩)
      rw [Name.mem_sortDistinct, ← eq_of_readDigits hread]
      exact List.mem_map_of_mem hn

/-- The indices of rows are not negative. -/
theorem rowIndices_nonneg (h : rowIndices fields = .ok rows) : ∀ i ∈ rows, 0 ≤ i := by
  intro i hi
  obtain ⟨f, -, digits, -, -, rfl⟩ := exists_digits_of_rowIndices h hi
  exact Int.natCast_nonneg _

/-- An index that was read can be written, so that it has an instance of each wildcard. -/
theorem rowVariable_of_rowIndices (h : rowIndices fields = .ok rows) {i : Int} (hi : i ∈ rows)
    (pattern : String) :
    rowVariable pattern i = .ok (.ofList (Name.instantiate pattern.toList i)) := by
  obtain ⟨f, -, digits, -, hread, rfl⟩ := exists_digits_of_rowIndices h hi
  exact rowVariable_eq_ok.mpr ⟨writeInteger_of_readDigits hread, rfl⟩

/-- The indices stand in ascending order, each once. -/
theorem pairwise_rowIndices (h : rowIndices fields = .ok rows) : rows.Pairwise (· < ·) := by
  unfold rowIndices at h
  cases hns : (fields.flatMap fun f => Name.rowSubscripts f.toList).mapM readDigits with
  | error e =>
    rw [hns] at h
    cases h
  | ok ns =>
    rw [hns] at h
    cases h
    exact Name.pairwise_sortDistinct _

theorem mergeSort_rowIndices (h : rowIndices fields = .ok rows) :
    rows.mergeSort (fun i j => decide (i ≤ j)) = rows :=
  List.mergeSort_of_pairwise ((pairwise_rowIndices h).imp fun h => decide_eq_true (Int.le_of_lt h))

/-- It does not matter in which order the names stand. -/
theorem rowIndices_of_perm {fields' : List String} (hp : fields'.Perm fields)
    (h : rowIndices fields = .ok rows) : rowIndices fields' = .ok rows := by
  obtain ⟨rows', h'⟩ := exists_rowIndices.mpr fun f hf =>
    exists_rowIndices.mp ⟨rows, h⟩ f (hp.mem_iff.mp hf)
  have hmem : ∀ i, i ∈ rows' ↔ i ∈ rows := fun i => by
    rw [mem_rowIndices h', mem_rowIndices h]
    simp only [hp.mem_iff]
  have hascending := pairwise_rowIndices h
  have hascending' := pairwise_rowIndices h'
  have hperm : rows'.Perm rows :=
    (List.perm_ext_iff_of_nodup (hascending'.imp Int.ne_of_lt) (hascending.imp Int.ne_of_lt)).mpr
      hmem
  have hsame : rows' = rows := hperm.eq_of_pairwise
    (fun i j _ _ hij hji => absurd hij (Int.not_lt.mpr (Int.le_of_lt hji))) hascending' hascending
  rw [h', hsame]

/-- Every wildcard can be expanded over the rows. -/
theorem expandWildcard_rowIndices (h : rowIndices fields = .ok rows) (pattern : String) :
    expandWildcard pattern rows =
      .ok (rows.map fun i => .ofList (Name.instantiate pattern.toList i)) := by
  rw [expandWildcard, mergeSort_rowIndices h]
  exact mapM_eq_ok fun i hi => rowVariable_of_rowIndices h hi pattern

end

/-! ## Fields in rows -/

/-- A variable name is written in letters, digits and underscores of ASCII. -/
theorem isVariableChar_of_mem_variableName {field : String} {c : Char}
    (h : c ∈ (variableName field).toList) : Name.isVariableChar c = true := by
  rw [variableName, String.toList_ofList, Name.flattenChars] at h
  obtain ⟨d, -, rfl⟩ := List.mem_map.mp h
  split
  · assumption
  · rfl

/-- A decimal digit that may stand in a variable name is one of ASCII. -/
theorem isDigit_of_isVariableChar {c : Char} (hv : Name.isVariableChar c = true)
    (hd : isDecimalDigit c = true) : c.isDigit = true := by
  have hv : (((decide (c.val ≥ 65 ∧ c.val ≤ 90) || (decide (c.val ≥ 97) && decide (c.val ≤ 122))) ||
    c.isDigit) || c == '_') = true := hv
  simp only [Bool.or_eq_true, Bool.and_eq_true, decide_eq_true_eq, beq_iff_eq, ge_iff_le,
    UInt32.le_iff_toNat_le] at hv
  -- The other characters are above the ASCII digits and below all further ones
  have hrange : (48 ≤ c.toNat ∧ c.toNat ≤ 57) ∨ 128 ≤ c.toNat := toNat_of_isDecimalDigit hd
  rcases hv with ((⟨hlow, hhigh⟩ | ⟨hlow, hhigh⟩) | hdigit) | rfl
  · have hlow : 65 ≤ c.toNat := hlow
    have hhigh : c.toNat ≤ 90 := hhigh
    omega
  · have hlow : 97 ≤ c.toNat := hlow
    have hhigh : c.toNat ≤ 122 := hhigh
    omega
  · exact hdigit
  · cases hd

/-- A field in a row is an instance of a wildcard if its subscript is not padded. -/
theorem mem_expandWildcard_iff {fields names : List String} {rows : List Int}
    {pattern field : String} {digits : List Char} (hrows : rowIndices fields = .ok rows)
    (hnames : expandWildcard pattern rows = .ok names) (hone : pattern.toList.count '?' = 1)
    (hfield : field ∈ fields) (hs : Name.HasSubscript field.toList digits)
    (hfill : (variableName field).toList = Name.fill pattern.toList digits) :
    variableName field ∈ names ↔ Unpadded digits := by
  have ⟨hne, hdecimal, _⟩ := hs
  obtain ⟨front, back, hfills⟩ := Name.exists_fill_eq hone
  have hdigits : ∀ c ∈ digits, c.isDigit = true := by
    intro c hc
    have hmem : c ∈ (variableName field).toList := by
      rw [hfill, hfills]
      exact List.mem_append_left _ (List.mem_append_right _ hc)
    exact isDigit_of_isVariableChar (isVariableChar_of_mem_variableName hmem) (hdecimal c hc)
  -- The text of one place only can be that of the field
  have hinstance : ∀ n : Nat,
      variableName field = .ofList (Name.instantiate pattern.toList n) ↔
        Nat.toDigits 10 n = digits := by
    intro n
    have hindex : integerChars n = Nat.toDigits 10 n := by simp [integerChars]
    rw [← String.toList_inj, String.toList_ofList, hfill, Name.instantiate, hindex, hfills, hfills,
      List.append_cancel_right_eq, List.append_cancel_left_eq, eq_comm]
  rw [expandWildcard_rowIndices hrows] at hnames
  cases hnames
  rw [List.mem_map, ← toDigits_digitsValue_iff hdigits hne]
  constructor
  · rintro ⟨i, hi, heq⟩
    obtain ⟨f, -, ds, -, rfl⟩ := (mem_rowIndices hrows).mp hi
    have hform := (hinstance _).mp heq.symm
    rw [← hform, digitsValue_toDigits]
  · intro hform
    exact ⟨_, (mem_rowIndices hrows).mpr ⟨field, hfield, digits, hs, rfl⟩,
      ((hinstance _).mpr hform).symm⟩

/-- Where all indices can be written, a wildcard stands for the rows in which its instance holds
something. -/
theorem rowValues_eq_ok {ctx : Expr.Context} {pattern : String}
    (h : ∀ i ∈ ctx.rows, writeInteger i = .ok (integerChars i)) :
    ctx.rowValues pattern =
      .ok ((ctx.rows.map fun i =>
        (i, ctx.lookup (.ofList (Name.instantiate pattern.toList i)))).filter
          fun p => p.2 != .absent) := by
  have hnames : ctx.rows.mapM (rowVariable pattern) =
      .ok (ctx.rows.map fun i => .ofList (Name.instantiate pattern.toList i)) :=
    mapM_eq_ok fun i hi => rowVariable_eq_ok.mpr ⟨h i hi, rfl⟩
  have hzip : ∀ is : List Int,
      (is.zip (is.map fun i => String.ofList (Name.instantiate pattern.toList i))).map
          (fun p => (p.1, ctx.lookup p.2)) =
        is.map fun i => (i, ctx.lookup (.ofList (Name.instantiate pattern.toList i))) := by
    intro is
    induction is with
    | nil => rfl
    | cons i is ih => rw [List.map_cons, List.zip_cons_cons, List.map_cons, ih, List.map_cons]
  unfold Expr.Context.rowValues
  rw [hnames]
  dsimp only
  rw [hzip]

/-- What a wildcard stands for, it covers, and an aggregate over it takes in just the values of
this.  A pattern with one wildcard that has the digits of one of a field's subscripts in its place
covers the field; it stands for the field just if these digits are not padded with zeros. -/
theorem expandWildcard_agrees {fields : List String} {rows : List Int}
    (indices : rowIndices fields = .ok rows) (pattern : String) :
    ∃ names, expandWildcard pattern rows = .ok names ∧
    (∀ v ∈ names, matchesVariable pattern v = true) ∧
    (∀ ctx : Expr.Context, ctx.rows = rows → ∃ vs, ctx.rowValues pattern = .ok vs ∧
      vs.map (·.2) = (names.map ctx.lookup).filter (· != .absent)) ∧
    (pattern.toList.count '?' = 1 → ∀ field ∈ fields, ∀ digits,
      Name.HasSubscript field.toList digits →
      (variableName field).toList = Name.fill pattern.toList digits →
      matchesVariable pattern (variableName field) = true ∧
      (variableName field ∈ names ↔ Unpadded digits)) := by
  have hnames := expandWildcard_rowIndices indices pattern
  refine ⟨_, hnames, fun v hv => ?_, ?_, fun hone field hfield digits hs hfill =>
    ⟨?_, mem_expandWildcard_iff indices hnames hone hfield hs hfill⟩⟩
  · obtain ⟨i, hi, rfl⟩ := List.mem_map.mp hv
    exact matchesVariable_rowVariable (rowIndices_nonneg indices i hi)
      (rowVariable_of_rowIndices indices hi pattern)
  · rintro ctx rfl
    refine ⟨_, rowValues_eq_ok fun i hi => ?_, ?_⟩
    · exact (rowVariable_eq_ok.mp (rowVariable_of_rowIndices indices hi pattern)).1
    · rw [List.filter_map, List.filter_map, List.filter_map, List.map_map, List.map_map]
      rfl
  · rw [← String.ofList_toList (s := variableName field), hfill]
    exact matchesVariable_fill hs.2.1 hs.1 pattern

/-- An index of two digits, and a row in front of it. -/
theorem expandWildcard_agrees_two_rows :
    rowIndices ["rows[10][amount]", "rows[0][amount]"] = .ok [0, 10] ∧
    ∃ names, expandWildcard "rows_?_amount" [0, 10] = .ok names ∧
      Name.HasSubscript "rows[10][amount]".toList "10".toList ∧
      matchesVariable "rows_?_amount" (variableName "rows[10][amount]") = true ∧
      variableName "rows[10][amount]" ∈ names := by
  have hrows : rowIndices ["rows[10][amount]", "rows[0][amount]"] = .ok [0, 10] := by
    decide +kernel
  have hs : Name.HasSubscript "rows[10][amount]".toList "10".toList :=
    ⟨by decide, List.all_eq_true.mp (by decide), ⟨"rows".toList, "[amount]".toList, by decide⟩⟩
  obtain ⟨names, hnames, -, -, hfields⟩ := expandWildcard_agrees hrows "rows_?_amount"
  obtain ⟨hcovered, hmem⟩ :=
    hfields (by decide) "rows[10][amount]" (by decide) "10".toList hs (by decide +kernel)
  exact ⟨hrows, names, hnames, hs, hcovered, hmem.mpr (by decide)⟩

/-- A zero in front of the index: an edit of the field concerns the pattern, and no aggregate over
it takes the field in. -/
theorem expandWildcard_omits_padded :
    Name.HasSubscript "rows[01][amount]".toList "01".toList ∧
    (variableName "rows[01][amount]").toList = Name.fill "rows_?_amount".toList "01".toList ∧
    matchesVariable "rows_?_amount" (variableName "rows[01][amount]") = true ∧
    rowIndices ["rows[01][amount]"] = .ok [1] ∧
    ∃ names, expandWildcard "rows_?_amount" [1] = .ok names ∧
      variableName "rows[01][amount]" ∉ names := by
  have hname : variableName "rows[01][amount]" = "rows_01_amount" := by decide +kernel
  have hrows : rowIndices ["rows[01][amount]"] = .ok [1] := by decide +kernel
  have hall : expandWildcard "rows_?_amount" [1] = .ok ["rows_1_amount"] := by decide +kernel
  have hs : Name.HasSubscript "rows[01][amount]".toList "01".toList :=
    ⟨by decide, List.all_eq_true.mp (by decide), ⟨"rows".toList, "[amount]".toList, by decide⟩⟩
  refine ⟨hs, ?_, ?_, hrows, _, hall, ?_⟩
  · rw [hname]
    decide
  · rw [hname]
    decide
  · rw [hname]
    decide

end LiveForm
