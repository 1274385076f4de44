import LiveForm.Proofs.Expr.Aligning
import LiveForm.Proofs.Expr.Blanks

/-!
# Rows that equal a target, and the others

A criteria that starts with `==` and one that starts with `<>` are opposites of each other, whatever
text follows: the relation is the only thing in which they differ, since the spellings of relations
are told apart before the target is read (`split_of_find?`).  So two conditional sums, one with each
of them, go through all rows of a range together, and through none of them twice
(`equal_or_unequal`).
-/

namespace LiveForm

/-! ## Blanks at the end of a text -/

namespace Text

/-- The text without the blanks at its end. -/
def trimEnd (cs : List Char) : List Char := (dropBlanks cs.reverse).reverse

theorem trimEnd_split (cs : List Char) :
    ∃ back, (∀ c ∈ back, isBlank c = true) ∧ cs = trimEnd cs ++ back := by
  refine ⟨(cs.reverse.takeWhile isBlank).reverse,
    fun _ h => List.mem_takeWhile_imp (List.mem_reverse.mp h), ?_⟩
  rw [trimEnd, dropBlanks, ← List.reverse_append, List.takeWhile_append_dropWhile,
    List.reverse_reverse]

theorem trimChars_append_blanks {back : List Char} (hback : ∀ c ∈ back, isBlank c = true)
    (cs : List Char) : trimChars (cs ++ back) = trimChars cs := by
  have hnone : dropBlanks back = [] := List.dropWhile_eq_nil_iff.mpr hback
  unfold trimChars dropBlanks
  rw [List.dropWhile_append]
  split
  · next hempty =>
    have hall : cs.dropWhile isBlank = [] := List.isEmpty_iff.mp hempty
    rw [dropBlanks] at hnone
    rw [hnone, hall]
  · rw [List.reverse_append,
      List.dropWhile_append_of_pos fun c hc => hback c (List.mem_reverse.mp hc)]

theorem trimChars_trimEnd (cs : List Char) : trimChars (trimEnd cs) = trimChars cs := by
  obtain ⟨back, hback, hsplit⟩ := trimEnd_split cs
  conv_rhs => rw [hsplit, trimChars_append_blanks hback]

/-- In front of a word only the blanks behind what follows it are dropped. -/
theorem trimChars_append_of_word {word : List Char} (hword : ∀ c ∈ word, isBlank c = false)
    (hne : word ≠ []) (cs : List Char) : trimChars (word ++ cs) = word ++ trimEnd cs := by
  have hfront : dropBlanks (word ++ cs) = word ++ cs := by
    refine dropWhile_of_head fun c hc => ?_
    rw [List.head?_append_of_ne_nil _ hne] at hc
    exact hword c (List.mem_of_mem_head? hc)
  have hback := (Expr.takeWhile_append_of_neg (z := word.reverse)
    (fun c hc => hword c (List.mem_reverse.mp hc)) cs.reverse).2
  rw [trimChars, hfront, List.reverse_append, dropBlanks, hback, List.reverse_append,
    List.reverse_reverse]
  rfl

end Text

namespace Expr

open Text

/-! ## Relations in front of a target -/

/-- Of a criteria that starts with a symbol the rest, without blanks, is the target. -/
theorem split_of_find? {symbol : String} {r : Relation}
    (hblank : symbol.toList.any isBlank = false) (hne : symbol.toList ≠ []) {t : String}
    (hfind : (Criteria.spellings.find? fun p =>
      p.1.toList.isPrefixOf (symbol.toList ++ trimEnd t.toList)) = some (symbol, r)) :
    Criteria.split (.text (symbol ++ t)) = (r, .text (trim t)) := by
  have hword : ∀ c ∈ symbol.toList, isBlank c = false :=
    fun c hc => Bool.eq_false_iff.mpr (List.any_eq_false.mp hblank c hc)
  rw [Criteria.split, String.toList_append, trimChars_append_of_word hword hne]
  rw [hfind]
  dsimp only
  rw [List.drop_left, trimChars_trimEnd]
  rfl

theorem split_eq (t : String) : Criteria.split (.text ("==" ++ t)) = (.eq, .text (trim t)) :=
  split_of_find? (by decide) (by decide) rfl

theorem split_ne (t : String) : Criteria.split (.text ("<>" ++ t)) = (.ne, .text (trim t)) :=
  split_of_find? (by decide) (by decide) rfl

theorem split_notEqual (t : String) : Criteria.split (.text ("!=" ++ t)) = (.ne, .text (trim t)) :=
  split_of_find? (by decide) (by decide) rfl

/-- The text does not start with a relation, blanks aside. -/
def IsTarget (t : String) : Prop := ∀ p ∈ Criteria.spellings, ¬ p.1.toList <+: trimChars t.toList

instance (t : String) : Decidable (IsTarget t) :=
  inferInstanceAs (Decidable (∀ p ∈ Criteria.spellings, ¬ p.1.toList <+: trimChars t.toList))

/-- A text that starts with no relation is a target as it is. -/
theorem split_target {t : String} (h : IsTarget t) :
    Criteria.split (.text t) = (.eq, .text (trim t)) := by
  have hnone : (Criteria.spellings.find? fun p => p.1.toList.isPrefixOf (trimChars t.toList)) =
      none := by
    refine List.find?_eq_none.mpr fun p hp hprefix => h p hp ?_
    exact List.isPrefixOf_iff_prefix.mp hprefix
  rw [Criteria.split, hnone]
  rfl

/-- A single sign of equality is not taken for a part of a longer relation. -/
theorem split_equals {t : String} (h : IsTarget t) :
    Criteria.split (.text ("=" ++ t)) = (.eq, .text (trim t)) := by
  have hhead : ∀ rest, trimEnd t.toList ≠ '=' :: rest := by
    intro rest hrest
    have htrim : trimChars t.toList = ['='] ++ trimEnd rest := by
      rw [← trimChars_trimEnd, hrest]
      exact trimChars_append_of_word (List.forall_mem_singleton.mpr (by decide)) (by decide) rest
    exact h ("=", .eq) (by decide) (htrim ▸ List.prefix_append ['='] _)
  refine split_of_find? (by decide) (by decide) ?_
  cases htail : trimEnd t.toList with
  | nil => rfl
  | cons c rest =>
    have hc : ('=' == c) = false := beq_eq_false_iff_ne.mpr fun hc => hhead rest (hc ▸ htail)
    simp [Criteria.spellings, List.isPrefixOf, hc]

/-! ## Opposite relations -/

/-- A criteria is its relation and its target. -/
theorem matchCriteria_congr {k k' : Value} (h : Criteria.split k = Criteria.split k') (v : Value) :
    matchCriteria v k = matchCriteria v k' := by
  unfold matchCriteria
  rw [h]

/-- Numbers or texts are compared for equality and for inequality alike: just one of the two holds,
or neither has an answer. -/
theorem matchCriteria_opposite {k k' target : Value} (h : Criteria.split k = (.eq, target))
    (h' : Criteria.split k' = (.ne, target)) (v : Value) :
    matchCriteria v k' = (matchCriteria v k).map (!·) := by
  unfold matchCriteria
  rw [h, h']
  dsimp only
  have htexts : Criteria.compareTexts (· != ·) (Criteria.shownText v) target.toText =
      (Criteria.compareTexts (· == ·) (Criteria.shownText v) target.toText).map (!·) := by
    cases Criteria.shownText v <;> cases target.toText <;> rfl
  cases Criteria.asNumber v.coerce with
  | none => exact htexts
  | some x =>
    cases Criteria.asNumber target.coerce with
    | none => cases x <;> exact htexts
    | some y => cases x <;> cases y <;> rfl

/-- What a row can hold: nothing, a flag, a number or a text. -/
def isCell : Value → Bool
  | .absent | .flag _ | .number _ | .text _ => true
  | .integer _ | .date _ | .moment _ => false

/-- What a row holds has a text. -/
theorem exists_shownText {v : Value} (h : isCell v = true) :
    ∃ s, Criteria.shownText v = .ok s := by
  cases v with
  | integer _ | date _ | moment _ => cases h
  | absent | flag _ | number _ | text _ => exact ⟨_, rfl⟩

/-- What a row holds can be compared. -/
theorem asNumber_coerce_ne {v : Value} (h : isCell v = true) :
    Criteria.asNumber v.coerce ≠ some none := by
  have hzero : Criteria.asNumber (.integer 0) ≠ some none := by decide +kernel
  cases v with
  | absent => exact hzero
  | flag b => exact nofun
  | number x => exact nofun
  | text s =>
    unfold Value.coerce Value.coerceText
    dsimp only
    split_ifs
    · exact hzero
    · exact nofun
    · exact nofun
    · split <;> exact nofun
  | integer | date | moment => cases h

theorem exists_matchCriteria {k : Value} {t : String} (h : Criteria.split k = (.eq, .text t))
    {v : Value} (hv : isCell v = true) : ∃ b, matchCriteria v k = .ok b := by
  obtain ⟨s, hs⟩ := exists_shownText hv
  have htexts : ∃ b, Criteria.compareTexts (· == ·) (Criteria.shownText v)
      (Value.text t).toText = .ok b := by
    rw [hs]
    exact ⟨_, rfl⟩
  have hcell := asNumber_coerce_ne hv
  have htarget := asNumber_coerce_ne (v := .text t) rfl
  unfold matchCriteria
  rw [h]
  dsimp only
  cases hx : Criteria.asNumber v.coerce with
  | none => exact htexts
  | some x =>
    cases hy : Criteria.asNumber (Value.text t).coerce with
    | none => cases x <;> exact htexts
    | some y =>
      cases x with
      | none => exact absurd hx hcell
      | some x =>
        cases y with
        | none => exact absurd hy htarget
        | some y => exact ⟨_, rfl⟩

/-! ## Conditional sums -/

/-- What a row has to offer to a conditional sum: what the criteria is about, and what is added if
it is satisfied. -/
structure Offer where
  cell : Value
  added : List Value

/-- What the rows of a range offer next to a range to add up; `places` are the values of that range
from the place of the first of the rows on. -/
def offersFrom (sums : List (Option Int × Value)) :
    (places rows : List (Option Int × Value)) → List Offer
  | _, [] => []
  | places, (index, value) :: rows =>
    let added : List Value :=
      if index.isSome && sums.any fun p => p.1.isSome then
        [((sums.find? fun p => p.1 == index).map (·.2)).getD (.integer 0)]
      else (places.head?.map (·.2)).toList
    ⟨value, added⟩ :: offersFrom sums places.tail rows

/-- What the rows of a range offer: themselves, if there is no other range to add up. -/
def offers (ctx : Context) (eval : Evaluation) (rows : List (Option Int × Value)) :
    (sumRange : Option Expr) → Eval (List Offer)
  | none => .ok (rows.map fun p => ⟨p.2, [p.2]⟩)
  | some e => do
    let sums ← ctx.expand eval e
    .ok (offersFrom sums sums rows)

/-- The sum of what is added for these rows. -/
def sumOffers (ctx : Context) (os : List Offer) : Eval Binary64 := do
  sumOf (← (os.flatMap (·.added)).mapM ctx.number)

theorem evalWith_sumWhere (ctx : Context) (eval : Evaluation) (range criteria : Expr)
    (sumRange : Option Expr) :
    evalWith ctx eval (.call "sumif" (range :: criteria :: sumRange.toList)) =
      .number <$> sumWhere ctx eval range criteria sumRange := by
  have hname : Function.ofName? "sumif" = some .sumif := by decide
  cases sumRange <;>
  · simp only [evalWith, evalCall, hname]
    rfl

/-- Each row offers something, in their order. -/
theorem map_cell_offersFrom (sums places rows : List (Option Int × Value)) :
    (offersFrom sums places rows).map (·.cell) = rows.map (·.2) := by
  induction rows generalizing places with
  | nil => rfl
  | cons p rows ih =>
    rw [offersFrom, List.map_cons, List.map_cons, ih]

theorem map_cell_offers {ctx : Context} {eval : Evaluation} {rows : List (Option Int × Value)}
    {sumRange : Option Expr} {os : List Offer} (h : offers ctx eval rows sumRange = .ok os) :
    os.map (·.cell) = rows.map (·.2) := by
  cases sumRange with
  | none =>
    cases h
    rw [List.map_map]
    rfl
  | some e =>
    rw [offers] at h
    cases hsums : ctx.expand eval e with
    | error err =>
      rw [hsums] at h
      cases h
    | ok sums =>
      rw [hsums] at h
      cases h
      exact map_cell_offersFrom sums sums rows

section

variable {criteria : Value} {sat : Value → Bool}

/-- A conditional sum takes what the rows offer that satisfy its criteria. -/
theorem selected_eq_flatMap {sums rows : List (Option Int × Value)}
    (hsat : ∀ p ∈ rows, satisfies p.2 criteria = .ok (sat p.2)) :
    selected rows sums criteria =
      .ok (((offersFrom sums sums rows).filter (sat ·.cell)).flatMap (·.added)) := by
  have hgo (places : List (Option Int × Value)) :
      selected.go sums criteria (sums.any fun p => p.1.isSome) places rows =
        .ok (((offersFrom sums places rows).filter (sat ·.cell)).flatMap (·.added)) := by
    induction rows generalizing places with
    | nil => rfl
    | cons p rows ih =>
      obtain ⟨hp, hrows⟩ := List.forall_mem_cons.mp hsat
      rw [selected.go, hp, ih hrows, offersFrom]
      cases hs : sat p.2 with
      | false =>
        rw [List.filter_cons_of_neg (by simpa using hs)]
        rfl
      | true =>
        rw [List.filter_cons_of_pos (by simpa using hs), List.flatMap_cons]
        rfl
  exact hgo sums

theorem filterMapM_eq_flatMap {rows : List (Option Int × Value)}
    (hsat : ∀ p ∈ rows, satisfies p.2 criteria = .ok (sat p.2)) :
    (rows.filterMapM fun p => do
        .ok (if ← satisfies p.2 criteria then some p.2 else none) : Eval (List Value)) =
      .ok (((rows.map fun p => (⟨p.2, [p.2]⟩ : Offer)).filter (sat ·.cell)).flatMap (·.added)) := by
  induction rows with
  | nil => rfl
  | cons p rows ih =>
    obtain ⟨hp, hrows⟩ := List.forall_mem_cons.mp hsat
    rw [List.filterMapM_cons, hp, ih hrows, List.map_cons]
    cases hs : sat p.2 with
    | false =>
      rw [List.filter_cons_of_neg (by simpa using hs)]
      rfl
    | true =>
      rw [List.filter_cons_of_pos (by simpa using hs), List.flatMap_cons]
      rfl

end

/-- The rows that satisfy a criteria. -/
def satisfying (criteria : Value) (os : List Offer) : List Offer :=
  os.filter fun o => decide (matchCriteria o.cell criteria = .ok true)

/-- A conditional sum over rows that can be compared is the sum of what is added for those that
satisfy its criteria. -/
theorem sumWhere_eq_sumOffers {ctx : Context} {eval : Evaluation} {range criteria : Expr}
    {sumRange : Option Expr} {rows : List (Option Int × Value)} {os : List Offer} {k : Value}
    (hrows : ctx.expandRaw eval range = .ok rows) (hk : eval criteria = .ok k)
    (hos : offers ctx eval rows sumRange = .ok os)
    (hcompared : ∀ p ∈ rows, ∃ b, matchCriteria p.2 k = .ok b) :
    sumWhere ctx eval range criteria sumRange = sumOffers ctx (satisfying k os) := by
  have hsat : ∀ p ∈ rows, satisfies p.2 k = .ok (decide (matchCriteria p.2 k = .ok true)) := by
    intro p hp
    obtain ⟨b, hb⟩ := hcompared p hp
    rw [satisfies, hb]
    cases b <;> rfl
  cases sumRange with
  | none =>
    cases hos
    rw [sumWhere, hrows, hk]
    have hvalues :=
      @filterMapM_eq_flatMap k (fun v => decide (matchCriteria v k = .ok true)) rows hsat
    show (do
      let values ← rows.filterMapM _
      sumOf (← values.mapM ctx.number)) = _
    rw [hvalues]
    rfl
  | some e =>
    rw [offers] at hos
    cases hsums : ctx.expand eval e with
    | error err =>
      rw [hsums] at hos
      cases hos
    | ok sums =>
      rw [hsums] at hos
      cases hos
      have hvalues :=
        @selected_eq_flatMap k (fun v => decide (matchCriteria v k = .ok true)) sums rows hsat
      rw [sumWhere_eq, summands, hrows, hk, hsums]
      show (do
        let xs ← (do
          let values ← selected rows sums k
          values.mapM ctx.number)
        sumOf xs) = _
      rw [hvalues]
      rfl

/-- Rows that can be compared satisfy just one of two opposite criteria. -/
theorem satisfying_append_perm {k k' : Value} {os : List Offer}
    (h : ∀ o ∈ os, ∃ b, matchCriteria o.cell k = .ok b ∧ matchCriteria o.cell k' = .ok (!b)) :
    (satisfying k os ++ satisfying k' os).Perm os := by
  have hopposite : satisfying k' os =
      os.filter fun o => !decide (matchCriteria o.cell k = .ok true) := by
    refine List.filter_congr fun o ho => ?_
    obtain ⟨b, hb, hb'⟩ := h o ho
    rw [hb, hb']
    cases b <;> rfl
  rw [hopposite]
  exact List.filter_append_perm _ os

/-- The rows of a range are split between equality with a target and inequality.  Whatever a row
holds, just one of the two is satisfied, and both spellings of the second one agree; a target that
starts with no relation, and one with a single sign of equality, mean equality too.  So of two
conditional sums with opposite criteria each row that the range stands for is added in one, and in
one only. -/
theorem equal_or_unequal (t : String) :
    (∀ v, isCell v = true → ∃ b, matchCriteria v (.text ("==" ++ t)) = .ok b ∧
      matchCriteria v (.text ("<>" ++ t)) = .ok (!b)) ∧
    (∀ v, matchCriteria v (.text ("!=" ++ t)) = matchCriteria v (.text ("<>" ++ t))) ∧
    (IsTarget t → ∀ v, matchCriteria v (.text t) = matchCriteria v (.text ("==" ++ t)) ∧
      matchCriteria v (.text ("=" ++ t)) = matchCriteria v (.text ("==" ++ t))) ∧
    ∀ {ctx : Context} {eval : Evaluation} {range equal unequal : Expr} {sumRange : Option Expr}
      {rows : List (Option Int × Value)} {os : List Offer},
      ctx.expandRaw eval range = .ok rows → (∀ p ∈ rows, isCell p.2 = true) →
      offers ctx eval rows sumRange = .ok os →
      eval equal = .ok (.text ("==" ++ t)) → eval unequal = .ok (.text ("<>" ++ t)) →
        os.map (·.cell) = rows.map (·.2) ∧
        (satisfying (.text ("==" ++ t)) os ++ satisfying (.text ("<>" ++ t)) os).Perm os ∧
        evalWith ctx eval (.call "sumif" (range :: equal :: sumRange.toList)) =
          .number <$> sumOffers ctx (satisfying (.text ("==" ++ t)) os) ∧
        evalWith ctx eval (.call "sumif" (range :: unequal :: sumRange.toList)) =
          .number <$> sumOffers ctx (satisfying (.text ("<>" ++ t)) os) := by
  have hsplit : ∀ v, isCell v = true → ∃ b, matchCriteria v (.text ("==" ++ t)) = .ok b ∧
      matchCriteria v (.text ("<>" ++ t)) = .ok (!b) := by
    intro v hv
    obtain ⟨b, hb⟩ := exists_matchCriteria (split_eq t) hv
    exact ⟨b, hb, by rw [matchCriteria_opposite (split_eq t) (split_ne t), hb]; rfl⟩
  refine ⟨hsplit, matchCriteria_congr ((split_notEqual t).trans (split_ne t).symm),
    fun ht v => ⟨?_, ?_⟩, ?_⟩
  · exact matchCriteria_congr ((split_target ht).trans (split_eq t).symm) v
  · exact matchCriteria_congr ((split_equals ht).trans (split_eq t).symm) v
  · intro ctx eval range equal unequal sumRange rows os hrows hcells hos hequal hunequal
    have hcell := map_cell_offers hos
    have hcompared : ∀ p ∈ rows, (∃ b, matchCriteria p.2 (.text ("==" ++ t)) = .ok b) ∧
        ∃ b, matchCriteria p.2 (.text ("<>" ++ t)) = .ok b := by
      intro p hp
      obtain ⟨b, hb, hb'⟩ := hsplit p.2 (hcells p hp)
      exact ⟨⟨_, hb⟩, _, hb'⟩
    refine ⟨hcell, satisfying_append_perm fun o ho => hsplit o.cell ?_, ?_, ?_⟩
    · have hmem : o.cell ∈ rows.map (·.2) := hcell ▸ List.mem_map_of_mem ho
      obtain ⟨p, hp, heq⟩ := List.mem_map.mp hmem
      exact heq ▸ hcells p hp
    · rw [evalWith_sumWhere,
        sumWhere_eq_sumOffers hrows hequal hos fun p hp => (hcompared p hp).1]
    · rw [evalWith_sumWhere,
        sumWhere_eq_sumOffers hrows hunequal hos fun p hp => (hcompared p hp).2]

/-- Rows with numbers and flags, and with texts of all sorts; one of them lacks the field. -/
def mixedRows : Context where
  lookup
    | "rows_0_n" => .text " 5.0 "
    | "rows_1_n" => .text "nan"
    | "rows_2_n" => .number 5
    | "rows_3_n" => .flag true
    | "rows_5_n" => .text "5 pieces"
    | "rows_6_n" => .text ""
    | _ => .absent
  rows := [0, 1, 2, 3, 4, 5, 6]
  locale := .id

/-- What is no number is not equal to five, although it may be read as a five in the sum. -/
theorem equal_or_unequal_mixed :
    IsTarget " 5" ∧ isCell (.text "nan") = true ∧
      matchCriteria (.text "nan") (.text "= 5") = .ok false ∧
      matchCriteria (.text "nan") (.text "<> 5") = .ok true ∧
      evalWith mixedRows (evalWithin mixedRows 1)
        (.call "sumif" [.name "rows_?_n", .literal (.text "== 5")]) = .ok (.number 10) ∧
      evalWith mixedRows (evalWithin mixedRows 1)
        (.call "sumif" [.name "rows_?_n", .literal (.text "<> 5")]) = .ok (.number 6) := by
  obtain ⟨hsplit, -, htarget, hsums⟩ := equal_or_unequal " 5"
  have hfive : IsTarget " 5" := by decide +kernel
  have hcell : isCell (.text "nan") = true := rfl
  have hcells : ∀ p ∈ byIndex mixedRows id "rows_?_n", isCell p.2 = true := by decide +kernel
  have hwritten : ∀ i ∈ mixedRows.rows, writeInteger i = .ok (integerChars i) := by decide +kernel
  obtain ⟨-, -, hequal, hunequal⟩ := @hsums mixedRows (evalWithin mixedRows 1) _
    (.literal (.text "== 5")) (.literal (.text "<> 5")) none _ _
    (expandRaw_wildcard _ (by decide) fun i hi => ⟨_, hwritten i hi⟩) hcells rfl rfl rfl
  have hten : sumOffers mixedRows (satisfying (.text "== 5")
      ((byIndex mixedRows id "rows_?_n").map fun p => ⟨p.2, [p.2]⟩)) = .ok 10 := by
    decide +kernel
  have hsix : sumOffers mixedRows (satisfying (.text "<> 5")
      ((byIndex mixedRows id "rows_?_n").map fun p => ⟨p.2, [p.2]⟩)) = .ok 6 := by
    decide +kernel
  obtain ⟨b, hb, hb'⟩ := hsplit _ hcell
  have hnan : matchCriteria (.text "nan") (.text ("==" ++ " 5")) = .ok false := by decide +kernel
  rw [hnan] at hb
  cases hb
  refine ⟨hfive, hcell, (htarget hfive _).2.trans hnan, hb', ?_, ?_⟩
  · exact hequal.trans (congrArg (Value.number <$> ·) hten)
  · exact hunequal.trans (congrArg (Value.number <$> ·) hsix)

end Expr

end LiveForm
