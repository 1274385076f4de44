import LiveForm.Expr.Eval
import LiveForm.Proofs.Name
import LiveForm.Proofs.Number.Sum
import LiveForm.Proofs.Value.Figures
import Mathlib.Data.List.Basic

/-!
# Rows that are added up

A conditional sum over two wildcards goes through the rows of the first one and looks the numbers of
the second one up by the index of the row.  A row may lack either field, and then the two have
different lengths; nevertheless each number is added that stands in the same row as a value that
satisfies the criteria, and no other one (`filter_summands`).
-/

namespace LiveForm

open Text

namespace Expr

/-! ## Cells -/

namespace Context

variable (ctx : Context)

/-- What the instance of a wildcard in a row holds. -/
def cell (pattern : String) (i : Int) : Value :=
  ctx.lookup (.ofList (Name.instantiate pattern.toList i))

/-- The rows in which the instance of a wildcard holds something, with what it holds. -/
def knownRows (n : String) : List (Int × Value) :=
  (ctx.rows.map fun i => (i, ctx.cell n i)).filter fun p => p.2 != .absent

/-- The number that a value counts as, zero if it has none. -/
def reading (v : Value) : Binary64 := (v.toNumber? ctx.locale).getD 0

variable {ctx}

/-- A wildcard stands for the rows in which its instance holds something, if it has an instance in
each row. -/
theorem rowValues_eq_ok_iff {n : String} {vs : List (Int × Value)} :
    ctx.rowValues n = .ok vs ↔
      (∀ i ∈ ctx.rows, ∃ cs, writeInteger i = .ok cs) ∧ vs = ctx.knownRows n := by
  have hwritten : ∀ {i : Int}, (∃ cs, writeInteger i = .ok cs) →
      writeInteger i = .ok (integerChars i) := fun ⟨cs, h⟩ => by rw [h, eq_of_writeInteger h]
  constructor
  · intro h
    cases hnames : ctx.rows.mapM (rowVariable n) with
    | error e =>
      rw [rowValues, hnames] at h
      cases h
    | ok names =>
      have hrows : ∀ i ∈ ctx.rows, ∃ cs, writeInteger i = .ok cs := by
        intro i hi
        obtain ⟨v, -, hv⟩ := exists_of_mapM_eq_ok hnames i hi
        exact ⟨_, (rowVariable_eq_ok.mp hv).1⟩
      rw [rowValues_eq_ok fun i hi => hwritten (hrows i hi)] at h
      exact ⟨hrows, (Except.ok.inj h).symm⟩
  · rintro ⟨h, rfl⟩
    exact rowValues_eq_ok fun i hi => hwritten (h i hi)

theorem mem_knownRows {n : String} {p : Int × Value} :
    p ∈ ctx.knownRows n ↔ p.1 ∈ ctx.rows ∧ p.2 = ctx.cell n p.1 ∧ p.2 ≠ .absent := by
  obtain ⟨i, v⟩ := p
  simp only [knownRows, List.mem_filter, List.mem_map, Prod.mk.injEq, bne_iff_ne, ne_eq]
  constructor
  · rintro ⟨⟨j, hj, rfl, rfl⟩, hv⟩
    exact ⟨hj, rfl, hv⟩
  · rintro ⟨hi, rfl, hv⟩
    exact ⟨⟨i, hi, rfl, rfl⟩, hv⟩

/-- The rows of a wildcard, one by one. -/
theorem flatMap_knownRows {β : Type} (n : String) (f : Int → Value → List β) :
    (ctx.knownRows n).flatMap (fun p => f p.1 p.2) =
      ctx.rows.flatMap fun i => if ctx.cell n i = .absent then [] else f i (ctx.cell n i) := by
  unfold knownRows
  induction ctx.rows with
  | nil => rfl
  | cons i is ih =>
    rw [List.map_cons, List.flatMap_cons, ← ih]
    by_cases h : ctx.cell n i = .absent
    · rw [List.filter_cons_of_neg (by simpa using h), if_pos h, List.nil_append]
    · rw [List.filter_cons_of_pos (by simpa using h), if_neg h, List.flatMap_cons]

/-- A row is found by its index if it has the field. -/
theorem find?_knownRows {n : String} {i : Int} (hi : i ∈ ctx.rows) :
    ((ctx.knownRows n).find? fun p => some p.1 == some i) =
      if ctx.cell n i = .absent then none else some (i, ctx.cell n i) := by
  split
  · next habsent =>
    rw [List.find?_eq_none]
    intro p hp heq
    obtain ⟨-, hv, hknown⟩ := mem_knownRows.mp hp
    have hindex : p.1 = i := by simpa using heq
    rw [hv, hindex] at hknown
    exact hknown habsent
  · next hknown =>
    have hmem : (i, ctx.cell n i) ∈ ctx.knownRows n := mem_knownRows.mpr ⟨hi, rfl, hknown⟩
    obtain ⟨p, hp⟩ : ∃ p, ((ctx.knownRows n).find? fun p => some p.1 == some i) = some p :=
      Option.isSome_iff_exists.mp (List.find?_isSome.mpr ⟨_, hmem, by simp⟩)
    obtain ⟨-, hv, -⟩ := mem_knownRows.mp (List.mem_of_find?_eq_some hp)
    have hindex : p.1 = i := by simpa using List.find?_some hp
    rw [hp, ← hindex, ← hv]

/-- The number that is added up for a row: that of `s`, if the row has both fields and that of `c`
satisfies the criteria. -/
def alignedTerm (ctx : Context) (c s : String) (criteria : Value) (i : Int) : Option Binary64 :=
  if ctx.cell c i ≠ .absent ∧ matchCriteria (ctx.cell c i) criteria = .ok true ∧
      ctx.cell s i ≠ .absent then
    (ctx.cell s i).toNumber? ctx.locale
  else none

/-- The wildcards have an instance in each row, and whatever has to be compared or read of the rows
can be compared or read. -/
structure Answered (ctx : Context) (c s : String) (criteria : Value) : Prop where
  rows : ∀ i ∈ ctx.rows, ∃ cs, writeInteger i = .ok cs
  criteria : ∀ i ∈ ctx.rows, ctx.cell c i ≠ .absent →
    ∃ b, matchCriteria (ctx.cell c i) criteria = .ok b
  numbers : ∀ i ∈ ctx.rows, ctx.cell s i ≠ .absent →
    ((ctx.cell s i).toNumber? ctx.locale).isSome = true

end Context

/-! ## The numbers that are added up -/

/-- The numbers that a conditional sum with a range to add up adds up. -/
def summands (ctx : Context) (eval : Evaluation) (range criteria sumRange : Expr) :
    Eval (List Binary64) := do
  let rows ← ctx.expandRaw eval range
  let criteria ← eval criteria
  let values ← selected rows (← ctx.expand eval sumRange) criteria
  values.mapM ctx.number

theorem sumWhere_eq (ctx : Context) (eval : Evaluation) (range criteria sumRange : Expr) :
    sumWhere ctx eval range criteria (some sumRange) =
      (do sumOf (← summands ctx eval range criteria sumRange)) := by
  simp only [sumWhere, summands, bind_assoc]

theorem evalWith_sumif (ctx : Context) (eval : Evaluation) (range criteria sumRange : Expr) :
    evalWith ctx eval (.call "sumif" [range, criteria, sumRange]) =
      (do .number <$> sumOf (← summands ctx eval range criteria sumRange)) := by
  have hname : Function.ofName? "sumif" = some .sumif := by decide
  have hcall : evalWith ctx eval (.call "sumif" [range, criteria, sumRange]) =
      .number <$> sumWhere ctx eval range criteria (some sumRange) := by
    simp only [evalWith, evalCall, hname]
    rfl
  rw [hcall, sumWhere_eq, map_bind]

/-- What is taken from the rows of the sum range for a row of the other range, by its index. -/
def placed (sums : List (Option Int × Value)) (index : Option Int) : List Value :=
  if sums = [] then []
  else [((sums.find? fun p => p.1 == index).map (·.2)).getD (.integer 0)]

section

variable {rows sums : List (Option Int × Value)} {criteria : Value}

/-- Between two wildcards the rows are matched by index, whatever their places are. -/
theorem selected_eq {sat : Value → Bool} (hrows : ∀ p ∈ rows, p.1.isSome = true)
    (hsums : ∀ p ∈ sums, p.1.isSome = true)
    (hsat : ∀ p ∈ rows, satisfies p.2 criteria = .ok (sat p.2)) :
    selected rows sums criteria =
      .ok (rows.flatMap fun p => if sat p.2 then placed sums p.1 else []) := by
  have hindexed : (sums.any fun p => p.1.isSome) = true ↔ sums ≠ [] := by
    constructor
    · rintro h rfl
      cases h
    · intro hne
      exact List.any_eq_true.mpr ⟨sums.head hne, List.head_mem hne, hsums _ (List.head_mem hne)⟩
  -- The places are of no account: there are none, or the rows go by their index
  have hgo : ∀ places rows, (sums = [] → places = []) → (∀ p ∈ rows, p.1.isSome = true) →
      (∀ p ∈ rows, satisfies p.2 criteria = .ok (sat p.2)) →
      selected.go sums criteria (sums.any fun p => p.1.isSome) places rows =
        .ok (rows.flatMap fun p => if sat p.2 then placed sums p.1 else []) := by
    intro places rows hplaces hrows hsat
    induction rows generalizing places with
    | nil => rfl
    | cons p rows ih =>
      obtain ⟨hp, hrows⟩ := List.forall_mem_cons.mp hrows
      obtain ⟨hsatp, hsat⟩ := List.forall_mem_cons.mp hsat
      have hrest := ih places.tail (fun h => by rw [hplaces h]; rfl) hrows hsat
      have hhere : (if p.1.isSome && sums.any fun p => p.1.isSome then
            [((sums.find? fun q => q.1 == p.1).map (·.2)).getD (.integer 0)]
          else (places.head?.map (·.2)).toList) = placed sums p.1 := by
        by_cases hempty : sums = []
        · simp [placed, hempty, hplaces hempty]
        · simp [placed, hempty, hp, hindexed.mpr hempty]
      rw [selected.go, hhere, hsatp, hrest, List.flatMap_cons]
      cases sat p.2 with
      | false => rfl
      | true => rfl
  exact hgo sums rows id hrows hsat

/-- If the rows were matched, each of them could be compared. -/
theorem exists_of_selected_eq_ok {values : List Value} (h : selected rows sums criteria = .ok values) :
    ∀ p ∈ rows, ∃ b, satisfies p.2 criteria = .ok b := by
  have hgo : ∀ indexed places rows values,
      selected.go sums criteria indexed places rows = .ok values →
      ∀ p ∈ rows, ∃ b, satisfies p.2 criteria = .ok b := by
    intro indexed places rows
    induction rows generalizing places with
    | nil => exact fun _ _ p hp => absurd hp List.not_mem_nil
    | cons p rows ih =>
      intro values h
      rw [selected.go] at h
      cases hp : satisfies p.2 criteria with
      | error e =>
        rw [hp] at h
        cases h
      | ok b =>
        cases hrest : selected.go sums criteria indexed places.tail rows with
        | error e =>
          rw [hp, hrest] at h
          cases h
        | ok rest => exact List.forall_mem_cons.mpr ⟨⟨b, hp⟩, ih places.tail rest hrest⟩
  exact hgo _ _ _ _ h

end

/-! ## Sums over wildcards -/

section

variable {ctx : Context} {c s : String}

theorem number_of_isSome {v : Value} (h : (v.toNumber? ctx.locale).isSome = true) :
    ctx.number v = .ok (ctx.reading v) := by
  obtain ⟨x, hx⟩ := Option.isSome_iff_exists.mp h
  rw [Context.number, Context.reading, hx]
  rfl

theorem isSome_of_number {v : Value} {x : Binary64} (h : ctx.number v = .ok x) :
    (v.toNumber? ctx.locale).isSome = true := by
  unfold Context.number at h
  split at h
  · next y hy => rw [hy]; rfl
  · cases h

theorem isNaN_reading (v : Value) : (ctx.reading v).isNaN = false := by
  unfold Context.reading
  cases h : v.toNumber? ctx.locale with
  | none =>
    have hzero : (0 : Binary64).isNaN = false := by decide +kernel
    exact hzero
  | some x => exact Value.isNaN_toNumber? h

theorem toNumber?_zero (l : NumberLocale) : (Value.integer 0).toNumber? l = some 0 := by
  have hfinite : (Binary64.ofInt 0).isFinite = true := by decide +kernel
  unfold Value.toNumber?
  dsimp only
  rw [if_pos hfinite]
  rfl

/-- What a wildcard stands for, with the index of each row, in some form. -/
def byIndex (ctx : Context) (f : Value → Value) (n : String) : List (Option Int × Value) :=
  (ctx.knownRows n).map fun p => (some p.1, f p.2)

theorem isSome_of_mem_byIndex {f : Value → Value} {n : String} :
    ∀ p ∈ byIndex ctx f n, p.1.isSome = true := by
  intro p hp
  obtain ⟨q, -, rfl⟩ := List.mem_map.mp hp
  rfl

theorem mem_byIndex (f : Value → Value) {n : String} {i : Int} (hi : i ∈ ctx.rows)
    (hknown : ctx.cell n i ≠ .absent) : (some i, f (ctx.cell n i)) ∈ byIndex ctx f n :=
  List.mem_map.mpr ⟨(i, ctx.cell n i), Context.mem_knownRows.mpr ⟨hi, rfl, hknown⟩, rfl⟩

theorem find?_byIndex (f : Value → Value) {n : String} {i : Int} (hi : i ∈ ctx.rows) :
    ((byIndex ctx f n).find? fun p => p.1 == some i).map (·.2) =
      if ctx.cell n i = .absent then none else some (f (ctx.cell n i)) := by
  have hindex : ((fun p : Option Int × Value => p.1 == some i) ∘
      fun p : Int × Value => (some p.1, f p.2)) = fun p => some p.1 == some i := rfl
  rw [byIndex, List.find?_map, hindex, Context.find?_knownRows hi]
  split <;> rfl

/-- The numbers that a wildcard stands for. -/
def readings (ctx : Context) (s : String) : List (Option Int × Value) :=
  byIndex ctx (fun v => .number (ctx.reading v)) s

theorem expandRaw_wildcard (eval : Evaluation) (hc : isWildcard c = true)
    (hrows : ∀ i ∈ ctx.rows, ∃ cs, writeInteger i = .ok cs) :
    ctx.expandRaw eval (.name c) = .ok (byIndex ctx id c) := by
  rw [Context.expandRaw, if_pos hc, Context.rowValues_eq_ok_iff.mpr ⟨hrows, rfl⟩]
  rfl

theorem expand_wildcard (eval : Evaluation) (hs : isWildcard s = true)
    (hrows : ∀ i ∈ ctx.rows, ∃ cs, writeInteger i = .ok cs)
    (h : ∀ i ∈ ctx.rows, ctx.cell s i ≠ .absent →
      ((ctx.cell s i).toNumber? ctx.locale).isSome = true) :
    ctx.expand eval (.name s) = .ok (readings ctx s) := by
  rw [Context.expand, if_pos hs, Context.rowValues_eq_ok_iff.mpr ⟨hrows, rfl⟩]
  show (ctx.knownRows s).mapM _ = _
  refine mapM_eq_ok fun p hp => ?_
  obtain ⟨hi, hv, hknown⟩ := Context.mem_knownRows.mp hp
  rw [hv] at hknown ⊢
  rw [number_of_isSome (h p.1 hi hknown)]
  rfl

/-- What is taken from the rows can be read. -/
theorem isSome_of_mem_placed {index : Option Int} {v : Value}
    (h : v ∈ placed (readings ctx s) index) : (v.toNumber? ctx.locale).isSome = true := by
  unfold placed at h
  split at h
  · cases h
  · rw [List.mem_singleton.mp h]
    cases hfound : (readings ctx s).find? fun p => p.1 == index with
    | none => exact congrArg Option.isSome (toNumber?_zero ctx.locale)
    | some q =>
      obtain ⟨p, -, rfl⟩ := List.mem_map.mp (List.mem_of_find?_eq_some hfound)
      rfl

/-- For a row without the field nothing but zero is taken, and otherwise its number. -/
theorem filter_placed {i : Int} (hi : i ∈ ctx.rows) :
    ((placed (readings ctx s) (some i)).map ctx.reading).filter (!·.isZero) =
      if ctx.cell s i = .absent then []
      else [ctx.reading (ctx.cell s i)].filter (!·.isZero) := by
  have hfound := find?_byIndex (fun v => .number (ctx.reading v)) (n := s) hi
  by_cases hknown : ctx.cell s i = .absent
  · have hzero : ctx.reading (.integer 0) = 0 ∧ (0 : Binary64).isZero = true := by
      rw [Context.reading, toNumber?_zero]
      exact ⟨rfl, by decide +kernel⟩
    rw [if_pos hknown] at hfound ⊢
    rw [placed, readings, hfound]
    -- Nothing is taken if no row has the field at all
    split
    · rfl
    · simp [hzero]
  · have hne : readings ctx s ≠ [] := List.ne_nil_of_mem (mem_byIndex _ hi hknown)
    have hread : ctx.reading (.number (ctx.reading (ctx.cell s i))) =
        ctx.reading (ctx.cell s i) := by
      have hnumber : (ctx.reading (ctx.cell s i)).isNaN = false := isNaN_reading _
      exact if_neg (by rw [hnumber]; exact Bool.false_ne_true)
    rw [if_neg hknown] at hfound ⊢
    rw [placed, if_neg hne, readings, hfound, Option.getD_some, List.map_singleton, hread]

/-- The numbers that are added up over two wildcards, row by row. -/
theorem summands_wildcards {eval : Evaluation} {criteria : Expr} {k : Value}
    (hc : isWildcard c = true) (hs : isWildcard s = true) (hk : eval criteria = .ok k)
    (h : ctx.Answered c s k) :
    summands ctx eval (.name c) criteria (.name s) =
      .ok (ctx.rows.flatMap fun i =>
        if ctx.cell c i = .absent then []
        else if matchCriteria (ctx.cell c i) k = .ok true then
          (placed (readings ctx s) (some i)).map ctx.reading
        else []) := by
  have hsat : ∀ p ∈ byIndex ctx id c,
      satisfies p.2 k = .ok (decide (matchCriteria p.2 k = .ok true)) := by
    intro p hp
    obtain ⟨q, hq, rfl⟩ := List.mem_map.mp hp
    obtain ⟨hi, hv, hknown⟩ := Context.mem_knownRows.mp hq
    obtain ⟨b, hb⟩ := h.criteria q.1 hi (hv ▸ hknown)
    rw [← hv] at hb
    cases b <;> simp [satisfies, hb]
  have hselected : selected (byIndex ctx id c) (readings ctx s) k =
      .ok ((byIndex ctx id c).flatMap fun p =>
        if decide (matchCriteria p.2 k = .ok true) then placed (readings ctx s) p.1 else []) :=
    @selected_eq _ _ k (fun v => decide (matchCriteria v k = .ok true)) isSome_of_mem_byIndex
      isSome_of_mem_byIndex hsat
  have hread : ∀ v ∈ (byIndex ctx id c).flatMap fun p =>
      if decide (matchCriteria p.2 k = .ok true) then placed (readings ctx s) p.1 else [],
      ctx.number v = .ok (ctx.reading v) := by
    intro v hv
    obtain ⟨p, -, hp⟩ := List.mem_flatMap.mp hv
    split at hp
    · exact number_of_isSome (isSome_of_mem_placed hp)
    · cases hp
  have hrows : (ctx.knownRows c).flatMap _ = _ := Context.flatMap_knownRows c fun i v =>
    if matchCriteria v k = .ok true then (placed (readings ctx s) (some i)).map ctx.reading else []
  rw [summands, expandRaw_wildcard eval hc h.rows, expand_wildcard eval hs h.rows h.numbers, hk]
  calc (do
        let values ← selected (byIndex ctx id c) (readings ctx s) k
        values.mapM ctx.number)
      = .ok (((byIndex ctx id c).flatMap fun p =>
          if decide (matchCriteria p.2 k = .ok true) then placed (readings ctx s) p.1
          else []).map ctx.reading) := by
        rw [hselected]
        exact mapM_eq_ok hread
    _ = _ := by
        rw [byIndex, List.map_flatMap, List.flatMap_map, ← hrows]
        simp only [id_eq, decide_eq_true_eq, apply_ite (List.map ctx.reading), List.map_nil]

/-- If there are numbers to add up, whatever has to be compared or read has an answer. -/
theorem answered_of_summands_eq_ok {eval : Evaluation} {criteria : Expr} {k : Value}
    (hc : isWildcard c = true) (hs : isWildcard s = true) (hk : eval criteria = .ok k)
    {xs : List Binary64} (h : summands ctx eval (.name c) criteria (.name s) = .ok xs) :
    ctx.Answered c s k := by
  obtain ⟨rows, hrange, h⟩ := bind_eq_ok_iff.mp h
  rw [Context.expandRaw, if_pos hc] at hrange
  obtain ⟨vs, hvs, hrange⟩ := bind_eq_ok_iff.mp hrange
  obtain ⟨hrows, rfl⟩ := Context.rowValues_eq_ok_iff.mp hvs
  cases hrange
  obtain ⟨k', hk', h⟩ := bind_eq_ok_iff.mp h
  obtain rfl : k = k' := Except.ok.inj (hk.symm.trans hk')
  obtain ⟨sums, hsums, h⟩ := bind_eq_ok_iff.mp h
  obtain ⟨values, hvalues, -⟩ := bind_eq_ok_iff.mp h
  refine ⟨hrows, fun i hi hknown => ?_, fun i hi hknown => ?_⟩
  · obtain ⟨b, hb⟩ := exists_of_selected_eq_ok hvalues _ (mem_byIndex id hi hknown)
    unfold satisfies at hb
    split at hb
    · next hmatch => exact ⟨_, hmatch⟩
    · cases hb
    · cases hb
  · rw [Context.expand, if_pos hs, Context.rowValues_eq_ok_iff.mpr ⟨hrows, rfl⟩] at hsums
    have hrow : (i, ctx.cell s i) ∈ ctx.knownRows s :=
      Context.mem_knownRows.mpr ⟨hi, rfl, hknown⟩
    obtain ⟨y, -, hy⟩ := exists_of_mapM_eq_ok hsums _ hrow
    obtain ⟨x, hx, -⟩ := bind_eq_ok_iff.mp hy
    exact isSome_of_number hx

/-- Zeros aside, the numbers that are added up are those of the rows in which a value satisfies the
criteria. -/
theorem filter_summands {eval : Evaluation} {criteria : Expr} {k : Value}
    (hc : isWildcard c = true) (hs : isWildcard s = true) (hk : eval criteria = .ok k)
    (h : ctx.Answered c s k) {xs : List Binary64}
    (hxs : summands ctx eval (.name c) criteria (.name s) = .ok xs) :
    xs.filter (!·.isZero) = (ctx.rows.filterMap (ctx.alignedTerm c s k)).filter (!·.isZero) := by
  rw [summands_wildcards hc hs hk h] at hxs
  cases hxs
  rw [List.filterMap_eq_flatMap_toList, List.filter_flatMap, List.filter_flatMap]
  apply List.flatMap_congr
  intro i hi
  by_cases hknown : ctx.cell c i = .absent
  · simp [Context.alignedTerm, hknown]
  · by_cases hmatch : matchCriteria (ctx.cell c i) k = .ok true
    · rw [if_neg hknown, if_pos hmatch, filter_placed hi]
      by_cases hfield : ctx.cell s i = .absent
      · simp [Context.alignedTerm, hfield]
      · obtain ⟨x, hx⟩ := Option.isSome_iff_exists.mp (h.numbers i hi hfield)
        rw [if_neg hfield, Context.alignedTerm, if_pos ⟨hknown, hmatch, hfield⟩, Context.reading, hx]
        rfl
    · simp [Context.alignedTerm, hknown, hmatch]

end

/-- Lists that differ in zeros only have the same sum, if they have one. -/
theorem sumOf_congr {xs ys : List Binary64} (h : xs.filter (!·.isZero) = ys.filter (!·.isZero))
    {x y : Binary64} (hx : sumOf xs = .ok x) (hy : sumOf ys = .ok y) : x = y := by
  have hsum : ∀ {zs z}, sumOf zs = .ok z → z = Binary64.exactSum zs := by
    intro zs z hz
    unfold sumOf at hz
    split at hz
    · next hok =>
      cases hz
      exact Binary64.eq_exactSum hok
    · cases hz
    · cases hz
  rw [hsum hx, hsum hy, ← Binary64.exactSum_filter_isZero xs, h, Binary64.exactSum_filter_isZero]

/-- A conditional sum over two wildcards aligns their rows by index.  It has numbers to add up
unless a comparison or a number has no answer, and zeros aside they are the numbers of `s` in the
rows that have both fields and in which `c` satisfies the criteria, whichever rows lack which field.
So if both have a sum, it is the same. -/
theorem sumif_by_index (ctx : Context) (eval : Evaluation) (criteria : Expr) {c s : String}
    (hc : isWildcard c = true) (hs : isWildcard s = true) :
    evalWith ctx eval (.call "sumif" [.name c, criteria, .name s]) =
        (do .number <$> sumOf (← summands ctx eval (.name c) criteria (.name s))) ∧
      ∀ k, eval criteria = .ok k →
        ((∃ xs, summands ctx eval (.name c) criteria (.name s) = .ok xs) ↔ ctx.Answered c s k) ∧
        ∀ xs, summands ctx eval (.name c) criteria (.name s) = .ok xs →
          xs.filter (!·.isZero) = (ctx.rows.filterMap (ctx.alignedTerm c s k)).filter (!·.isZero) ∧
          ∀ x y, sumOf xs = .ok x →
            sumOf (ctx.rows.filterMap (ctx.alignedTerm c s k)) = .ok y → x = y := by
  refine ⟨evalWith_sumif ctx eval _ _ _, fun k hk => ⟨⟨?_, ?_⟩, fun xs hxs => ?_⟩⟩
  · rintro ⟨xs, hxs⟩
    exact answered_of_summands_eq_ok hc hs hk hxs
  · exact fun h => ⟨_, summands_wildcards hc hs hk h⟩
  · have hfilter := filter_summands hc hs hk (answered_of_summands_eq_ok hc hs hk hxs) hxs
    exact ⟨hfilter, fun x y => sumOf_congr hfilter⟩

/-- Five rows, of which the first has no amount and the second has no status. -/
def rowsWithGaps : Context where
  lookup
    | "rows_0_status" => .text "paid"
    | "rows_1_amount" => .text "100"
    | "rows_2_status" => .text "paid"
    | "rows_2_amount" => .text "250"
    | "rows_3_status" => .text "unpaid"
    | "rows_3_amount" => .text "50"
    | "rows_4_status" => .text " paid "
    | "rows_4_amount" => .integer 7
    | _ => .absent
  rows := [0, 1, 2, 3, 4]
  locale := .id

/-- By their places the first status would go with the amount of the second row. -/
theorem sumif_by_index_gaps :
    isWildcard "rows_?_status" = true ∧ isWildcard "rows_?_amount" = true ∧
      (∃ xs, summands rowsWithGaps (evalWithin rowsWithGaps 1) (.name "rows_?_status")
          (.literal (.text "paid")) (.name "rows_?_amount") = .ok xs ∧
        xs.filter (!·.isZero) = [250, 7]) ∧
      evalWith rowsWithGaps (evalWithin rowsWithGaps 1)
        (.call "sumif" [.name "rows_?_status", .literal (.text "paid"), .name "rows_?_amount"]) =
          .ok (.number 257) := by
  have hstatus : isWildcard "rows_?_status" = true := by decide
  have hamount : isWildcard "rows_?_amount" = true := by decide
  obtain ⟨hvalue, hterms⟩ := sumif_by_index rowsWithGaps (evalWithin rowsWithGaps 1)
    (.literal (.text "paid")) hstatus hamount
  obtain ⟨hanswered, hsum⟩ := hterms (.text "paid") rfl
  have hwritten : ∀ i ∈ rowsWithGaps.rows, writeInteger i = .ok (integerChars i) := by
    decide +kernel
  obtain ⟨xs, hxs⟩ := hanswered.mpr
    ⟨fun i hi => ⟨_, hwritten i hi⟩, by decide +kernel, by decide +kernel⟩
  have haligned : (rowsWithGaps.rows.filterMap (rowsWithGaps.alignedTerm "rows_?_status"
      "rows_?_amount" (.text "paid"))).filter (!·.isZero) = [250, 7] := by
    decide +kernel
  refine ⟨hstatus, hamount, ⟨xs, hxs, (hsum xs hxs).1.trans haligned⟩, ?_⟩
  rw [hvalue]
  decide +kernel

end Expr

end LiveForm
