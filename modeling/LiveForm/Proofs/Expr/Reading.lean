import LiveForm.Expr.Evaluator
import LiveForm.Proofs.Sequence

/-!
# What an evaluation reads

An expression reads the variables that its names stand for, and for a wildcard the instances in
the rows.  `evalWithin_congr` says that it reads nothing else: two lookups that agree there give the
same value, or the same error.
-/

namespace LiveForm.Expr

/-! ## The names of an expression -/

mutual

/-- The names that stand for variables in an expression. -/
def names : Expr → List String
  | .literal _ => []
  | .name n => [n]
  | .unary _ e => names e
  | .binary _ a b => names a ++ names b
  | .call _ args => namesOfAll args

/-- The names that stand for variables in one of some expressions. -/
def namesOfAll : List Expr → List String
  | [] => []
  | e :: es => names e ++ namesOfAll es

end

theorem mem_namesOfAll {n : String} {es : List Expr} :
    n ∈ namesOfAll es ↔ ∃ e ∈ es, n ∈ names e := by
  induction es with
  | nil => simp [namesOfAll]
  | cons e es ih => simp [namesOfAll, ih]

/-! ## Agreement of lookups -/

/-- The two lookups give the same for a name and for its instances in the rows. -/
def AgreeAt (rows : List Int) (l l' : String → Value) (n : String) : Prop :=
  l n = l' n ∧ ∀ i ∈ rows, ∀ v, rowVariable n i = .ok v → l v = l' v

/-- An argument means the same in both contexts, in whichever way a function takes it. -/
structure SameFor (ctx ctx' : Context) (eval eval' : Evaluation) (e : Expr) : Prop where
  value : eval e = eval' e
  raw : ctx.raw eval e = ctx'.raw eval' e
  expandRaw : ctx.expandRaw eval e = ctx'.expandRaw eval' e
  expand : ctx.expand eval e = ctx'.expand eval' e

section

variable {ctx : Context} {l : String → Value} {eval eval' : Evaluation}

theorem rowValues_congr {n : String} (h : AgreeAt ctx.rows ctx.lookup l n) :
    ctx.rowValues n = { ctx with lookup := l }.rowValues n := by
  simp only [Context.rowValues]
  cases hnames : ctx.rows.mapM (rowVariable n) with
  | error e => rfl
  | ok names =>
    have hrows := List.forall₂_iff_zip.mp (mapM_eq_ok_iff.mp hnames)
    have hlookup : (ctx.rows.zip names).map (fun p => (p.1, ctx.lookup p.2)) =
        (ctx.rows.zip names).map fun p => (p.1, l p.2) :=
      List.map_congr_left fun p hp => by
        rw [h.2 p.1 (List.of_mem_zip hp).1 p.2 (hrows.2 hp)]
    dsimp only
    rw [hlookup]

theorem sameFor_of_agree {e : Expr} (he : eval e = eval' e)
    (h : ∀ n ∈ names e, AgreeAt ctx.rows ctx.lookup l n) :
    SameFor ctx { ctx with lookup := l } eval eval' e := by
  cases e with
  | name n =>
    have hn := h n (by simp [names])
    have hraw : ctx.raw eval (.name n) = { ctx with lookup := l }.raw eval' (.name n) := by
      simp only [Context.raw, hn.1]
    refine ⟨he, hraw, ?_, ?_⟩
    · simp only [Context.expandRaw, rowValues_congr hn, hraw]
    · simp only [Context.expand, rowValues_congr hn, he]
      rfl
  | literal _ | unary _ _ | binary _ _ _ | call _ _ =>
    exact ⟨he, he, by simp only [Context.expandRaw, Context.raw, he],
      by simp only [Context.expand, he]⟩

end

/-! ## Functions and operators -/

section

variable {ctx ctx' : Context} {eval eval' : Evaluation}

variable (hn : ctx.number = ctx'.number)
include hn

theorem numbers_congr {args : List Expr} (h : ∀ e ∈ args, SameFor ctx ctx' eval eval' e) :
    ctx.numbers eval args = ctx'.numbers eval' args := by
  simp only [Context.numbers]
  rw [mapM_congr_left fun e he => by rw [(h e he).expand, hn]]

theorem sumWhere_congr {range criteria : Expr} {sumRange : Option Expr}
    (hr : SameFor ctx ctx' eval eval' range) (hc : SameFor ctx ctx' eval eval' criteria)
    (hs : ∀ e ∈ sumRange, SameFor ctx ctx' eval eval' e) :
    sumWhere ctx eval range criteria sumRange = sumWhere ctx' eval' range criteria sumRange := by
  cases sumRange with
  | none => simp only [sumWhere, hr.expandRaw, hc.value, hn]
  | some e => simp only [sumWhere, hr.expandRaw, hc.value, hn, (hs e rfl).expand]

omit hn in
theorem dateOf_congr {e : Expr} (h : SameFor ctx ctx' eval eval' e) :
    dateOf ctx eval e = dateOf ctx' eval' e := by
  simp only [dateOf, h.raw]

omit hn in
theorem dateRange_congr {difference : Date → Date → Int} {start finish : Expr}
    (ha : SameFor ctx ctx' eval eval' start) (hb : SameFor ctx ctx' eval eval' finish) :
    dateRange ctx eval difference start finish = dateRange ctx' eval' difference start finish := by
  simp only [dateRange, dateOf_congr ha, dateOf_congr hb]

theorem scalar_congr {e : Expr} (h : SameFor ctx ctx' eval eval' e) :
    scalar ctx eval e = scalar ctx' eval' e := by
  simp only [scalar, h.raw, hn]

theorem apply_congr {f : Function} {args : List Expr}
    (h : ∀ e ∈ args, SameFor ctx ctx' eval eval' e) :
    f.apply ctx eval args = f.apply ctx' eval' args := by
  have hnum := numbers_congr hn h
  cases f with
  | sum => simp only [Function.apply, hnum]
  | avg => simp only [Function.apply, hnum]
  | min => simp only [Function.apply, hnum]
  | max => simp only [Function.apply, hnum]
  | count =>
    simp only [Function.apply]
    rw [mapM_congr_left fun e he => by rw [(h e he).expand]]
  | sumif =>
    match args, h with
    | [range, criteria], h =>
      simp only [Function.apply]
      rw [sumWhere_congr hn (h range (by simp)) (h criteria (by simp)) (by simp)]
    | [range, criteria, e], h =>
      simp only [Function.apply]
      rw [sumWhere_congr hn (h range (by simp)) (h criteria (by simp))
        (by simp; exact h e (by simp))]
    | [], _ | [_], _ | _ :: _ :: _ :: _ :: _, _ => rfl
  | rangeDate | rangeWeek | rangeMonth | rangeYear =>
    match args, h with
    | [a, b], h =>
      simp only [Function.apply]
      rw [dateRange_congr (h a (by simp)) (h b (by simp))]
    | [], _ | [_], _ | _ :: _ :: _ :: _, _ => rfl
  | cond =>
    match args, h with
    | [c, yes, no], h =>
      simp only [Function.apply, (h c (by simp)).value, (h yes (by simp)).value,
        (h no (by simp)).value]
    | [], _ | [_], _ | [_, _], _ | _ :: _ :: _ :: _ :: _, _ => rfl
  | round =>
    match args, h with
    | [e], h => simp only [Function.apply, (h e (by simp)).value, hn]
    | [e, places], h =>
      simp only [Function.apply, (h e (by simp)).value, (h places (by simp)).value, hn]
    | [], _ | _ :: _ :: _ :: _, _ => rfl
  | abs | floor | ceil =>
    match args, h with
    | [e], h => simp only [Function.apply, (h e (by simp)).value, hn]
    | [], _ | _ :: _ :: _, _ => rfl
  | parseFloat =>
    match args, h with
    | [e], h => simp only [Function.apply, (h e (by simp)).raw, hn]
    | [], _ | _ :: _ :: _, _ => rfl

theorem evalCall_congr {f : String} {args : List Expr}
    (h : ∀ e ∈ args, SameFor ctx ctx' eval eval' e) :
    evalCall ctx eval f args = evalCall ctx' eval' f args := by
  simp only [evalCall, apply_congr hn h]

end

/-! ## Expressions -/

/-- The value of an expression depends on what the lookup gives for its names and their instances
only. -/
theorem evalWithin_congr {ctx : Context} {l : String → Value} (depth : Nat) :
    ∀ {e : Expr}, (∀ n ∈ names e, AgreeAt ctx.rows ctx.lookup l n) →
      evalWithin ctx depth e = evalWithin { ctx with lookup := l } depth e := by
  induction depth with
  | zero => intro e _; rfl
  | succ depth ih =>
    intro e h
    have same {a : Expr} (ha : ∀ n ∈ names a, n ∈ names e) :
        SameFor ctx { ctx with lookup := l } (evalWithin ctx depth)
          (evalWithin { ctx with lookup := l } depth) a :=
      sameFor_of_agree (ih fun n hn => h n (ha n hn)) fun n hn => h n (ha n hn)
    have hnum : ctx.number = { ctx with lookup := l }.number := rfl
    simp only [evalWithin]
    cases e with
    | literal _ => rfl
    | name n =>
      simp only [evalWith, (h n (by simp [names])).1]
      rfl
    | unary op a =>
      simp only [evalWith, (same (a := a) (by simp [names])).value, hnum]
    | binary op a b =>
      have ha := same (a := a) fun n hn => by simp [names, hn]
      have hb := same (a := b) fun n hn => by simp [names, hn]
      cases op with
      | or => simp only [evalWith, ha.value, hb.value]
      | and => simp only [evalWith, ha.value, hb.value]
      | compare r =>
        simp only [evalWith]
        split
        · rw [scalar_congr hnum ha, scalar_congr hnum hb]
          rfl
        · rw [ha.value, hb.value]
          rfl
      | arithmetic op =>
        simp only [evalWith, ha.value, hb.value]
        rfl
    | call f args =>
      exact evalCall_congr hnum fun a ha => same fun n hn => by
        simp only [names]
        exact mem_namesOfAll.mpr ⟨a, ha, hn⟩

end LiveForm.Expr
