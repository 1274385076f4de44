import LiveForm.Proofs.Expr.Accepting
import LiveForm.Proofs.Expr.Covering
import LiveForm.Proofs.Number.Decimal
import LiveForm.Proofs.Value.Displayable

/-!
# What a lenient evaluation forgives

A lenient evaluation turns the failures of an expression into zero.  Two failures escape it: a letter
or digit outside the alphabets of names and numerals, which the lexer meets outside of quotes, and a
result that leaves the range of numbers when it is rounded.

`evaluate_eq_of_plain` says that nothing else escapes: without such characters, and with a precision
at which rounding stays in range, the answer is what the strict evaluation gives, and zero where that
fails in any way.
-/

namespace LiveForm.Expr

open Text

/-! ## Outcomes -/

/-- The outcome is a value with the property, or an error that does not escape. -/
def Gives {α : Type} (P : α → Prop) : Eval α → Prop
  | .ok a => P a
  | .error e => e.escapes = false

/-- The outcome is some value, or an error that does not escape. -/
def Mild {α : Type} (x : Eval α) : Prop := Gives (fun _ => True) x

section

variable {α β : Type} {P : α → Prop} {Q : β → Prop} {x : Eval α} {f : α → Eval β}

theorem Gives.mild (h : Gives P x) : Mild x := by
  cases x with
  | ok a => trivial
  | error e => exact h

theorem Gives.bind (hx : Gives P x) (hf : ∀ a, P a → Gives Q (f a)) : Gives Q (x >>= f) := by
  cases x with
  | ok a => exact hf a hx
  | error e => exact hx

theorem Mild.bind (hx : Mild x) (hf : ∀ a, Gives Q (f a)) : Gives Q (x >>= f) :=
  Gives.bind hx fun a _ => hf a

theorem Mild.map {g : α → β} (hx : Mild x) (hg : ∀ a, Q (g a)) : Gives Q (g <$> x) := by
  cases x with
  | ok a => exact hg a
  | error e => exact hx

theorem mild_ok (a : α) : Mild (.ok a : Eval α) := trivial

theorem Mild.mapM {xs : List α} (h : ∀ a ∈ xs, Mild (f a)) : Mild (xs.mapM f) := by
  induction xs with
  | nil => exact mild_ok []
  | cons a xs ih =>
    rw [List.mapM_cons]
    refine (h a List.mem_cons_self).bind fun b => ?_
    exact (ih fun c hc => h c (List.mem_cons_of_mem _ hc)).bind fun bs => mild_ok _

theorem Mild.filterMapM {xs : List α} {g : α → Eval (Option β)} (h : ∀ a ∈ xs, Mild (g a)) :
    Mild (xs.filterMapM g) := by
  induction xs with
  | nil => exact mild_ok []
  | cons a xs ih =>
    rw [List.filterMapM_cons]
    refine (h a List.mem_cons_self).bind fun b => ?_
    have ih := ih fun c hc => h c (List.mem_cons_of_mem _ hc)
    cases b with
    | none => exact ih
    | some b => exact ih.bind fun bs => mild_ok _

end

/-! ## Functions and operators -/

/-- A text, a flag or a number. -/
def IsScalar : Value → Prop
  | .text _ | .flag _ | .number _ => True
  | _ => False

section

variable {ctx : Context} {eval : Evaluation}

theorem number_mild (v : Value) : Mild (ctx.number v) := by
  unfold Context.number
  split
  · trivial
  · rfl

theorem sumOf_mild (xs : List Binary64) : Mild (sumOf xs) := by
  unfold sumOf
  split
  · trivial
  · rfl
  · rfl

theorem satisfies_mild (value criteria : Value) : Mild (satisfies value criteria) := by
  unfold satisfies
  split
  · trivial
  · rfl
  · rfl

theorem rowValues_mild (pattern : String) : Mild (ctx.rowValues pattern) := by
  unfold Context.rowValues
  split
  · trivial
  · rfl

theorem selected_mild (criteriaRows sumRows : List (Option Int × Value)) (criteria : Value) :
    Mild (selected criteriaRows sumRows criteria) := by
  have hgo : ∀ indexed places rows, Mild (selected.go sumRows criteria indexed places rows) := by
    intro indexed places rows
    induction rows generalizing places with
    | nil => exact mild_ok []
    | cons row rows ih =>
      rw [selected.go]
      exact (satisfies_mild _ _).bind fun chosen => (ih _).bind fun rest => mild_ok _
  exact hgo _ _ _

theorem roundHalfAway_mild (x : Binary64) (places : Int) : Mild (roundHalfAway x places) := by
  unfold roundHalfAway
  split
  · rfl
  · generalize (if 0 ≤ places then Binary64.ofInt (Nat.pow 10 places.toNat)
      else Binary64.ofDecimal false 1 places) = scale
    dsimp only
    split
    · rfl
    · split
      · rfl
      · split
        · trivial
        · split
          · rfl
          · trivial

theorem integerNear_mild (near? : Binary64 → Option Int) (x : Binary64) :
    Mild (integerNear near? x) := by
  unfold integerNear
  split
  · trivial
  · rfl

theorem arithmetic_mild (op : ArithmeticOp) (x y : Binary64) : Mild (arithmetic op x y) := by
  cases op with
  | add | sub | mul => trivial
  | div =>
    simp only [arithmetic]
    split
    · rfl
    · trivial
  | mod =>
    simp only [arithmetic]
    split
    · rfl
    · split
      · trivial
      · rfl

theorem compareValues_mild (r : Relation) (a b : Value) : Mild (compareValues ctx r a b) := by
  unfold compareValues
  split
  · trivial
  · trivial
  · trivial
  · trivial
  · trivial
  · exact (number_mild _).bind fun x => (number_mild _).bind fun y => mild_ok _

theorem combine_gives (op : ArithmeticOp) (a b : Value) : Gives IsScalar (combine ctx op a b) := by
  unfold combine
  split
  · split
    · trivial
    · rfl
  · exact (number_mild _).bind fun x => (number_mild _).bind fun y =>
      (arithmetic_mild op x y).map fun _ => trivial

variable (he : ∀ e, Gives IsScalar (eval e))
include he

theorem raw_mild (e : Expr) : Mild (ctx.raw eval e) := by
  cases e with
  | name n => trivial
  | literal _ | unary _ _ | binary _ _ _ | call _ _ => exact (he _).mild

theorem expandRaw_mild (e : Expr) : Mild (ctx.expandRaw eval e) := by
  have hraw : Mild (do .ok [((none : Option Int), ← ctx.raw eval e)]) :=
    (raw_mild he e).bind fun v => mild_ok _
  cases e with
  | name n =>
    simp only [Context.expandRaw]
    split
    · exact (rowValues_mild n).bind fun ps => mild_ok _
    · exact hraw
  | literal _ | unary _ _ | binary _ _ _ | call _ _ => exact hraw

theorem expand_mild (e : Expr) : Mild (ctx.expand eval e) := by
  have hvalue : Mild (do .ok [((none : Option Int), ← eval e)]) :=
    (he e).mild.bind fun v => mild_ok _
  cases e with
  | name n =>
    simp only [Context.expand]
    split
    · exact (rowValues_mild n).bind fun ps =>
        Mild.mapM fun p _ => (number_mild _).bind fun x => mild_ok _
    · exact hvalue
  | literal _ | unary _ _ | binary _ _ _ | call _ _ => exact hvalue

theorem numbers_mild (args : List Expr) : Mild (ctx.numbers eval args) := by
  have hall : ∀ e ∈ args, Mild (do (← ctx.expand eval e).mapM fun p => ctx.number p.2) :=
    fun e _ => (expand_mild he e).bind fun ps => Mild.mapM fun p _ => number_mild _
  exact (Mild.mapM hall).bind fun xss => mild_ok _

theorem sumWhere_mild (range criteria : Expr) (sumRange : Option Expr) :
    Mild (sumWhere ctx eval range criteria sumRange) := by
  unfold sumWhere
  refine (expandRaw_mild he range).bind fun rows => (he criteria).mild.bind fun criteria => ?_
  have hsum : ∀ values : List Value, Mild (do sumOf (← values.mapM ctx.number)) :=
    fun values => (Mild.mapM fun v _ => number_mild v).bind fun xs => sumOf_mild xs
  cases sumRange with
  | none =>
    refine Mild.bind (Mild.filterMapM fun p _ => ?_) hsum
    exact (satisfies_mild _ _).bind fun b => mild_ok _
  | some e =>
    exact (expand_mild he e).bind fun ps => (selected_mild _ _ _).bind hsum

theorem dateOf_mild (e : Expr) : Mild (dateOf ctx eval e) := by
  unfold dateOf
  refine (raw_mild he e).bind fun v => ?_
  split
  · trivial
  · rfl

theorem dateRange_mild (difference : Date → Date → Int) (start finish : Expr) :
    Mild (dateRange ctx eval difference start finish) := by
  unfold dateRange
  refine (dateOf_mild he start).bind fun a => (dateOf_mild he finish).bind fun b => ?_
  split
  · trivial
  · trivial

theorem scalar_gives (e : Expr) : Gives IsScalar (scalar ctx eval e) := by
  unfold scalar
  refine (raw_mild he e).bind fun v => ?_
  split
  · trivial
  · trivial
  · exact (number_mild v).map fun _ => trivial

theorem numberOf_mild (e : Expr) : Mild (do ctx.number (← eval e)) :=
  (he e).mild.bind fun v => number_mild v

theorem apply_gives (f : Function) (args : List Expr) : Gives IsScalar (f.apply ctx eval args) := by
  have hnumber : ∀ {x : Eval Binary64}, Mild x → Gives IsScalar (Value.number <$> x) :=
    fun h => h.map fun _ => trivial
  have hwrong : ∀ f n, Gives IsScalar (.error (.wrongArity f n)) := fun _ _ => rfl
  cases f with
  | sum =>
    simp only [Function.apply]
    exact (numbers_mild he args).bind fun xs => hnumber (sumOf_mild xs)
  | avg =>
    simp only [Function.apply]
    exact (numbers_mild he args).bind fun xs => (sumOf_mild xs).bind fun total => trivial
  | min | max =>
    simp only [Function.apply]
    exact (numbers_mild he args).bind fun xs => trivial
  | count =>
    simp only [Function.apply]
    refine Mild.bind (Mild.mapM fun e _ => ?_) fun counts => trivial
    exact (expand_mild he e).map fun _ => trivial
  | sumif =>
    rcases args with _ | ⟨range, _ | ⟨criteria, _ | ⟨e, _ | ⟨_, _⟩⟩⟩⟩
    · exact hwrong _ _
    · exact hwrong _ _
    · exact hnumber (sumWhere_mild he range criteria none)
    · exact hnumber (sumWhere_mild he range criteria (some e))
    · exact hwrong _ _
  | rangeDate | rangeWeek | rangeMonth | rangeYear =>
    rcases args with _ | ⟨a, _ | ⟨b, _ | ⟨_, _⟩⟩⟩
    · exact hwrong _ _
    · exact hwrong _ _
    · exact hnumber (dateRange_mild he _ a b)
    · exact hwrong _ _
  | cond =>
    rcases args with _ | ⟨c, _ | ⟨yes, _ | ⟨no, _ | ⟨_, _⟩⟩⟩⟩
    · exact hwrong _ _
    · exact hwrong _ _
    · exact hwrong _ _
    · simp only [Function.apply]
      refine (he c).mild.bind fun v => ?_
      split
      · exact he yes
      · exact he no
    · exact hwrong _ _
  | round =>
    rcases args with _ | ⟨e, _ | ⟨places, _ | ⟨_, _⟩⟩⟩
    · exact hwrong _ _
    · exact (numberOf_mild he e).bind fun x => hnumber (roundHalfAway_mild x 0)
    · refine (numberOf_mild he e).bind fun x => (numberOf_mild he places).bind fun n => ?_
      split
      · exact hnumber (roundHalfAway_mild x _)
      · rfl
    · exact hwrong _ _
  | abs =>
    rcases args with _ | ⟨e, _ | ⟨_, _⟩⟩
    · exact hwrong _ _
    · exact (numberOf_mild he e).bind fun x => trivial
    · exact hwrong _ _
  | floor | ceil =>
    rcases args with _ | ⟨e, _ | ⟨_, _⟩⟩
    · exact hwrong _ _
    · exact (numberOf_mild he e).bind fun x => hnumber (integerNear_mild _ x)
    · exact hwrong _ _
  | parseFloat =>
    rcases args with _ | ⟨e, _ | ⟨_, _⟩⟩
    · exact hwrong _ _
    · exact (raw_mild he e).bind fun v => hnumber (number_mild v)
    · exact hwrong _ _

theorem evalCall_gives (name : String) (args : List Expr) :
    Gives IsScalar (evalCall ctx eval name args) := by
  unfold evalCall
  split
  · rfl
  · split
    · exact apply_gives he _ args
    · rfl

theorem evalWith_gives (e : Expr) : Gives IsScalar (evalWith ctx eval e) := by
  cases e with
  | literal l => cases l <;> trivial
  | name n =>
    simp only [evalWith]
    split
    · rfl
    · exact (number_mild _).map fun _ => trivial
  | unary op e =>
    simp only [evalWith]
    refine (he e).mild.bind fun v => ?_
    cases op with
    | not => trivial
    | minus => exact (number_mild v).bind fun x => trivial
    | plus => exact (number_mild v).map fun _ => trivial
  | binary op a b =>
    have hflag : Gives IsScalar (do .ok (.flag (truthy (← eval b)))) :=
      (he b).mild.bind fun w => trivial
    cases op with
    | and =>
      simp only [evalWith]
      refine (he a).mild.bind fun v => ?_
      split
      · exact hflag
      · trivial
    | or =>
      simp only [evalWith]
      refine (he a).mild.bind fun v => ?_
      split
      · trivial
      · exact hflag
    | compare r =>
      have hoperand : ∀ e, Mild ((if isTextLiteral a || isTextLiteral b then scalar ctx eval
          else eval) e) := by
        intro e
        split
        · exact (scalar_gives he e).mild
        · exact (he e).mild
      exact (hoperand a).bind fun x => (hoperand b).bind fun y =>
        (compareValues_mild r x y).map fun _ => trivial
    | arithmetic op =>
      exact (he a).mild.bind fun x => (he b).mild.bind fun y => combine_gives op x y
  | call f args => exact evalCall_gives he f args

end

/-- The errors of an evaluation do not escape, and its values are texts, flags and numbers. -/
theorem eval_gives (ctx : Context) (e : Expr) : Gives IsScalar (eval ctx e) := by
  -- Over the depth that is left and not over the tree, since that is how the evaluation goes down
  have hwithin : ∀ depth e, Gives IsScalar (evalWithin ctx depth e) := by
    intro depth
    induction depth with
    | zero => exact fun _ => rfl
    | succ depth ih => exact evalWith_gives ih
  exact hwithin maxDepth e

/-- The precisions at which no finite number is rounded out of range. -/
def SafePrecision (precision : Int) : Prop := precision < -308 ∨ -293 < precision

theorem finalize_mild {precision : Int} (h : SafePrecision precision) {v : Value}
    (hv : IsScalar v) : Mild (finalize precision v) := by
  cases v with
  | text s => trivial
  | flag b => trivial
  | number x =>
    cases hx : x.isFinite with
    | false =>
      simp only [finalize, Value.asNumber, hx]
      rfl
    | true =>
      have hrounded : (x.roundPlaces precision).isFinite = true :=
        Binary64.isFinite_roundPlaces hx h
      unfold finalize
      dsimp only [Value.asNumber]
      rw [hx, hrounded]
      exact mild_ok (Value.number (x.roundPlaces precision + 0))
  | absent | integer _ | date _ | moment _ => cases hv

/-! ## Foreign characters -/

/-- A letter or digit that is in no name and in no numeral. -/
def isForeign (c : Char) : Bool :=
  (isDigitLike c && !isDecimalDigit c) || (isLetter c && !isNameStart c)

theorem scanNumeral?_ne_none {c : Char} (hc : isDecimalDigit c = true) (r : List Char) :
    Number.scanNumeral? (c :: r) ≠ none ∧ Number.scanNumeral? ('.' :: c :: r) ≠ none := by
  have hdigits : (Number.scanDigits (c :: r)).1 = c :: r.takeWhile isDecimalDigit :=
    List.takeWhile_cons_of_pos hc
  have hpoint : Number.scanDigits ('.' :: c :: r) = ([], '.' :: c :: r) := by
    have : isDecimalDigit '.' = false := by decide
    simp [Number.scanDigits, this]
  constructor
  · simp only [Number.scanNumeral?, hdigits]
    exact Option.some_ne_none _
  · simp only [Number.scanNumeral?, hpoint, Number.scanFraction, hdigits]
    exact Option.some_ne_none _

theorem isQuote_of_isForeign {c : Char} (h : isForeign c = true) : isQuote c = false := by
  by_contra hq
  simp only [isQuote, Bool.or_eq_false_iff, beq_eq_false_iff_ne, not_and_or, not_not] at hq
  rcases hq with rfl | rfl <;> revert h <;> decide +kernel

/-- The lexer finds this fault only at a foreign character, or at a point in front of one. -/
theorem exists_foreign_of_lexeme {c : Char} {r : List Char} (h : lexeme c r = .error .foreign) :
    isForeign c = true ∨ c = '.' ∧ ∃ d s, r = d :: s ∧ isForeign d = true := by
  revert h
  fun_cases lexeme c r with
  | case2 | case3 | case5 | case6 | case7 | case8 | case9 | case10 | case11 =>
    intro h
    cases h
  | case1 hstart hnone =>
    rintro -
    rcases Bool.or_eq_true _ _ ▸ hstart with hdigit | hpoint
    · left
      have hdecimal : isDecimalDigit c = false := by
        by_contra hd
        exact (scanNumeral?_ne_none (Bool.not_eq_false _ ▸ hd) r).1 hnone
      simp [isForeign, hdigit, hdecimal]
    · right
      simp only [Bool.and_eq_true, beq_iff_eq, Option.any_eq_true] at hpoint
      obtain ⟨rfl, d, hhead, hdigit⟩ := hpoint
      obtain ⟨s, rfl⟩ := List.head?_eq_some_iff.mp hhead
      have hdecimal : isDecimalDigit d = false := by
        by_contra hd
        exact (scanNumeral?_ne_none (Bool.not_eq_false _ ▸ hd) s).2 hnone
      exact ⟨rfl, d, s, rfl, by simp [isForeign, hdigit, hdecimal]⟩
  | case4 _ hletter hstart =>
    rintro -
    left
    have hc : isNameStart c = false := by simpa using hstart
    have hl : isLetter c = true := by
      simp only [Bool.or_eq_true, beq_iff_eq] at hletter
      rcases hletter with hl | rfl
      · exact hl
      · exact absurd hc (by decide)
    simp [isForeign, hl, hc]

/-- The lexer meets a foreign character only outside of quoted texts. -/
theorem exists_foreign_of_tokensFrom {z : List Char} {position p : Nat} {cs : List Char}
    (h : tokensFrom position cs = .error (.foreignCharacter p)) :
    ∃ c ∈ cutQuoted (cs ++ z), isForeign c = true := by
  fun_induction tokensFrom position cs with
  | case1 position => cases h
  | case2 position c r hb ih =>
    obtain ⟨d, hd, hforeign⟩ := ih h
    refine ⟨d, ?_, hforeign⟩
    rw [List.cons_append, cutQuoted_cons (isQuote_of_isPlain (isPlain_of_isBlank hb))]
    exact List.mem_cons_of_mem _ hd
  | case3 position c r hb fault hl =>
    cases fault with
    | unterminated | unexpected => cases h
    | foreign =>
      rcases exists_foreign_of_lexeme hl with hforeign | ⟨rfl, d, s, rfl, hforeign⟩
      · refine ⟨c, ?_, hforeign⟩
        rw [List.cons_append, cutQuoted_cons (isQuote_of_isForeign hforeign)]
        exact List.mem_cons_self
      · refine ⟨d, ?_, hforeign⟩
        rw [List.cons_append, List.cons_append, cutQuoted_cons (by decide),
          cutQuoted_cons (isQuote_of_isForeign hforeign)]
        exact List.mem_cons_of_mem _ List.mem_cons_self
  | case4 position c r hb l hl e he ih =>
    cases h
    obtain ⟨d, hd, hforeign⟩ := ih he
    refine ⟨d, ?_, hforeign⟩
    cases lexeme_cases hl with
    | numeral kind p numeric split =>
      rw [split, List.append_assoc, cutQuoted_append numeric.1]
      exact List.mem_append_right _ hd
    | name kind start text left =>
      rw [left] at hd
      rw [cutQuoted_name start]
      exact List.mem_append_right _ hd
    | quoted kind quote body scanned =>
      rw [List.cons_append, cutQuoted_quote quote, (dropQuoted_of_scanQuoted? scanned).1]
      exact List.mem_cons_of_mem _ hd
    | plain kind p ne plain split =>
      rw [split, List.append_assoc, cutQuoted_append fun x hx => isQuote_of_isPlain (plain x hx)]
      exact List.mem_append_right _ hd
  | case5 position c r hb l hl ts' hts ih => cases h

/-- No character outside of quotes is foreign. -/
def IsPlain (source : String) : Prop := ∀ c ∈ cutQuoted source.toList, isForeign c = false

instance (source : String) : Decidable (IsPlain source) :=
  List.decidableBAll (fun c => isForeign c = false) (cutQuoted source.toList)

/-- A text without foreign characters is not refused for one, with the blanks around it or
without. -/
theorem message?_of_parse {source : String} (hsource : IsPlain source) {err : SyntaxError}
    (h : parse (trim source) = .error err) : ∃ m, err.message? = some m := by
  unfold parse at h
  split at h
  · next e he =>
    cases h
    cases err with
    | foreignCharacter p =>
      obtain ⟨front, back, hfront, -, hsplit⟩ := trimChars_split source.toList
      rw [tokenize, trim, String.toList_ofList] at he
      obtain ⟨c, hc, hforeign⟩ := exists_foreign_of_tokensFrom (z := back) he
      have hmem : c ∈ cutQuoted source.toList := by
        rw [hsplit, cutQuoted_append fun x hx => isQuote_of_isPlain (isPlain_of_isBlank (hfront x hx))]
        exact List.mem_append_right _ hc
      rw [hsource c hmem] at hforeign
      cases hforeign
    | unterminated | unexpectedCharacter | empty | tooDeep | unexpected | expected => exact ⟨_, rfl⟩
  · exact ofTokens_worded h

theorem escapes_malformed {err : SyntaxError} {m : String} (h : err.message? = some m) :
    (EvalError.malformed err).escapes = false := by
  cases err with
  | foreignCharacter p => cases h
  | unterminated | unexpectedCharacter | empty | tooDeep | unexpected | expected => rfl

/-- The value of an outcome, zero for any failure. -/
def valueOrZero : Eval Value → Value
  | .ok v => v
  | .error _ => .number 0

theorem forgive_of_mild {r : Eval Value} (h : Mild r) (source : String) :
    (forgive source r).1 = .ok (valueOrZero r) := by
  cases r with
  | ok v => rfl
  | error e =>
    have he : e.escapes = false := h
    simp only [forgive, he]
    rfl

end LiveForm.Expr

namespace LiveForm.Evaluator

open LiveForm.Expr

/-- The strict evaluation of a text without foreign characters fails in no way that escapes. -/
theorem evaluateStrict_mild (ev : Evaluator) {source : String} (hsource : IsPlain source)
    (hprecision : SafePrecision ev.precision) (lookup : String → Value) (rows : List Int) :
    Mild (ev.evaluateStrict source lookup rows).1 := by
  have hvalue : ∀ tree, Mild (do finalize ev.precision (← eval ⟨lookup, rows, ev.locale⟩ tree)) :=
    fun tree => (eval_gives _ tree).bind fun v hv => finalize_mild hprecision hv
  unfold Evaluator.evaluateStrict Evaluator.compile
  cases ev.find? source with
  | some t => exact hvalue t.tree
  | none =>
    dsimp only
    cases hp : parse (Text.trim source) with
    | error err =>
      obtain ⟨m, hm⟩ := message?_of_parse hsource hp
      exact escapes_malformed hm
    | ok tree => exact hvalue tree

/-- A lenient evaluation returns: it gives what the strict one gives, and zero where that fails, if
there are no foreign characters outside of quotes and the precision keeps results in range. -/
theorem evaluate_eq_of_plain (ev : Evaluator) {source : String} (hsource : IsPlain source)
    (hprecision : SafePrecision ev.precision) (lookup : String → Value) (rows : List Int) :
    (ev.evaluate source lookup rows).1.1 =
      .ok (valueOrZero (ev.evaluateStrict source lookup rows).1) :=
  forgive_of_mild (evaluateStrict_mild ev hsource hprecision lookup rows) source

/-- The theorem at a text that divides by zero, with a foreign character inside of quotes. -/
theorem evaluate_eq_of_plain_quoted :
    IsPlain "'²' + 1/0" ∧
      (({} : Evaluator).evaluate "'²' + 1/0" (fun _ => .absent) []).1.1 = .ok (.number 0) := by
  have hsource : IsPlain "'²' + 1/0" := by decide +kernel
  have hstrict : (({} : Evaluator).evaluateStrict "'²' + 1/0" (fun _ => .absent) []).1 =
      .error .divisionByZero := by
    decide +kernel
  refine ⟨hsource, ?_⟩
  rw [evaluate_eq_of_plain {} hsource (Or.inr (by decide)), hstrict]
  rfl

/-- A foreign character outside of quotes, and a result that is rounded out of range, escape a
lenient evaluation. -/
theorem evaluate_escapes :
    (({} : Evaluator).evaluate "é" (fun _ => .absent) []).1.1 =
        .error (.malformed (.foreignCharacter 0)) ∧
      (({ precision := -308 } : Evaluator).evaluate "1.7976931348623157e308"
          (fun _ => .absent) []).1.1 = .error .roundingOutOfRange := by
  decide +kernel

end LiveForm.Evaluator
