import LiveForm.Expr.Criteria
import LiveForm.Expr.EvalError
import LiveForm.Name
import LiveForm.Number.Sum
import LiveForm.Value.Format

/-!
# Evaluating expressions

An expression is evaluated over a `Context`: what the variables hold, which rows there are, and
how texts are read as numbers.  Functions get their arguments unevaluated, so that aggregates can
expand wildcards and dates can be read from the texts of fields.

Evaluation descends on the depth that is left, which an expression in practice does not use up.
-/

namespace LiveForm.Expr

open Text

/-- What an expression is evaluated over. -/
structure Context where
  /-- What a variable holds. -/
  lookup : String → Value
  /-- The indices of the rows, in ascending order. -/
  rows : List Int
  locale : NumberLocale

/-- The outcome of evaluating. -/
abbrev Eval := Except EvalError

/-- Evaluation of the parts of an expression. -/
abbrev Evaluation := Expr → Eval Value

/-- The value counts as true: a text with something but blanks, a number other than zero. -/
def truthy : Value → Bool
  | .absent => false
  | .flag b => b
  | .integer i => i != 0
  | .number x => !x.isZero
  | .text s => !allBlank s
  | .date _ | .moment _ => true

namespace Context

variable (ctx : Context)

/-- The number that a value counts as. -/
def number (v : Value) : Eval Binary64 :=
  match v.toNumber? ctx.locale with
  | some x => .ok x
  | none => .error .arithmetic

/-- The value of an expression; for a variable what it holds, unread. -/
def raw (eval : Evaluation) : Evaluation
  | .name n => .ok (match ctx.lookup n with
    | .absent => .text ""
    | v => v)
  | e => eval e

/-- What a wildcard stands for: the rows in which its instance holds something.  No instance is
looked up if the index of one of the rows cannot be written. -/
def rowValues (pattern : String) : Eval (List (Int × Value)) :=
  match ctx.rows.mapM (rowVariable pattern) with
  | .ok names =>
    .ok (((ctx.rows.zip names).map fun p => (p.1, ctx.lookup p.2)).filter fun p => p.2 != .absent)
  | .error .tooMany => .error .tooManyDigits

/-- The values that an argument of an aggregate stands for, with the index of the row if it is a
wildcard; texts are left as they are. -/
def expandRaw (eval : Evaluation) (e : Expr) : Eval (List (Option Int × Value)) :=
  match e with
  | .name n =>
    if isWildcard n then do .ok ((← ctx.rowValues n).map fun p => (some p.1, p.2))
    else do .ok [(none, ← ctx.raw eval e)]
  | e => do .ok [(none, ← ctx.raw eval e)]

/-- The values that an argument of an aggregate stands for, where those of rows are read as
numbers. -/
def expand (eval : Evaluation) (e : Expr) : Eval (List (Option Int × Value)) :=
  match e with
  | .name n =>
    if isWildcard n then
      do (← ctx.rowValues n).mapM fun p => do .ok (some p.1, .number (← ctx.number p.2))
    else do .ok [(none, ← eval e)]
  | e => do .ok [(none, ← eval e)]

/-- The numbers that the arguments of an aggregate stand for. -/
def numbers (eval : Evaluation) (args : List Expr) : Eval (List Binary64) := do
  let xss ← args.mapM fun e => do (← ctx.expand eval e).mapM fun p => ctx.number p.2
  .ok xss.flatten

end Context

/-! ## Aggregates -/

/-- The exact sum, rounded once. -/
def sumOf (xs : List Binary64) : Eval Binary64 :=
  match Binary64.sum xs with
  | .ok x => .ok x
  | .error .overflow => .error .arithmetic
  | .error .oppositeInfinities => .error .undefinedOperation

/-- The least of some numbers, the first one if there are several; zero of none. -/
def least : List Binary64 → Binary64
  | [] => 0
  | x :: xs => xs.foldl (fun m y => if y < m then y else m) x

/-- The greatest of some numbers, the first one if there are several; zero of none. -/
def greatest : List Binary64 → Binary64
  | [] => 0
  | x :: xs => xs.foldl (fun m y => if m < y then y else m) x

/-- Whether a value of a row satisfies a criteria. -/
def satisfies (value criteria : Value) : Eval Bool :=
  match matchCriteria value criteria with
  | .ok b => .ok b
  | .error .outOfRange => .error .arithmetic
  | .error .tooManyDigits => .error .tooManyDigits

/-- The values that a conditional sum adds up: for each row that satisfies the criteria the value
of the sum range with the same index, if both ranges are wildcards, and otherwise the one at the
same place. -/
def selected (criteriaRows sumRows : List (Option Int × Value)) (criteria : Value) :
    Eval (List Value) :=
  let indexed := sumRows.any fun p => p.1.isSome
  go indexed sumRows criteriaRows
where
  /-- `places` are the values of the sum range from the place of the row on. -/
  go (indexed : Bool) (places : List (Option Int × Value)) :
      List (Option Int × Value) → Eval (List Value)
    | [] => .ok []
    | (index, value) :: rows => do
      let here : List Value :=
        if index.isSome && indexed then
          [((sumRows.find? fun p => p.1 == index).map (·.2)).getD (.integer 0)]
        else (places.head?.map (·.2)).toList
      let chosen ← satisfies value criteria
      let rest ← go indexed places.tail rows
      .ok (if chosen then here ++ rest else rest)

/-- The sum over the rows that satisfy a criteria. -/
def sumWhere (ctx : Context) (eval : Evaluation) (range criteria : Expr) (sumRange : Option Expr) :
    Eval Binary64 := do
  let rows ← ctx.expandRaw eval range
  let criteria ← eval criteria
  let values ← match sumRange with
    | none => (rows.filterMapM fun p => do
        .ok (if ← satisfies p.2 criteria then some p.2 else none) : Eval (List Value))
    | some e => do selected rows (← ctx.expand eval e) criteria
  sumOf (← values.mapM ctx.number)

/-! ## Dates -/

/-- The date that an argument shows, if it does. -/
def dateOf (ctx : Context) (eval : Evaluation) (e : Expr) : Eval (Option Date) := do
  match (← ctx.raw eval e).toDate with
  | .ok d => .ok d
  | .error .tooMany => .error .tooManyDigits

/-- A difference of two dates that arguments show; zero if one of them is no date. -/
def dateRange (ctx : Context) (eval : Evaluation) (difference : Date → Date → Int)
    (start finish : Expr) : Eval Binary64 := do
  let a ← dateOf ctx eval start
  let b ← dateOf ctx eval finish
  match a, b with
  | some a, some b => .ok (.ofInt (difference a b))
  | _, _ => .ok 0

def daysBetween (a b : Date) : Int := b.dayNumber - a.dayNumber

/-- Weeks that have begun count whole. -/
def weeksBetween (a b : Date) : Int := -(-daysBetween a b).fdiv 7

def monthsBetween (a b : Date) : Int :=
  ((b.year : Int) - a.year) * 12 + ((b.month : Int) - a.month)

def yearsBetween (a b : Date) : Int := (b.year : Int) - a.year

/-! ## Rounding -/

/-- The number rounded to a number of places, half away from zero as spreadsheets do it: scaled,
brought to an integer, and scaled back. -/
def roundHalfAway (x : Binary64) (places : Int) : Eval Binary64 :=
  if 308 < places then .error .arithmetic
  else
    let scale : Binary64 :=
      if 0 ≤ places then .ofInt (Nat.pow 10 places.toNat) else .ofDecimal false 1 places
    let scaled := x.abs * scale + .ofRatio false 1 2
    if scaled.isNaN then .error .undefinedOperation
    else match scaled.floor? with
      | none => .error .arithmetic
      | some n =>
        if 0 ≤ places then
          .ok (Binary64.copySign (.ofRatio (decide (n < 0)) n.natAbs (Nat.pow 10 places.toNat)) x)
        else if scale.isZero then .error .arithmetic
        else .ok (Binary64.copySign (.ofInt n / scale) x)

/-- An integer near a number, as a number. -/
def integerNear (near? : Binary64 → Option Int) (x : Binary64) : Eval Binary64 :=
  match near? x with
  | some n => .ok (.ofInt n)
  | none => .error .arithmetic

/-! ## Functions -/

/-- The value of a call with a number of arguments that the function accepts. -/
def Function.apply (f : Function) (ctx : Context) (eval : Evaluation) (args : List Expr) :
    Eval Value := do
  let numberOf (e : Expr) : Eval Binary64 := do ctx.number (← eval e)
  match f, args with
  | .sum, args => .number <$> sumOf (← ctx.numbers eval args)
  | .avg, args => do
    let xs ← ctx.numbers eval args
    let total ← sumOf xs
    .ok (.number (if xs.isEmpty then 0 else total / .ofInt xs.length))
  | .min, args => do .ok (.number (least (← ctx.numbers eval args)))
  | .max, args => do .ok (.number (greatest (← ctx.numbers eval args)))
  | .count, args => do
    let counts ← args.mapM fun e => List.length <$> ctx.expand eval e
    let count : Nat := counts.foldl (· + ·) 0
    .ok (.number (.ofInt count))
  | .sumif, [range, criteria] => .number <$> sumWhere ctx eval range criteria none
  | .sumif, [range, criteria, sumRange] =>
    .number <$> sumWhere ctx eval range criteria (some sumRange)
  | .rangeDate, [a, b] => .number <$> dateRange ctx eval daysBetween a b
  | .rangeWeek, [a, b] => .number <$> dateRange ctx eval weeksBetween a b
  | .rangeMonth, [a, b] => .number <$> dateRange ctx eval monthsBetween a b
  | .rangeYear, [a, b] => .number <$> dateRange ctx eval yearsBetween a b
  | .cond, [c, yes, no] => do if truthy (← eval c) then eval yes else eval no
  | .round, [e] => do .number <$> roundHalfAway (← numberOf e) 0
  | .round, [e, places] => do
    let x ← numberOf e
    match (← numberOf places).truncate? with
    | some n => .number <$> roundHalfAway x n
    | none => .error .arithmetic
  | .abs, [e] => do .ok (.number (← numberOf e).abs)
  | .floor, [e] => do .number <$> integerNear Binary64.floor? (← numberOf e)
  | .ceil, [e] => do .number <$> integerNear Binary64.ceil? (← numberOf e)
  | .parseFloat, [e] => do .number <$> ctx.number (← ctx.raw eval e)
  | f, args => .error (.wrongArity f args.length)

/-- The value of a call. -/
def evalCall (ctx : Context) (eval : Evaluation) (name : String) (args : List Expr) : Eval Value :=
  match Function.ofName? name with
  | none => .error (.unknownFunction name)
  | some f =>
    if f.accepts args.length then f.apply ctx eval args
    else .error (.wrongArity f args.length)

/-! ## Operators -/

/-- A text constant. -/
def isTextLiteral : Expr → Bool
  | .literal (.text _) => true
  | _ => false

/-- An operand that is compared with a text: a text or a flag as the field shows it, a number
otherwise. -/
def scalar (ctx : Context) (eval : Evaluation) (e : Expr) : Eval Value := do
  let v ← ctx.raw eval e
  match v.coerce with
  | .text s => .ok (.text s)
  | .flag b => .ok (.flag b)
  | _ => .number <$> ctx.number v

/-- A relation between two values: between texts it is that of texts, a text never equals another
kind of value, and otherwise both sides are read as numbers. -/
def compareValues (ctx : Context) (r : Relation) (a b : Value) : Eval Bool :=
  match a, b, r with
  | .text s, .text t, r => .ok (r.holdsText s t)
  | .text _, _, .eq | _, .text _, .eq => .ok false
  | .text _, _, .ne | _, .text _, .ne => .ok true
  | a, b, r => do
    let x ← ctx.number a
    let y ← ctx.number b
    .ok (r.holds x y)

/-- An operation on two numbers. -/
def arithmetic (op : ArithmeticOp) (x y : Binary64) : Eval Binary64 :=
  match op with
  | .add => .ok (x + y)
  | .sub => .ok (x - y)
  | .mul => .ok (x * y)
  | .div => if y.isZero then .error .divisionByZero else .ok (x / y)
  | .mod =>
    if y.isZero then .error .divisionByZero
    else match x.mod? y with
      | some z => .ok z
      | none => .error .undefinedOperation

/-- The value is a text. -/
def isText : Value → Bool
  | .text _ => true
  | _ => false

/-- An operation on two values; a sum with a text joins the texts of both. -/
def combine (ctx : Context) (op : ArithmeticOp) (a b : Value) : Eval Value :=
  if op = .add ∧ (isText a ∨ isText b) then
    match a.plainText, b.plainText with
    | .ok s, .ok t => .ok (.text (s ++ t))
    | _, _ => .error .tooManyDigits
  else do
    let x ← ctx.number a
    let y ← ctx.number b
    .number <$> arithmetic op x y

/-! ## Expressions -/

/-- The value of an expression, given the values of its parts. -/
def evalWith (ctx : Context) (eval : Evaluation) : Evaluation
  | .literal l => .ok l.value
  | .name n =>
    if isWildcard n then .error (.rowWildcard n) else .number <$> ctx.number (ctx.lookup n)
  | .unary op e => do
    let v ← eval e
    match op with
    | .not => .ok (.flag !truthy v)
    | .minus => do .ok (.number (← ctx.number v).neg)
    | .plus => .number <$> ctx.number v
  | .binary .and a b => do
    if truthy (← eval a) then .ok (.flag (truthy (← eval b))) else .ok (.flag false)
  | .binary .or a b => do
    if truthy (← eval a) then .ok (.flag true) else .ok (.flag (truthy (← eval b)))
  | .binary (.compare r) a b => do
    let operand := if isTextLiteral a || isTextLiteral b then scalar ctx eval else eval
    let x ← operand a
    let y ← operand b
    .flag <$> compareValues ctx r x y
  | .binary (.arithmetic op) a b => do
    let x ← eval a
    let y ← eval b
    combine ctx op x y
  | .call f args => evalCall ctx eval f args

/-- How deep operators and calls may be nested to be evaluated. -/
def maxDepth : Nat := 960

/-- The value of an expression that is at most so deep. -/
def evalWithin (ctx : Context) : (depth : Nat) → Evaluation
  | 0 => fun _ => .error .tooDeep
  | depth + 1 => evalWith ctx (evalWithin ctx depth)

/-- The value of an expression. -/
def eval (ctx : Context) : Evaluation := evalWithin ctx maxDepth

/-! ## Results -/

/-- A value as a result: a text as it is, and a number rounded to some places so that what
rounding errors left settles; a zero is positive. -/
def finalize (precision : Int) (v : Value) : Eval Value :=
  match v with
  | .text s => .ok (.text s)
  | .flag b => .ok (.number (if b then 1 else 0))
  | v =>
    match v.asNumber with
    | .error .outOfRange => .error .roundingOutOfRange
    | .error .notANumber => .error .notANumber
    | .error .tooManyDigits => .error .tooManyDigits
    | .ok x =>
      if !x.isFinite then .error (.nonFinite x)
      else
        let rounded := x.roundPlaces precision
        if rounded.isFinite then .ok (.number (rounded + 0)) else .error .roundingOutOfRange

end LiveForm.Expr
