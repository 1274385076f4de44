/-!
# The functions of expressions
-/

namespace LiveForm.Expr

/-- A function that expressions can call. -/
inductive Function where
  | sum
  | avg
  | min
  | max
  | count
  | sumif
  | rangeDate
  | rangeWeek
  | rangeMonth
  | rangeYear
  | cond
  | round
  | abs
  | floor
  | ceil
  | parseFloat
  deriving DecidableEq, Repr

namespace Function

def name : Function → String
  | sum => "sum"
  | avg => "avg"
  | min => "min"
  | max => "max"
  | count => "count"
  | sumif => "sumif"
  | rangeDate => "rangeDate"
  | rangeWeek => "rangeWeek"
  | rangeMonth => "rangeMonth"
  | rangeYear => "rangeYear"
  | cond => "if"
  | round => "round"
  | abs => "abs"
  | floor => "floor"
  | ceil => "ceil"
  | parseFloat => "parseFloat"

def all : List Function :=
  [sum, avg, min, max, count, sumif, rangeDate, rangeWeek, rangeMonth, rangeYear, cond, round, abs,
    floor, ceil, parseFloat]

/-- The function of this name. -/
def ofName? (name : String) : Option Function := all.find? (·.name == name)

/-- The least number of arguments, and the greatest if there is one. -/
def arity : Function → Nat × Option Nat
  | sum | avg | min | max | count => (0, none)
  | sumif => (2, some 3)
  | rangeDate | rangeWeek | rangeMonth | rangeYear => (2, some 2)
  | cond => (3, some 3)
  | round => (1, some 2)
  | abs | floor | ceil | parseFloat => (1, some 1)

/-- The function takes this number of arguments. -/
def accepts (f : Function) (n : Nat) : Bool :=
  decide (f.arity.1 ≤ n) && f.arity.2.all (n ≤ ·)

/-- The number of arguments in words. -/
def arityText (f : Function) : String :=
  match f.arity with
  | (least, none) => "at least " ++ toString least
  | (least, some most) =>
    if least = most then toString least else toString least ++ " to " ++ toString most

end Function

/-- Words that are no variables. -/
def keywords : List String := ["and", "or", "not", "true", "false"]

/-- A name that no variable has in an expression. -/
def isReserved (name : String) : Bool := keywords.contains name || (Function.ofName? name).isSome

end LiveForm.Expr
