import LiveForm.Value.Basic

/-!
# Expressions as trees
-/

namespace LiveForm.Expr

/-- A constant of an expression. -/
inductive Literal where
  | number (x : Binary64)
  | text (s : String)
  | flag (b : Bool)
  deriving DecidableEq

/-- The value of a constant. -/
def Literal.value : Literal → Value
  | number x => .number x
  | text s => .text s
  | flag b => .flag b

/-- An operator with one operand. -/
inductive UnaryOp where
  | minus
  | plus
  | not
  deriving DecidableEq, Repr

/-- A relation between two operands. -/
inductive Relation where
  | lt
  | gt
  | le
  | ge
  | eq
  | ne
  deriving DecidableEq, Repr

/-- An operation on two numbers; a sum may also join texts. -/
inductive ArithmeticOp where
  | add
  | sub
  | mul
  | div
  | mod
  deriving DecidableEq, Repr

/-- An operator with two operands. -/
inductive BinaryOp where
  | or
  | and
  | compare (r : Relation)
  | arithmetic (op : ArithmeticOp)
  deriving DecidableEq, Repr

/-- The one spelling of an operator in a tree. -/
def UnaryOp.symbol : UnaryOp → String
  | minus => "-"
  | plus => "+"
  | not => "not"

/-- The one spelling of an operator in a tree. -/
def BinaryOp.symbol : BinaryOp → String
  | or => "or"
  | and => "and"
  | compare .lt => "<"
  | compare .gt => ">"
  | compare .le => "<="
  | compare .ge => ">="
  | compare .eq => "=="
  | compare .ne => "!="
  | arithmetic .add => "+"
  | arithmetic .sub => "-"
  | arithmetic .mul => "*"
  | arithmetic .div => "/"
  | arithmetic .mod => "%"

end LiveForm.Expr

namespace LiveForm

/-- An expression over the variables of a form. -/
inductive Expr where
  | literal (l : Expr.Literal)
  | name (n : String)
  | unary (op : Expr.UnaryOp) (operand : Expr)
  | binary (op : Expr.BinaryOp) (left right : Expr)
  | call (function : String) (args : List Expr)

end LiveForm
