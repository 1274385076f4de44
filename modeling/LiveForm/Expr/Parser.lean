import LiveForm.Expr.Lexer
import LiveForm.Expr.Tree

/-!
# Parsing expressions

Operators bind in levels, loosest first, and group to the left on each of them:

* `or`, `||`
* `and`, `&&`
* `<`, `>`, `<=`, `>=`, `==`, `!=`, and their spellings `===`, `!==`, `<>`
* `+`, `-`
* `*`, `/`, `%`

An operand is a number, a text, `true` or `false`, a name, a call, an expression in parentheses,
or one of the prefix operators `-`, `+`, `!`, `not` in front of an operand.  Parentheses, the
arguments of calls and prefix operators count as nesting, which is limited: the parsers below
descend on the nesting that is left, and the loops over a level on the number of tokens.
-/

namespace LiveForm.Expr

/-- Reads something in front of the tokens; gives what it read and what is left. -/
abbrev Reader (α : Type) := List Token → Except SyntaxError (α × List Token)

/-- The token in front; behind the last one there is an ending. -/
def current : List Token → Token
  | [] => ⟨.ending, "", 0⟩
  | t :: _ => t

/-! ## Operators -/

/-- A token that can be an operator: words among them are names. -/
def Token.isOperatorLike (t : Token) : Bool := t.kind == .operator || t.kind == .name

/-- The operator of the loosest level that a token is. -/
def orOp? (t : Token) : Option BinaryOp :=
  if t.isOperatorLike && (t.text == "||" || t.text == "or") then some .or else none

def andOp? (t : Token) : Option BinaryOp :=
  if t.isOperatorLike && (t.text == "&&" || t.text == "and") then some .and else none

/-- The relation with this spelling. -/
def relation? (s : String) : Option Relation :=
  if s == "<" then some .lt
  else if s == ">" then some .gt
  else if s == "<=" then some .le
  else if s == ">=" then some .ge
  else if s == "==" || s == "===" then some .eq
  else if s == "!=" || s == "!==" || s == "<>" then some .ne
  else none

def comparisonOp? (t : Token) : Option BinaryOp :=
  if t.isOperatorLike then (relation? t.text).map .compare else none

def sumOp? (t : Token) : Option BinaryOp :=
  if t.isOperatorLike then
    if t.text == "+" then some (.arithmetic .add)
    else if t.text == "-" then some (.arithmetic .sub)
    else none
  else none

def productOp? (t : Token) : Option BinaryOp :=
  if t.isOperatorLike then
    if t.text == "*" then some (.arithmetic .mul)
    else if t.text == "/" then some (.arithmetic .div)
    else if t.text == "%" then some (.arithmetic .mod)
    else none
  else none

def prefixOp? (t : Token) : Option UnaryOp :=
  if t.isOperatorLike then
    if t.text == "-" then some .minus
    else if t.text == "+" then some .plus
    else if t.text == "!" || t.text == "not" then some .not
    else none
  else none

/-! ## Levels -/

/-- Goes on with a level after its first operand: as long as an operator of the level follows,
it takes one more operand and groups to the left. -/
def levelFrom (op? : Token → Option BinaryOp) (operand : Reader Expr) :
    (fuel : Nat) → Expr → Reader Expr
  | 0, left, ts => .ok (left, ts)
  | fuel + 1, left, ts =>
    match op? (current ts) with
    | none => .ok (left, ts)
    | some op =>
      match operand ts.tail with
      | .error e => .error e
      | .ok (right, rest) => levelFrom op? operand fuel (.binary op left right) rest

/-- Operands of the next tighter level between operators of this one.  Each operator is a token,
so there are no more of them than tokens. -/
def level (op? : Token → Option BinaryOp) (operand : Reader Expr) : Reader Expr := fun ts =>
  match operand ts with
  | .error e => .error e
  | .ok (left, rest) => levelFrom op? operand rest.length left rest

/-- All levels over one kind of operand. -/
def levels (operand : Reader Expr) : Reader Expr :=
  level orOp? (level andOp? (level comparisonOp? (level sumOp? (level productOp? operand))))

/-! ## Operands -/

/-- Requires a token of a kind. -/
def expect (kind : TokenKind) (ts : List Token) : Except SyntaxError (List Token) :=
  let t := current ts
  if t.kind = kind then .ok ts.tail else .error (.expected kind t.found t.position)

/-- The arguments of a call behind its first one, up to the closing parenthesis. -/
def argumentsFrom (argument : Reader Expr) : (fuel : Nat) → List Expr → Reader (List Expr)
  | 0, args, ts => (expect .rparen ts).map fun rest => (args.reverse, rest)
  | fuel + 1, args, ts =>
    if (current ts).kind = .comma then
      match argument ts.tail with
      | .error e => .error e
      | .ok (arg, rest) => argumentsFrom argument fuel (arg :: args) rest
    else (expect .rparen ts).map fun rest => (args.reverse, rest)

/-- The arguments of a call, in parentheses. -/
def arguments (argument : Reader Expr) : Reader (List Expr) := fun ts =>
  match expect .lparen ts with
  | .error e => .error e
  | .ok ts =>
    if (current ts).kind = .rparen then .ok ([], ts.tail)
    else
      match argument ts with
      | .error e => .error e
      | .ok (arg, rest) => argumentsFrom argument rest.length [arg] rest

/-- An operand without a prefix operator, given how to read what is nested in it. -/
def primary (nested : Reader Expr) : Reader Expr := fun ts =>
  let t := current ts
  match t.kind with
  | .number => .ok (.literal (.number ((Number.readNumber? t.text).getD 0)), ts.tail)
  | .string => .ok (.literal (.text t.text), ts.tail)
  | .lparen =>
    match nested ts.tail with
    | .error e => .error e
    | .ok (e, rest) => (expect .rparen rest).map fun rest => (e, rest)
  | .name =>
    if t.text == "true" then .ok (.literal (.flag true), ts.tail)
    else if t.text == "false" then .ok (.literal (.flag false), ts.tail)
    else if (current ts.tail).kind = .lparen then
      (arguments nested ts.tail).map fun p => (.call t.text p.1, p.2)
    else .ok (.name t.text, ts.tail)
  | _ => .error (.unexpected t.found t.position)

/-- An operand, given how to read an operand and an expression that are nested in it. -/
def operandWith (nestedOperand nested : Reader Expr) : Reader Expr := fun ts =>
  match prefixOp? (current ts) with
  | some op => (nestedOperand ts.tail).map fun p => (.unary op p.1, p.2)
  | none => primary nested ts

/-- Refuses to nest any deeper. -/
def refuseNesting : Reader Expr := fun ts => .error (.tooDeep (current ts).position)

/-- An operand in which so many further levels of nesting are allowed. -/
def operand : (nesting : Nat) → Reader Expr
  | 0 => operandWith refuseNesting refuseNesting
  | nesting + 1 => operandWith (operand nesting) (levels (operand nesting))

/-- An expression in which so many further levels of nesting are allowed. -/
def expression (nesting : Nat) : Reader Expr := levels (operand nesting)

/-- The expression that all the tokens up to the ending make. -/
def ofTokens (ts : List Token) : Except SyntaxError Expr :=
  if (current ts).kind = .ending then .error .empty
  else
    match expression maxNesting ts with
    | .error e => .error e
    | .ok (e, rest) =>
      let t := current rest
      if t.kind = .ending then .ok e else .error (.unexpected t.text t.position)

/-- The expression that a source text is. -/
def parse (source : String) : Except SyntaxError Expr :=
  match tokenize source with
  | .error e => .error e
  | .ok ts => ofTokens ts

end LiveForm.Expr
