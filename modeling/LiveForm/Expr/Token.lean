/-!
# Tokens of expressions
-/

namespace LiveForm.Expr

/-- The lexical category of a token. -/
inductive TokenKind where
  | number
  | string
  | name
  | operator
  | lparen
  | rparen
  | comma
  | ending
  deriving DecidableEq, Repr

namespace TokenKind

/-- The word for a category in messages. -/
def word : TokenKind → String
  | number => "number"
  | string => "string"
  | name => "name"
  | operator => "operator"
  | lparen => "lparen"
  | rparen => "rparen"
  | comma => "comma"
  | ending => "end"

end TokenKind

/-- A token: its category, its text (for a quoted one what is between the quotes, with the escapes
resolved), and the position of its first character. -/
structure Token where
  kind : TokenKind
  text : String
  position : Nat
  deriving DecidableEq, Repr

namespace Token

/-- The token as it is named in messages. -/
def found (t : Token) : String := if t.text == "" then "end of expression" else t.text

end Token

end LiveForm.Expr
