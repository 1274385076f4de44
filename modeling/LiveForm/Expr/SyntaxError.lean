import LiveForm.Expr.Token
import LiveForm.Text.Quoted

/-!
# What can be wrong with the text of an expression
-/

namespace LiveForm.Expr

/-- Why a text is not an expression. -/
inductive SyntaxError where
  /-- A letter or digit outside the alphabet of names and numerals. -/
  | foreignCharacter (position : Nat)
  /-- A quote without its partner. -/
  | unterminated (position : Nat)
  /-- A character that starts no token. -/
  | unexpectedCharacter (position : Nat) (c : Char)
  /-- No tokens at all. -/
  | empty
  /-- Too many parentheses, calls and unary operators inside each other. -/
  | tooDeep (position : Nat)
  /-- A token that cannot stand where it does. -/
  | unexpected (found : String) (position : Nat)
  /-- Another token where only one kind can stand. -/
  | expected (kind : TokenKind) (found : String) (position : Nat)
  deriving DecidableEq, Repr

/-- Parentheses, calls and unary operators nested deeper than this are refused. -/
def maxNesting : Nat := 64

/-- The wording of an error; there is none for a foreign character. -/
def SyntaxError.message? : SyntaxError → Option String
  | foreignCharacter _ => none
  | unterminated p => some ("Unterminated string starting at position " ++ toString p)
  | unexpectedCharacter p c =>
    some ("Unexpected character at position " ++ toString p ++ ": " ++
      Text.quoted (String.singleton c))
  | empty => some "Empty expression"
  | tooDeep p =>
    some ("Expression nested deeper than " ++ toString maxNesting ++ " levels at position " ++
      toString p)
  | unexpected found p => some ("Unexpected " ++ Text.quoted found ++ " at position " ++ toString p)
  | expected kind found p =>
    some ("Expected " ++ kind.word ++ " at position " ++ toString p ++ ", found " ++
      Text.quoted found)

end LiveForm.Expr
