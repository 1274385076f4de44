import LiveForm.Expr.SyntaxError
import LiveForm.Number.Decimal
import LiveForm.Text.Letter

/-!
# Splitting expressions into tokens

`lexeme` reads what stands in front of a text that does not start with a blank, and takes at
least one character; `tokenize` repeats it until the text is used up, and passes over blanks.
Positions count characters.

Every loop ends because what is left gets shorter; there is no fuel.
-/

namespace LiveForm.Expr

open Text

/-- A token without its position, and how many characters it takes. -/
structure Lexeme where
  kind : TokenKind
  text : String
  length : Nat
  length_pos : 0 < length

/-- Why nothing can be read in front of a text. -/
inductive LexicalFault where
  | foreign
  | unterminated
  | unexpected
  deriving DecidableEq, Repr

/-- The operators; of two that a text starts with, the longer one comes first. -/
def operators : List String :=
  ["===", "!==", "==", "!=", "<>", "<=", ">=", "&&", "||", "<", ">", "+", "-", "*", "/", "%", "!"]

/-- A character that may stand in a name behind its first one. -/
def isNameChar (c : Char) : Bool := isIdentifierChar c || c == '?'

/-- Reads up to the closing quote: the text between the quotes with its escapes resolved, and
the rest behind the quote.  A backslash stands for the character behind it, which must not end
the line. -/
def scanQuoted? (quote : Char) : List Char → Option (List Char × List Char)
  | [] => none
  | c :: r =>
    if c == quote then some ([], r)
    else if c == '\\' then
      match r with
      | [] => none
      | d :: s => if d == '\n' then none else (scanQuoted? quote s).map fun p => (d :: p.1, p.2)
    else (scanQuoted? quote r).map fun p => (c :: p.1, p.2)

/-- The operator that a text starts with. -/
def operator? (cs : List Char) : Option String :=
  operators.find? fun op => op.toList.isPrefixOf cs

theorem length_pos_of_operator? {cs : List Char} {op : String} (h : operator? cs = some op) :
    0 < op.toList.length := by
  have hm := List.mem_of_find?_eq_some h
  have hall : ∀ op ∈ operators, 0 < op.toList.length := by decide
  exact hall op hm

/-- The token in front of the text `c :: r`, where `c` is no blank. -/
def lexeme (c : Char) (r : List Char) : Except LexicalFault Lexeme :=
  if isDigitLike c || (c == '.' && r.head?.any isDigitLike) then
    match h : Number.scanNumeral? (c :: r) with
    | none => .error .foreign
    | some (_, rest) =>
      let length := (c :: r).length - rest.length
      .ok ⟨.number, .ofList ((c :: r).take length), length,
        Nat.sub_pos_of_lt (Number.scanNumeral?_length_lt h)⟩
  else if isLetter c || c == '_' then
    if isNameStart c then
      let name := c :: r.takeWhile isNameChar
      .ok ⟨.name, .ofList name, name.length, Nat.succ_pos _⟩
    else .error .foreign
  else if c == '\x22' || c == '\x27' then
    match scanQuoted? c r with
    | none => .error .unterminated
    | some (body, rest) =>
      .ok ⟨.string, .ofList body, 1 + (r.length - rest.length), Nat.add_pos_left Nat.one_pos _⟩
  else if c == '(' then .ok ⟨.lparen, "(", 1, Nat.one_pos⟩
  else if c == ')' then .ok ⟨.rparen, ")", 1, Nat.one_pos⟩
  else if c == ',' then .ok ⟨.comma, ",", 1, Nat.one_pos⟩
  else
    match h : operator? (c :: r) with
    | some op => .ok ⟨.operator, op, op.toList.length, length_pos_of_operator? h⟩
    | none => .error .unexpected

/-- The fault at a position as an error. -/
def LexicalFault.at (position : Nat) (c : Char) : LexicalFault → SyntaxError
  | foreign => .foreignCharacter position
  | unterminated => .unterminated position
  | unexpected => .unexpectedCharacter position c

/-- The tokens of a text that starts at this position, closed by an ending. -/
def tokensFrom (position : Nat) (cs : List Char) : Except SyntaxError (List Token) :=
  match cs with
  | [] => .ok [⟨.ending, "", position⟩]
  | c :: r =>
    if isBlank c then tokensFrom (position + 1) r
    else
      match lexeme c r with
      | .error fault => .error (fault.at position c)
      | .ok l =>
        match tokensFrom (position + l.length) ((c :: r).drop l.length) with
        | .error e => .error e
        | .ok ts => .ok (⟨l.kind, l.text, position⟩ :: ts)
termination_by cs.length
decreasing_by
  · simp
  · have := l.length_pos
    simp only [List.length_drop, List.length_cons]
    omega

/-- The tokens of a source, closed by an ending. -/
def tokenize (source : String) : Except SyntaxError (List Token) := tokensFrom 0 source.toList

end LiveForm.Expr
