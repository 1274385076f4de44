import LiveForm.Expr.Functions
import LiveForm.Expr.Lexer

/-!
# The variables of an expression

The names in the text of an expression that are neither words of the language nor functions.
They are found without parsing, so a malformed text has variables too: quoted texts are cut out
first, and a name does not start right behind a word character or a point.
-/

namespace LiveForm.Expr

open Text

/-- What is left of a text behind an opening quote: it ends at the closing quote, or where the
quoted text breaks off. -/
def dropQuoted (quote : Char) : List Char → List Char
  | [] => []
  | c :: r =>
    if c == quote then r
    else if c == '\\' then
      match r with
      | [] => c :: r
      | d :: s => if d == '\n' then c :: r else dropQuoted quote s
    else dropQuoted quote r

theorem dropQuoted_length_le (quote : Char) (cs : List Char) :
    (dropQuoted quote cs).length ≤ cs.length := by
  fun_induction dropQuoted quote cs <;> simp_all <;> omega

/-- The text with a space in the place of every quoted text. -/
def cutQuoted (cs : List Char) : List Char :=
  match cs with
  | [] => []
  | c :: r =>
    if c == '\x22' || c == '\x27' then ' ' :: cutQuoted (dropQuoted c r)
    else c :: cutQuoted r
termination_by cs.length
decreasing_by
  · have := dropQuoted_length_le c r
    simp only [List.length_cons]
    omega
  · simp

/-- The names in a text, from left to right; `joined` says that the character before the text
keeps a name from starting. -/
def namesIn (joined : Bool) (cs : List Char) : List String :=
  match cs with
  | [] => []
  | c :: r =>
    if isNameStart c && !joined then
      let name := c :: r.takeWhile isNameChar
      let last := (r.takeWhile isNameChar).getLastD c
      .ofList name :: namesIn (isWordChar last) (r.dropWhile isNameChar)
    else namesIn (isWordChar c || c == '.') r
termination_by cs.length
decreasing_by
  · have := (List.dropWhile_sublist (p := isNameChar) (l := r)).length_le
    simp only [List.length_cons]
    omega
  · simp

/-- The variables of an expression, each once, in the order of their first mention. -/
def variablesOf (source : String) : List String :=
  ((namesIn false (cutQuoted source.toList)).filter (!isReserved ·)).eraseDups

end LiveForm.Expr
