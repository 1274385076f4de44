import LiveForm.Text.Digit

/-!
# Names of fields and variables

A field of a form may be one of a row, as in `rows[2][amount]`.  In expressions it goes by a flat
*variable name*, here `rows_2_amount`, and a *wildcard* such as `rows_?_amount` stands for the
fields of all rows at once.
-/

namespace LiveForm

open Text

namespace Name

/-! ## Flattening -/

/-- A subscript in front of the rest: what stands between the brackets. -/
def subscript? : List Char → Option (List Char × List Char)
  | '[' :: r =>
    match r.dropWhile (· != ']') with
    | _ :: rest => some (r.takeWhile (· != ']'), rest)
    | [] => none
  | _ => none

theorem subscript?_lt {cs body rest : List Char} (h : subscript? cs = some (body, rest)) :
    rest.length < cs.length := by
  unfold subscript? at h
  split at h
  · rename_i r
    split at h
    · rename_i b s hs
      simp only [Option.some.injEq, Prod.mk.injEq] at h
      obtain ⟨_, rfl⟩ := h
      have := (List.dropWhile_sublist (p := (· != ']')) (l := r)).length_le
      rw [hs] at this
      simp only [List.length_cons] at this ⊢
      omega
    · simp at h
  · simp at h

/-- Every subscript replaced by an underscore and what it holds. -/
def openSubscripts (cs : List Char) : List Char :=
  match _h : subscript? cs with
  | some (body, rest) => '_' :: body ++ openSubscripts rest
  | none =>
    match cs with
    | [] => []
    | c :: r => c :: openSubscripts r
termination_by cs.length
decreasing_by
  · exact subscript?_lt _h
  · simp

/-- A letter, a digit or an underscore, of ASCII. -/
def isVariableChar (c : Char) : Bool := c.isAlphanum || c == '_'

/-- The variable name of a field: subscripts are opened, and what cannot stand in a variable
becomes an underscore. -/
def flattenChars (cs : List Char) : List Char :=
  (openSubscripts cs).map fun c => if isVariableChar c then c else '_'

end Name

/-- The name of a field as a variable of expressions. -/
def variableName (field : String) : String := .ofList (Name.flattenChars field.toList)

namespace Name

/-! ## Rows -/

/-- The digits of the integer subscripts of a field name, from left to right. -/
def rowSubscripts (cs : List Char) : List (List Char) :=
  match cs with
  | [] => []
  | c :: r =>
    if c == '[' then
      let digits := r.takeWhile isDecimalDigit
      match r.dropWhile isDecimalDigit with
      | ']' :: _ => if digits.isEmpty then rowSubscripts r else digits :: rowSubscripts r
      | _ => rowSubscripts r
    else rowSubscripts r

/-- A number in a list without repetition in ascending order. -/
def insertSorted (n : Int) : List Int → List Int
  | [] => [n]
  | m :: r => if n < m then n :: m :: r else if n = m then m :: r else m :: insertSorted n r

/-- The numbers in ascending order, each once. -/
def sortDistinct (ns : List Int) : List Int := ns.foldl (fun acc n => insertSorted n acc) []

end Name

/-- The integer subscripts that occur in names of fields, in ascending order.  A single one with too
many digits keeps all of them from being read. -/
def rowIndices (fields : List String) : Except DigitError (List Int) := do
  let ns ← (fields.flatMap fun f => Name.rowSubscripts f.toList).mapM readDigits
  .ok (Name.sortDistinct (ns.map Int.ofNat))

/-! ## Wildcards -/

/-- The name stands for a family of variables. -/
def isWildcard (name : String) : Bool := name.toList.contains '?'

namespace Name

/-- The pattern with a text, here the digits of a row index, in the place of each wildcard. -/
def fill (pattern digits : List Char) : List Char :=
  pattern.flatMap fun c => if c == '?' then digits else [c]

/-- A run of digits in front, and then a text for which the rest holds. -/
def coversRun (rest : List Char → Bool) : List Char → Bool
  | [] => false
  | d :: cs => isDecimalDigit d && (rest cs || coversRun rest cs)

/-- The pattern covers the text: a wildcard stands for one or more digits, any other character
for itself. -/
def covers : List Char → List Char → Bool
  | [], cs => cs.isEmpty
  | '?' :: p, cs => coversRun (covers p) cs
  | c :: p, d :: cs => c == d && covers p cs
  | _ :: _, [] => false

end Name

/-- The variable that a wildcard stands for in the row of an index, unless the index has too many
digits to be written. -/
def rowVariable (pattern : String) (index : Int) : Except DigitError String := do
  .ok (.ofList (Name.fill pattern.toList (← writeInteger index)))

/-- The variables that a wildcard stands for when the rows have these indices, in the order of the
indices. -/
def expandWildcard (pattern : String) (indices : List Int) : Except DigitError (List String) :=
  (indices.mergeSort fun i j => decide (i ≤ j)).mapM (rowVariable pattern)

/-- A dependency covers a variable: it is the variable, or a wildcard that has it as an
instance. -/
def matchesVariable (dependency name : String) : Bool :=
  dependency == name ||
    (isWildcard dependency && Name.covers dependency.toList name.toList)

/-- Some name on one side covers a name on the other side. -/
def dependenciesOverlap (left right : List String) : Bool :=
  left.any fun a => right.any fun b => matchesVariable a b || matchesVariable b a

end LiveForm
