import LiveForm.Expr.Tree
import LiveForm.Value.Locale

/-!
# Criteria on rows

A criteria is a value that a row should equal, or a text that starts with a relation, as in
`>100` or `<>paid`.  Numbers are compared as numbers and anything else as text; between a text
and a number there is no order.
-/

namespace LiveForm.Expr

open Text

/-- The relation holds between two numbers. -/
def Relation.holds (r : Relation) (x y : Binary64) : Bool :=
  match r with
  | lt => x.lt y
  | gt => y.lt x
  | le => x.le y
  | ge => y.le x
  | eq => x.eqv y
  | ne => !x.eqv y

/-- The relation holds between two texts, ordered by code points. -/
def Relation.holdsText (r : Relation) (s t : String) : Bool :=
  match r with
  | lt => decide (s < t)
  | gt => decide (t < s)
  | le => decide (s < t) || s == t
  | ge => decide (t < s) || s == t
  | eq => s == t
  | ne => s != t

namespace Criteria

/-- The relations that a criteria can start with; longer spellings come first. -/
def spellings : List (String × Relation) :=
  [(">=", .ge), ("<=", .le), ("<>", .ne), ("!=", .ne), ("==", .eq), (">", .gt), ("<", .lt),
    ("=", .eq)]

/-- The relation and the target of a criteria. -/
def split : Value → Relation × Value
  | .text s =>
    let cs := trimChars s.toList
    match spellings.find? fun p => p.1.toList.isPrefixOf cs with
    | some (symbol, r) => (r, .text (.ofList (trimChars (cs.drop symbol.toList.length))))
    | none => (.eq, .text (.ofList cs))
  | v => (.eq, v)

/-- The number that a scalar is in comparisons, and whether it is one: `none` for a text, and no
number for an integer out of range. -/
def asNumber : Value → Option (Option Binary64)
  | .flag b => some (some (if b then 1 else 0))
  | .integer i =>
    let x := Binary64.ofInt i
    some (if x.isFinite then some x else none)
  | .number x => some (some x)
  | _ => none

end Criteria

/-- Why a criteria has no answer. -/
inductive CriteriaError where
  /-- An integer out of the range of numbers. -/
  | outOfRange
  /-- An integer with too many digits to be compared as text. -/
  | tooManyDigits
  deriving DecidableEq, Repr

/-- The text of a value of a row in comparisons. -/
def Criteria.shownText : Value → Except DigitError String
  | .absent => .ok ""
  | v => do .ok (trim (← v.toText))

/-- Two texts that may fail to be there are related. -/
def Criteria.compareTexts (related : String → String → Bool)
    (shown target : Except DigitError String) : Except CriteriaError Bool :=
  match shown, target with
  | .ok s, .ok t => .ok (related s t)
  | _, _ => .error .tooManyDigits

/-- A value of a row satisfies a criteria. -/
def matchCriteria (value criteria : Value) : Except CriteriaError Bool :=
  let (relation, target) := Criteria.split criteria
  match Criteria.asNumber value.coerce, Criteria.asNumber target.coerce with
  | some (some x), some (some y) => .ok (relation.holds x y)
  | some _, some _ => .error .outOfRange
  | _, _ =>
    match relation with
    | .eq => Criteria.compareTexts (· == ·) (Criteria.shownText value) target.toText
    | .ne => Criteria.compareTexts (· != ·) (Criteria.shownText value) target.toText
    | _ => .ok false

end LiveForm.Expr
