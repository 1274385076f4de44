import LiveForm.Expr.Eval
import LiveForm.Expr.Parser

/-!
# Evaluators

An evaluator evaluates source texts under one convention for numbers and one precision.  It keeps
the tree of each text that it has parsed, with the blanks around the text left out of account, so
that a text is parsed once.  What it answers does not depend on what it has kept.
-/

namespace LiveForm

open LiveForm.Expr

/-- A tree that an evaluator keeps; the number tells the trees that it has parsed apart. -/
structure CompiledTree where
  tree : Expr
  serial : Nat

/-- An evaluator with the trees that it keeps. -/
structure Evaluator where
  locale : NumberLocale := .id
  precision : Int := 5
  /-- The trees kept, by the text they were parsed from. -/
  kept : List (String × CompiledTree) := []
  /-- How many trees were parsed so far. -/
  parsed : Nat := 0

namespace Evaluator

/-- The tree kept for a text. -/
def find? (ev : Evaluator) (source : String) : Option CompiledTree :=
  ev.kept.lookup (Text.trim source)

/-- The number of trees kept. -/
def cacheSize (ev : Evaluator) : Nat := ev.kept.length

/-- Lets go of all trees. -/
def clear (ev : Evaluator) : Evaluator := { ev with kept := [] }

/-- The tree of a text, parsed unless it is kept. -/
def compile (ev : Evaluator) (source : String) : Except SyntaxError CompiledTree × Evaluator :=
  match ev.find? source with
  | some t => (.ok t, ev)
  | none =>
    match parse (Text.trim source) with
    | .error e => (.error e, ev)
    | .ok tree =>
      let t : CompiledTree := ⟨tree, ev.parsed⟩
      (.ok t, { ev with kept := (Text.trim source, t) :: ev.kept, parsed := ev.parsed + 1 })

/-- The result of a text over a context. -/
def evaluateStrict (ev : Evaluator) (source : String) (lookup : String → Value)
    (rows : List Int) : Eval Value × Evaluator :=
  match ev.compile source with
  | (.error e, ev) => (.error (.malformed e), ev)
  | (.ok t, ev) =>
    (do finalize ev.precision (← eval ⟨lookup, rows, ev.locale⟩ t.tree), ev)

end Evaluator

/-- The result of an evaluation that does not insist: zero where there is none, with a notice why;
only an error that says that the evaluation itself is wrong is passed on. -/
def Expr.forgive (source : String) : Eval Value → Eval Value × List Notice
  | .ok v => (.ok v, [])
  | .error e =>
    if e.escapes then (.error e, e.notices)
    else (.ok (.number 0), e.notices ++ [.evaluationFailed source e.message?])

namespace Evaluator

/-- The result of a text over a context, zero if it has none, and what there is to report. -/
def evaluate (ev : Evaluator) (source : String) (lookup : String → Value) (rows : List Int) :
    (Eval Value × List Notice) × Evaluator :=
  let (r, ev) := ev.evaluateStrict source lookup rows
  (forgive source r, ev)

end Evaluator

end LiveForm
