import LiveForm.Console.Wrap

/-!
# Trees on a console

The branches of a tree stand below it, each indented behind a guide line.
-/

namespace LiveForm.Console

/-- A text with branches. -/
inductive Tree where
  | node (label : List Char) (branches : List Tree)

/-- The lines of a branch behind its guide line. -/
def guide (last : Bool) : List (List Char) → List (List Char)
  | [] => []
  | l :: ls =>
    ((if last then "└── " else "├── ").toList ++ l) ::
      ls.map ((if last then "    " else "│   ").toList ++ ·)

mutual

/-- The lines of a tree on a screen of so many cells. -/
def Tree.lines (screen : Nat) : Tree → List (List Char)
  | .node label branches => wrap .fold .left screen label ++ branchLines (screen - 4) branches

def branchLines (screen : Nat) : List Tree → List (List Char)
  | [] => []
  | t :: ts => guide ts.isEmpty (t.lines screen) ++ branchLines screen ts

end

end LiveForm.Console
