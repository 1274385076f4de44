import LiveForm.Console.Markup
import LiveForm.Console.Wrap
import LiveForm.Number.Binary64

/-!
# Tables on a console

A table has a heavy frame around its titles and a light one around its rows.  Its columns are as
wide as their contents, and one blank on each side; when that is wider than the screen, the widest
columns are narrowed first.
-/

namespace LiveForm.Console

/-- A column: its title and where its texts stand. -/
structure Column where
  title : String
  align : Align := .left

/-! ## Widths -/

/-- A character behind which a line of its own begins when widths are measured. -/
def isLineEnd (c : Char) : Bool :=
  [0x0a, 0x1c, 0x1d, 0x1e, 0x85, 0x2028, 0x2029].contains c.toNat

/-- The cells that the widest line of a text takes. -/
def natural (cs : List Char) : Nat :=
  ((splitLines (cs.map fun c => if isLineEnd c then '\n' else c)).map width).foldl max 0

/-- Takes so many cells away from the columns that are marked, evenly and at most `most` from
each. -/
def reduce (excess most : Nat) : List (Nat × Bool) → List Nat
  | [] => []
  | (w, true) :: rest =>
    let share := min most (roundDiv excess (1 + (rest.filter (·.2)).length))
    (w - share) :: reduce (excess - share) most rest
  | (w, false) :: rest => w :: reduce excess most rest

/-- The cells that columns take together. -/
def total (ws : List Nat) : Nat := ws.foldl (· + ·) 0

/-- Narrows the widest columns to the width of the next widest one until all fit, in at most so
many rounds. -/
def narrow (room : Nat) : (rounds : Nat) → List Nat → List Nat
  | 0, ws => ws
  | n + 1, ws =>
    let excess := total ws - room
    if excess = 0 then ws
    else
      let widest := ws.foldl max 0
      let second := (ws.filter (· != widest)).foldl max 0
      narrow room n
        (reduce excess (min excess (widest - second)) (ws.map fun w => (w, w == widest)))

/-- The widths of columns, blanks at the sides included, so that they fit into a room.  A column
that is wider than the room counts as wide as the room. -/
def columnWidths (room : Nat) (columns : List (List (List Char))) : List Nat :=
  let ws := columns.map fun cells => min room ((cells.map natural).foldl max 0 + 2)
  narrow room (total ws) ws

/-! ## Rendering -/

/-- The lines of a cell, each of them as wide as the column. -/
def cellLines (align : Align) (columnWidth : Nat) (cell : List Char) : List (List Char) :=
  let room := columnWidth - 2
  (wrap .ellipsis align room cell).map fun l => ' ' :: resize room l ++ [' ']

/-- The lines of a row, with this mark at the borders of its cells. -/
def rowLines (border : Char) (columns : List (Align × Nat)) (cells : List (List Char)) :
    List (List Char) :=
  let parts := (columns.zip cells).map fun ((align, w), cell) => (w, cellLines align w cell)
  let height := (parts.map (·.2.length)).foldl max 0
  (List.range height).map fun i =>
    border :: parts.flatMap fun (w, ls) => (ls[i]?.getD (blanks w)) ++ [border]

/-- A line of the frame. -/
def rule (left line cross right : Char) (widths : List Nat) : List Char :=
  left :: List.intercalate [cross] (widths.map fun w => List.replicate w line) ++ [right]

/-- The lines of a table on a screen of so many cells. -/
def table (screen : Nat) (columns : List Column) (rows : List (List String)) :
    List (List Char) :=
  let titles := columns.map (·.title.toList)
  let rows := rows.map (·.map shown)
  let contents := (List.range columns.length).map fun i =>
    (titles :: rows).map fun cells => cells[i]?.getD []
  let widths := columnWidths (screen - (columns.length + 1)) contents
  let shape := (columns.map (·.align)).zip widths
  [rule '┏' '━' '┳' '┓' widths] ++ rowLines '┃' shape titles ++
    [rule '┡' '━' '╇' '┩' widths] ++ rows.flatMap (rowLines '│' shape) ++
    [rule '└' '─' '┴' '┘' widths]

end LiveForm.Console
