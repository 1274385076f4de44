import LiveForm.Console.Width
import LiveForm.Text.Blank

/-!
# Breaking text into lines

A text that is wider than the room it gets is broken between its words.  A word that is wider than
a whole line is folded over several lines, or left to be cut off with an ellipsis.
-/

namespace LiveForm.Console

open Text

/-- What becomes of a word that is wider than a line. -/
inductive Overflow where
  | fold
  | ellipsis
  deriving DecidableEq

/-- Where text stands in the room it gets. -/
inductive Align where
  | left
  | right
  deriving DecidableEq

/-- The first characters that together take at most so many cells, and the others. -/
def fit (room : Nat) : List Char → List Char × List Char
  | [] => ([], [])
  | c :: r =>
    if charWidth c ≤ room then
      let (fits, rest) := fit (room - charWidth c) r
      (c :: fits, rest)
    else ([], c :: r)

theorem fit_append (room : Nat) (cs : List Char) : (fit room cs).1 ++ (fit room cs).2 = cs := by
  induction cs generalizing room with
  | nil => rfl
  | cons c r ih =>
    simp only [fit]
    split
    · simp [ih]
    · rfl

theorem width_fit_le (room : Nat) (cs : List Char) : width (fit room cs).1 ≤ room := by
  induction cs generalizing room with
  | nil => simp [fit]
  | cons c r ih =>
    simp only [fit]
    split
    · have := ih (room - charWidth c)
      simp only [width_cons]
      omega
    · simp

/-- Blanks. -/
def blanks (n : Nat) : List Char := List.replicate n ' '

/-- The text cut off or filled up with blanks to take exactly so many cells. -/
def resize (room : Nat) (cs : List Char) : List Char :=
  let fits := (fit room cs).1
  fits ++ blanks (room - width fits)

/-- The text without the blanks at its end. -/
def dropEndBlanks (cs : List Char) : List Char := (dropBlanks cs.reverse).reverse

/-- A text of more cells than there is room for, cut off with an ellipsis or without. -/
def truncate (overflow : Overflow) (room : Nat) (cs : List Char) : List Char :=
  if width cs ≤ room then cs
  else
    match overflow with
    | .ellipsis => resize (room - 1) cs ++ ['…']
    | .fold => resize room cs

/-! ## Words -/

/-- The words of a text, each with the blanks behind it; the first one also has those in front. -/
def words (cs : List Char) : List (List Char) :=
  match cs with
  | [] => []
  | c :: r =>
    let front := (c :: r).takeWhile isBlank
    let s := (c :: r).dropWhile isBlank
    let body := s.takeWhile (!isBlank ·)
    let t := s.dropWhile (!isBlank ·)
    if t.length < (c :: r).length ∧ body ≠ [] then
      (front ++ body ++ t.takeWhile isBlank) :: words (t.dropWhile isBlank)
    else []
termination_by cs.length
decreasing_by
  rename_i h
  exact Nat.lt_of_le_of_lt (List.dropWhile_sublist _).length_le h.1

/-- A word folded into pieces that each fit into a line. -/
def foldWord (room : Nat) (word : List Char) : List (List Char) :=
  match word with
  | [] => [[]]
  | c :: r =>
    let (fits, rest) := fit (room - charWidth c) r
    if rest = [] then [c :: fits]
    else if rest.length < (c :: r).length then (c :: fits) :: foldWord room rest
    else [c :: r]
termination_by word.length
decreasing_by assumption

/-- The lines so far, the latest first, and the cells that the latest one takes. -/
structure Broken where
  lines : List (List Char) := []
  cells : Nat := 0

/-- The lines with a text put at the end of the latest one. -/
def Broken.extend (b : Broken) (cs : List Char) : Broken :=
  { b with lines := match b.lines with
      | [] => [cs]
      | l :: ls => (l ++ cs) :: ls }

/-- The lines with a text as a line of its own. -/
def Broken.startLine (b : Broken) (cs : List Char) : Broken := { b with lines := cs :: b.lines }

/-- Nothing was put into any line yet. -/
def Broken.isEmpty (b : Broken) : Bool := b.lines.all (·.isEmpty)

/-- Puts a word at the end of the text, in a further line if there is something before it. -/
def Broken.put (b : Broken) (cs : List Char) : Broken :=
  if b.isEmpty then b.extend cs else b.startLine cs

/-- Puts a word into the latest line if there is room for it, and else into a further line. -/
def Broken.addWord (overflow : Overflow) (room : Nat) (b : Broken) (word : List Char) : Broken :=
  let needed := width (dropEndBlanks word)
  if b.cells + needed ≤ room then { b.extend word with cells := b.cells + width word }
  else if room < needed then
    match overflow with
    | .fold =>
      let pieces := foldWord room word
      { pieces.foldl Broken.put b with cells := width (pieces.getLastD []) }
    | .ellipsis => { b.put word with cells := width word }
  else if b.cells ≠ 0 ∧ !b.isEmpty then { b.startLine word with cells := width word }
  else b.extend word

/-- The lines into which a text without line ends is broken. -/
def breakLine (overflow : Overflow) (room : Nat) (cs : List Char) : List (List Char) :=
  match ((words cs).foldl (Broken.addWord overflow room) {}).lines.reverse with
  | [] => [cs]
  | ls => ls

/-! ## Text -/

/-- The lines of a text. -/
def splitLines (cs : List Char) : List (List Char) :=
  cs.foldr (fun c ls =>
    if c == '\n' then [] :: ls
    else match ls with
      | [] => [[c]]
      | l :: rest => (c :: l) :: rest) [[]]

/-- A line with each tab filled up with blanks to the next eighth cell. -/
def expandTabs (cs : List Char) : List Char :=
  (cs.foldl (fun (acc : List Char × Nat) c =>
    if c == '\t' then
      let n := 8 - acc.2 % 8
      (acc.1 ++ blanks n, acc.2 + n)
    else (acc.1 ++ [c], acc.2 + charWidth c)) ([], 0)).1

/-- A line without as many blanks at its end as it is too wide. -/
def cropEnd (room : Nat) (cs : List Char) : List Char :=
  let excess := cs.length - room
  cs.take (cs.length - min excess (cs.length - (dropEndBlanks cs).length))

/-- A line put where it stands in a room: on the right without the blanks at its end. -/
def place (overflow : Overflow) (align : Align) (room : Nat) (cs : List Char) : List Char :=
  match align with
  | .left => truncate overflow room (cropEnd room cs)
  | .right =>
    let cs := truncate overflow room (dropEndBlanks cs)
    blanks (room - width cs) ++ cs

/-- The lines that a text takes in a room of so many cells. -/
def wrap (overflow : Overflow) (align : Align) (room : Nat) (cs : List Char) : List (List Char) :=
  (splitLines cs).flatMap fun l =>
    (breakLine overflow room (if l.contains '\t' then expandTabs l else l)).map
      (place overflow align room)

end LiveForm.Console
