import LiveForm.Toml.Document
import LiveForm.Toml.Scalar

/-!
# Reading configuration files

A file is a row of lines: an entry `key = value`, the header `[key]` of a table, the header
`[[key]]` of a further table in a list, each perhaps with a comment behind it.  Lists may run over
several lines, inline tables may not.

Every loop goes on only with a text that is shorter than the one it began with, and what it has
read in between makes it so.
-/

namespace LiveForm.Toml

/-- The text without the blanks in front. -/
def dropBlanks (cs : List Char) : List Char := cs.dropWhile isBlank

/-- The text without a comment in front, which ends before the end of its line. -/
def dropComment? : List Char → Option (List Char)
  | '#' :: r =>
    if (r.takeWhile (· != '\n')).all isLineChar then some (r.dropWhile (· != '\n')) else none
  | cs => some cs

/-- The text without the blanks, line ends and comments in front. -/
def dropFill? (inComment : Bool) : List Char → Option (List Char)
  | [] => some []
  | c :: r =>
    if inComment then
      if c == '\n' then dropFill? false r
      else if isLineChar c then dropFill? true r
      else none
    else if isFill c then dropFill? false r
    else if c == '#' then dropFill? true r
    else some (c :: r)

theorem dropFill?_length_le {inComment : Bool} {cs r : List Char}
    (h : dropFill? inComment cs = some r) : r.length ≤ cs.length := by
  induction cs generalizing inComment with
  | nil => simp_all [dropFill?]
  | cons c cs ih =>
    simp only [dropFill?] at h
    repeat' split at h
    all_goals first
      | exact Nat.le_succ_of_le (ih h)
      | simp_all

/-- Turns a failure to read into an error. -/
def orMalformed {α : Type} : Option α → Except ReadError α
  | some a => .ok a
  | none => .error .malformed

/-! ## Keys -/

/-- A key: the parts in front and the last part. -/
structure Key where
  path : List String
  last : String

/-- Reads a key of several parts with points between them, and the blanks behind it. -/
def key? (cs : List Char) : Option (Key × List Char) :=
  match keyPart? cs with
  | none => none
  | some (part, r) =>
    match mark? '.' (dropBlanks r) with
    | none => some (⟨[], part⟩, dropBlanks r)
    | some r =>
      if (dropBlanks r).length < cs.length then
        (key? (dropBlanks r)).map fun p => (⟨part :: p.1.path, p.1.last⟩, p.2)
      else none
termination_by cs.length

/-- Reads a key and the equals sign behind it. -/
def entryKey? (cs : List Char) : Option (Key × List Char) := do
  let (k, r) ← key? cs
  some (k, dropBlanks (← mark? '=' r))

/-! ## Values -/

mutual

/-- Reads data of any kind. -/
def value (cs : List Char) : Except ReadError (Data × List Char) :=
  match cs with
  | '[' :: r => (items r).map fun p => (.list p.1, p.2)
  | '\x7b' :: r =>
    match mark? '\x7d' (dropBlanks r) with
    | some rest => .ok (.table [], rest)
    | none => (pairs [] r).map fun p => (.table (entriesToData p.1), p.2)
  | cs => scalar cs
termination_by 2 * cs.length

/-- Reads the items of a list and its closing bracket. -/
def items (cs : List Char) : Except ReadError (List Data × List Char) :=
  match h : dropFill? false cs with
  | none => .error .malformed
  | some s =>
    have := dropFill?_length_le h
    match mark? ']' s with
    | some rest => .ok ([], rest)
    | none => do
      let (d, r) ← value s
      let r ← orMalformed (dropFill? false r)
      match mark? ']' r with
      | some rest => return ([d], rest)
      | none =>
        let r ← orMalformed (mark? ',' r)
        if r.length < cs.length then
          let (ds, rest) ← items r
          return (d :: ds, rest)
        else .error .malformed
termination_by 2 * cs.length + 1

/-- Reads the entries of an inline table and its closing brace, behind entries already read. -/
def pairs (es : Entries) (cs : List Char) : Except ReadError (Entries × List Char) := do
  let (k, s) ← orMalformed (entryKey? (dropBlanks cs))
  if s.length < cs.length then
    let (d, r) ← value s
    let es ← orMalformed (enter 0 k.last d k.path es)
    match mark? '\x7d' (dropBlanks r) with
    | some rest => return (es, rest)
    | none =>
      let r ← orMalformed (mark? ',' (dropBlanks r))
      if r.length < cs.length then pairs es r else .error .malformed
  else .error .malformed
termination_by 2 * cs.length

end

/-! ## Files -/

/-- The tables read so far, and where the next entry goes. -/
structure Progress where
  entries : Entries := []
  /-- The table of the latest header. -/
  header : List String := []
  /-- How many headers there were. -/
  headers : Nat := 0

/-- The tables with a header read. -/
def Progress.openHeader (p : Progress) (k : Key) (entries : Option Entries) :
    Except ReadError Progress := do
  return ⟨← orMalformed entries, k.path ++ [k.last], p.headers + 1⟩

/-- Reads an entry or a header, if one stands in front. -/
def statement (p : Progress) (cs : List Char) : Except ReadError (Progress × List Char) :=
  match cs with
  | '[' :: '[' :: r => do
    let (k, r) ← orMalformed (key? (dropBlanks r))
    let p ← p.openHeader k (addTable k.path k.last p.entries)
    return (p, ← orMalformed ((mark? ']' r).bind (mark? ']')))
  | '[' :: r => do
    let (k, r) ← orMalformed (key? (dropBlanks r))
    let p ← p.openHeader k (openTable k.path k.last p.entries)
    return (p, ← orMalformed (mark? ']' r))
  | [] | '\n' :: _ | '#' :: _ => .ok (p, cs)
  | cs => do
    let (k, r) ← orMalformed (entryKey? cs)
    let (d, r) ← value r
    let es ← orMalformed (within (enter p.headers k.last d k.path) p.header p.entries)
    return ({ p with entries := es }, r)

/-- Reads line after line. -/
def lines (p : Progress) (cs : List Char) : Except ReadError Entries := do
  let (p, r) ← statement p (dropBlanks cs)
  match ← orMalformed (dropComment? (dropBlanks r)) with
  | [] => return p.entries
  | c :: rest =>
    if c == '\n' ∧ rest.length < cs.length then lines p rest else .error .malformed
termination_by cs.length

/-- The text with every end of a line written as one character. -/
def unifyBreaks : List Char → List Char
  | '\r' :: '\n' :: r => '\n' :: unifyBreaks r
  | c :: r => c :: unifyBreaks r
  | [] => []

/-- The entries of a configuration file. -/
def read (text : String) : Except ReadError (List (String × Data)) :=
  (lines {} (unifyBreaks text.toList)).map entriesToData

end LiveForm.Toml
