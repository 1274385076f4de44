import LiveForm.Data

/-!
# Tables of configuration files

The tables of a file grow while it is read.  A header opens a table, or adds a table to a list of
tables; the keys behind it may have several parts, which lead through tables of their own.  Each
table remembers how it came to be, because that decides who may still add to it:

* a table that only a deeper header named may be opened by a header, or by dotted keys,
* a table that dotted keys made belongs to the section they stand in,
* a table that a header opened may not be opened again, and
* a value, inline tables and lists included, is closed.
-/

namespace LiveForm.Toml

/-- How a table came to be. -/
inductive Origin where
  /-- Named in front of a deeper table. -/
  | implied
  /-- Opened by a header. -/
  | declared
  /-- Made by dotted keys in the section of this number. -/
  | dotted (place : Nat)
  deriving DecidableEq

/-- What a key stands for while a file is read. -/
inductive Node where
  | value (d : Data)
  | table (origin : Origin) (entries : List (String × Node))
  /-- A list of tables, of which the last one is open. -/
  | tables (before : List (List (String × Node))) (last : List (String × Node))

/-- The entries of a table. -/
abbrev Entries := List (String × Node)

/-- The entries with a key standing for another node, in the key's place or at the end. -/
def put (es : Entries) (key : String) (n : Node) : Entries :=
  if es.any (·.1 == key) then es.map fun p => if p.1 == key then (key, n) else p
  else es ++ [(key, n)]

/-- Changes the table that a path leads to; tables that are missing on the way are made. -/
def within (change : Entries → Option Entries) : List String → Entries → Option Entries
  | [], es => change es
  | key :: path, es =>
    match es.lookup key with
    | none => (within change path []).map fun inner => put es key (.table .implied inner)
    | some (.table origin inner) =>
      (within change path inner).map fun inner => put es key (.table origin inner)
    | some (.tables before last) =>
      (within change path last).map fun last => put es key (.tables before last)
    | some (.value _) => none

/-- Opens a table. -/
def openTable (path : List String) (key : String) (es : Entries) : Option Entries :=
  within (fun es =>
    match es.lookup key with
    | none => some (put es key (.table .declared []))
    | some (.table .implied inner) => some (put es key (.table .declared inner))
    | some _ => none) path es

/-- Adds a table to a list of tables. -/
def addTable (path : List String) (key : String) (es : Entries) : Option Entries :=
  within (fun es =>
    match es.lookup key with
    | none => some (put es key (.tables [] []))
    | some (.tables before last) => some (put es key (.tables (before ++ [last]) []))
    | some _ => none) path es

/-- Enters a value under a key with the parts `path` in front, in the section of this number. -/
def enter (place : Nat) (key : String) (d : Data) : List String → Entries → Option Entries
  | [], es => if es.any (·.1 == key) then none else some (es ++ [(key, .value d)])
  | part :: path, es =>
    let grow (inner : Entries) : Option Entries :=
      (enter place key d path inner).map fun inner => put es part (.table (.dotted place) inner)
    match es.lookup part with
    | none => grow []
    | some (.table origin inner) =>
      if origin = .implied ∨ origin = .dotted place then grow inner else none
    | some _ => none

mutual

/-- The data that a node stands for. -/
def Node.toData : Node → Data
  | .value d => d
  | .table _ es => .table (entriesToData es)
  | .tables before last => .list (tablesToData before ++ [.table (entriesToData last)])

def entriesToData : Entries → List (String × Data)
  | [] => []
  | (key, n) :: es => (key, n.toData) :: entriesToData es

def tablesToData : List Entries → List Data
  | [] => []
  | es :: rest => .table (entriesToData es) :: tablesToData rest

end

end LiveForm.Toml
