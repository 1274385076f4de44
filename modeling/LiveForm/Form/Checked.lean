import LiveForm.Data

/-!
# Checking data

Reading data into something with a fixed shape either succeeds or gives complaints, and the
complaints about all the parts are gathered, in the order in which the parts are read.  Each one
names the place of what is wrong.
-/

namespace LiveForm

/-- The kinds of a plain value. -/
inductive ScalarKind where
  | text
  | integer
  | number
  | flag
  deriving DecidableEq, Repr

/-- What is wrong with a piece of data. -/
inductive Fault where
  /-- It is not there, and must be. -/
  | missing
  /-- There must not be anything of this name. -/
  | unknownKey
  /-- It is of another kind than this one. -/
  | wrongKind (k : ScalarKind)
  /-- It could be a flag but says neither yes nor no. -/
  | unclearFlag
  | notAList
  /-- It is no table with entries of any names. -/
  | notATable
  /-- It is no table with entries of given names. -/
  | notARecord
  deriving DecidableEq, Repr

/-- A step on the way to a piece of data. -/
inductive PlaceStep where
  | key (name : String)
  | item (index : Nat)
  /-- One of the kinds that the piece may have. -/
  | choice (k : ScalarKind)
  deriving DecidableEq, Repr

/-- A fault and its place. -/
structure Complaint where
  place : List PlaceStep := []
  fault : Fault
  deriving DecidableEq, Repr

/-- What was read, or the complaints. -/
inductive Checked (α : Type) where
  | good (a : α)
  | bad (cs : List Complaint)

namespace Checked

variable {α β : Type}

/-- A complaint about the piece that is being read. -/
def fault (f : Fault) : Checked α := .bad [{ fault := f }]

def map (f : α → β) : Checked α → Checked β
  | good a => good (f a)
  | bad cs => bad cs

/-- Two parts, with the complaints about both. -/
def apply : Checked (α → β) → Checked α → Checked β
  | good f, c => c.map f
  | bad cs, good _ => bad cs
  | bad cs, bad ds => bad (cs ++ ds)

/-- Complaints about a part as complaints about the whole. -/
def «at» (step : PlaceStep) : Checked α → Checked α
  | good a => good a
  | bad cs => bad (cs.map fun c => { c with place := step :: c.place })

instance : Functor Checked where map := map

instance : Applicative Checked where
  pure := good
  seq f c := f.apply (c ())

/-- The complaints; none about what was read. -/
def complaints : Checked α → List Complaint
  | good _ => []
  | bad cs => cs

@[simp] theorem complaints_apply (f : Checked (α → β)) (c : Checked α) :
    (f.apply c).complaints = f.complaints ++ c.complaints := by
  cases f <;> cases c <;> simp [apply, map, complaints]

/-- All parts, with the complaints about each. -/
def all : List (Checked α) → Checked (List α)
  | [] => good []
  | c :: cs => (c.map fun a as => a :: as).apply (all cs)

end Checked

end LiveForm
