import LiveForm.Date.Iso
import LiveForm.Text.Blank
import LiveForm.Text.Digit

/-!
# Reading dates as people write them

Besides the international forms a date may be written day first with slashes or hyphens, or year
first with slashes.  Days and months have one or two digits, years four.
-/

namespace LiveForm

namespace Date

open Text

/-- The value of one digit or two, in a range; two digits may start with a zero.  The first digit
of two is one of ASCII. -/
def shortNumber? (least most : Nat) (cs : List Char) : Option Nat :=
  match cs with
  | [c] =>
    if c.isDigit && c != '0' then digitValue? c else none
  | [c, d] =>
    if c == '0' then (if d.isDigit && d != '0' then digitValue? d else none)
    else if c.isDigit then do
      let n := 10 * (← digitValue? c) + (← digitValue? d)
      -- In the last decade the second digit is one of ASCII too
      guard (least ≤ n ∧ n ≤ most ∧ (c.toNat - 48 < most / 10 ∨ d.isDigit))
      some n
    else none
  | _ => none

/-- A month of a date. -/
def month? (cs : List Char) : Option Nat := shortNumber? 1 12 cs

/-- A day of a month; the space of a missing first digit may be there. -/
def day? (cs : List Char) : Option Nat :=
  match cs with
  | [' ', d] => if d.isDigit && d != '0' then digitValue? d else none
  | cs => shortNumber? 1 31 cs

/-- A year of four digits of any script. -/
def year? (cs : List Char) : Option Nat :=
  if cs.length = 4 ∧ cs.all isDecimalDigit then some (digitsValue cs) else none

/-- The three parts of a text that a mark separates. -/
def threeParts? (mark : Char) (s : String) : Option (List Char × List Char × List Char) :=
  let cs := s.toList
  let a := cs.takeWhile (· != mark)
  let r := (cs.dropWhile (· != mark)).drop 1
  let b := r.takeWhile (· != mark)
  match r.dropWhile (· != mark) with
  | _ :: c => if c.contains mark then none else some (a, b, c)
  | [] => none

/-- Day, month and year, in this order. -/
def ofDayFirst? (mark : Char) (s : String) : Option Date := do
  let (d, m, y) ← threeParts? mark s
  of? (← year? y) (← month? m) (← day? d)

/-- Year, month and day, in this order. -/
def ofYearFirst? (mark : Char) (s : String) : Option Date := do
  let (y, m, d) ← threeParts? mark s
  of? (← year? y) (← month? m) (← day? d)

/-- The date that a text holds: in an international form, day first, or year first. -/
def read? (s : String) : Option Date :=
  let s := trim s
  ((Moment.ofIso? s).map (·.date)).orElse fun _ =>
    (ofDayFirst? '/' s).orElse fun _ =>
      (ofDayFirst? '-' s).orElse fun _ => ofYearFirst? '/' s

end Date

end LiveForm
