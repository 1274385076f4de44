import LiveForm.Date.Basic

/-!
# Reading dates and moments of the international standard

A text holds a date, `YYYY-MM-DD` or `YYYYMMDD` or a week with a day as in `YYYY-Www-d`, and
perhaps, behind one character of any kind, a time with an optional distance from universal time.
The reader works on the bytes of the text: all its marks are ASCII.
-/

namespace LiveForm

namespace Iso

/-- The digit that a byte stands for. -/
def digit? (b : UInt8) : Option Nat :=
  if 48 ≤ b.toNat ∧ b.toNat ≤ 57 then some (b.toNat - 48) else none

/-- A byte is an ASCII digit. -/
def isDigit (b : UInt8) : Bool := (digit? b).isSome

/-- The byte is this ASCII character. -/
def isMark (c : Char) (b : UInt8) : Bool := b.toNat == c.toNat

/-- Reads exactly `count` digits from the front. -/
def digits? : (count : Nat) → (value : Nat) → List UInt8 → Option (Nat × List UInt8)
  | 0, n, bs => some (n, bs)
  | _ + 1, _, [] => none
  | k + 1, n, b :: bs => do digits? k (10 * n + (← digit? b)) bs

/-! ## Dates -/

/-- The Monday of the first week of a year, as a number of a day; the first week is the one that
holds the fourth of January. -/
def firstMonday (year : Nat) : Int :=
  let newYear : Int := daysBeforeYear year + 1
  let weekday := (newYear + 6) % 7
  if 3 < weekday then newYear - weekday + 7 else newYear - weekday

/-- The year has a week 53. -/
def hasWeek53 (year : Nat) : Bool :=
  let weekday := (daysBeforeYear year + 7) % 7
  weekday == 3 || (weekday == 2 && isLeapYear year)

/-- The date of a day of a week, Monday being 1. -/
def ofWeek? (year week day : Nat) : Option Date := do
  guard (1 ≤ year)
  guard ((1 ≤ week ∧ week ≤ 52) ∨ (week = 53 ∧ hasWeek53 year))
  guard (1 ≤ day ∧ day ≤ 7)
  let n := firstMonday year + ((week : Int) - 1) * 7 + day - 1
  let first ← Date.of? (if n ≤ daysBeforeYear year then year - 1 else year) 1 1
  first.addDays? (n - first.dayNumber).toNat

/-- Reads a date that is `length` bytes long. -/
def date? (length : Nat) (bs : List UInt8) : Option Date := do
  let (year, r) ← digits? 4 0 bs
  let separated := r.head?.any (isMark '-')
  let r := if separated then r.tail else r
  let skipMark (r : List UInt8) : Option (List UInt8) :=
    if separated then (if r.head?.any (isMark '-') then some r.tail else none) else some r
  if r.head?.any (isMark 'W') then
    let (week, r) ← digits? 2 0 r.tail
    if bs.length - r.length < length then
      let (day, _) ← digits? 1 0 (← skipMark r)
      ofWeek? year week day
    else ofWeek? year week 1
  else
    let (month, r) ← digits? 2 0 r
    let (day, _) ← digits? 2 0 (← skipMark r)
    Date.of? year month day

/-- Where the date ends and the separator stands, judged by the shape of the date. -/
def dateLength (bs : List UInt8) : Nat :=
  let n := bs.length
  let isAt (i : Nat) (p : UInt8 → Bool) : Bool := bs[i]?.any p
  if n = 7 then 7
  else if isAt 4 (isMark '-') then
    if isAt 5 (isMark 'W') then
      if isAt 8 (isMark '-') then
        -- A hyphen behind the week may separate the day or the time
        if isAt 10 isDigit then 8 else 10
      else 8
    else 10
  else if isAt 4 (isMark 'W') then
    let run := 7 + ((bs.drop 7).takeWhile isDigit).length
    -- Digits of a time come in pairs, so their parity tells whether a day is among them
    if run < 9 then run else if run % 2 = 0 then 7 else 8
  else 8

/-! ## Times -/

/-- What reading a time found: the time, whether the bytes given ended with it, and nothing
about the range of its parts. -/
structure Clock where
  time : TimeOfDay
  complete : Bool

/-- Reads up to six digits of a fraction of a second as microseconds and passes over further
ones. -/
def fraction? (bs : List UInt8) : Option (Nat × List UInt8) := do
  let k := min bs.length 6
  let (n, r) ← digits? k 0 bs
  some (n * Nat.pow 10 (6 - k), r.dropWhile isDigit)

/-- Reads hours, minutes and seconds in pairs of digits, with colons throughout or without any,
and a fraction behind them.  `found` holds the pairs read so far, the last one first. -/
def clockFrom? (colons : Bool) (found : List Nat) : (pairs : Nat) → List UInt8 → Option Clock
  | 0, bs => finish found bs
  | pairs + 1, bs => do
    let (n, r) ← digits? 2 0 bs
    let found := n :: found
    match r with
    | [] => some ⟨timeOf found 0, true⟩
    | b :: s =>
      let colons := if found.length = 1 then isMark ':' b else colons
      if s.isEmpty then some ⟨timeOf found 0, false⟩
      else if colons && isMark ':' b then clockFrom? colons found pairs s
      else if isMark '.' b || isMark ',' b then finish found s
      else if !colons then clockFrom? colons found pairs r
      else none
where
  /-- The time of the pairs read and a fraction. -/
  timeOf (found : List Nat) (microsecond : Nat) : TimeOfDay :=
    let part (i : Nat) : Nat := found.reverse[i]?.getD 0
    ⟨part 0, part 1, part 2, microsecond⟩
  /-- The fraction and the end. -/
  finish (found : List Nat) (bs : List UInt8) : Option Clock := do
    let (microsecond, r) ← fraction? bs
    some ⟨timeOf found microsecond, r.isEmpty⟩

/-- Reads a time. -/
def clock? (bs : List UInt8) : Option Clock := clockFrom? true [] 3 bs

/-- A mark that opens the distance from universal time. -/
def opensOffset (b : UInt8) : Bool := isMark '+' b || isMark '-' b || isMark 'Z' b

/-- The time is one of a day. -/
def inDay (t : TimeOfDay) : Bool :=
  decide (t.hour < 24 ∧ t.minute < 60 ∧ t.second < 60)

/-- Reads a time with its distance from universal time in microseconds, which is below a day. -/
def zonedTime? (bs : List UInt8) : Option (TimeOfDay × Option Int) := do
  let front := bs.takeWhile (!opensOffset ·)
  match bs.dropWhile (!opensOffset ·) with
  | [] =>
    let c ← clock? front
    guard (c.complete && inDay c.time)
    some (c.time, none)
  | mark :: rest =>
    -- A single mark may stand between the time and its offset
    let c ← clock? front
    guard (inDay c.time)
    if isMark 'Z' mark then
      guard rest.isEmpty
      some (c.time, some 0)
    else
      let o ← clock? rest
      guard o.complete
      let seconds := o.time.hour * 3600 + o.time.minute * 60 + o.time.second
      let size : Nat := if seconds = 0 then 0 else seconds * 1000000 + o.time.microsecond
      guard (size < 86400000000)
      some (c.time, some (if isMark '-' mark then -size else size))

/-- The bytes behind the one character at the front, which takes as many bytes as its first one
says. -/
def dropChar (bs : List UInt8) : List UInt8 :=
  match bs with
  | [] => []
  | b :: _ =>
    bs.drop (if b.toNat < 0x80 then 1 else if b.toNat < 0xE0 then 2
      else if b.toNat < 0xF0 then 3 else 4)

end Iso

/-- Reads a date, or a date with a time; a date alone is its midnight. -/
def Moment.ofIso? (s : String) : Option Moment := do
  let bs := s.toUTF8.toList
  guard (7 ≤ bs.length)
  let n := Iso.dateLength bs
  let date ← Iso.date? n bs
  if bs.length ≤ n then some ⟨date, ⟨0, 0, 0, 0⟩, none⟩
  else
    let (time, offset) ← Iso.zonedTime? (Iso.dropChar (bs.drop n))
    some ⟨date, time, offset⟩

end LiveForm
