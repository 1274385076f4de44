import LiveForm.Data
import LiveForm.Number.Decimal
import LiveForm.Toml.Text

/-!
# Numbers, dates and times in configuration files

Each reader takes the longest form that stands in front.  What follows it is for the caller to
judge, so `1979-13-01` reads as the number 1979 and fails behind it.
-/

namespace LiveForm.Toml

/-- Why a file cannot be read. -/
inductive ReadError where
  /-- It is not in the format. -/
  | malformed
  /-- An integer has more digits than are read. -/
  | tooManyDigits
  deriving DecidableEq, Repr

/-! ## Rows of digits -/

/-- Reads further digits of a row, each perhaps with an underscore in front. -/
def moreDigits (isDigit : Char → Bool) : List Char → List Char × List Char
  | '_' :: c :: r =>
    if isDigit c then
      let (ds, rest) := moreDigits isDigit r
      (c :: ds, rest)
    else ([], '_' :: c :: r)
  | c :: r =>
    if isDigit c then
      let (ds, rest) := moreDigits isDigit r
      (c :: ds, rest)
    else ([], c :: r)
  | [] => ([], [])

/-- Reads a row of digits, with single underscores between them. -/
def digitRow? (isDigit : Char → Bool) : List Char → Option (List Char × List Char)
  | [] => none
  | c :: r =>
    if isDigit c then
      let (ds, rest) := moreDigits isDigit r
      some (c :: ds, rest)
    else none

/-- The number that a row of digits denotes in a base. -/
def rowValue (base : Nat) (ds : List Char) : Nat :=
  ds.foldl (fun n d => base * n + (hexDigit? d).getD 0) 0

/-- Reads exactly so many decimal digits, as a number. -/
def fixedDigits? : (count : Nat) → (value : Nat) → List Char → Option (Nat × List Char)
  | 0, n, cs => some (n, cs)
  | _ + 1, _, [] => none
  | k + 1, n, c :: cs => if c.isDigit then fixedDigits? k (10 * n + (c.toNat - 48)) cs else none

/-- Takes a mark from the front. -/
def mark? (c : Char) : List Char → Option (List Char)
  | [] => none
  | d :: r => if d == c then some r else none

/-! ## Numbers -/

/-- The base that is announced in front of the digits of an integer, and its digits. -/
def base? : List Char → Option ((Nat × (Char → Bool)) × List Char)
  | '0' :: 'x' :: r => some ((16, fun c => (hexDigit? c).isSome), r)
  | '0' :: 'o' :: r => some ((8, fun c => '0' ≤ c && c ≤ '7'), r)
  | '0' :: 'b' :: r => some ((2, fun c => c == '0' || c == '1'), r)
  | _ => none

/-- Reads an integer in a base that is announced. -/
def basedInteger? (cs : List Char) : Option (Int × List Char) := do
  let ((base, isDigit), r) ← base? cs
  let (ds, rest) ← digitRow? isDigit r
  some (rowValue base ds, rest)

/-- Reads the whole part of a number: zero, or a row that starts with another digit. -/
def wholePart? : List Char → Option (List Char × List Char)
  | '0' :: r => some (['0'], r)
  | cs => digitRow? Char.isDigit cs

/-- Reads a fraction, if there is one. -/
def fractionPart (cs : List Char) : List Char × List Char :=
  ((mark? '.' cs).bind (digitRow? Char.isDigit)).getD ([], cs)

/-- Reads an exponent, if there is one. -/
def exponentPart (cs : List Char) : Option Int × List Char :=
  let read : Option (Int × List Char) := do
    let r ← (mark? 'e' cs).orElse fun _ => mark? 'E' cs
    let (negative, r) := Number.scanSign r
    let (ds, rest) ← digitRow? Char.isDigit r
    let n : Int := rowValue 10 ds
    some (if negative then -n else n, rest)
  match read with
  | some (e, rest) => (some e, rest)
  | none => (none, cs)

/-- Reads a number in decimal: an integer, unless it has a fraction or an exponent. -/
def decimal? (cs : List Char) : Option (Except ReadError (Value × List Char)) := do
  let (negative, r) := Number.scanSign cs
  let (whole, r) ← wholePart? r
  let (fraction, r) := fractionPart r
  let (exponent, r) := exponentPart r
  if fraction.isEmpty && exponent.isNone then
    if Text.maxDigits < whole.length then some (.error .tooManyDigits)
    else
      let n : Int := rowValue 10 whole
      some (.ok (.integer (if negative then -n else n), r))
  else
    let numeral : Number.Numeral := ⟨whole, fraction, exponent.getD 0⟩
    some (.ok (.number (numeral.toBinary64 negative), r))

/-- Reads the name of an infinity or of "not a number". -/
def namedNumber? (cs : List Char) : Option (Value × List Char) :=
  let (negative, r) := Number.scanSign cs
  match r with
  | 'i' :: 'n' :: 'f' :: rest => some (.number (.infinite negative), rest)
  | 'n' :: 'a' :: 'n' :: rest => some (.number .nan, rest)
  | _ => none

/-! ## Dates and times -/

/-- Reads the fraction of a second in microseconds, if there is one; further digits are dropped. -/
def microseconds (cs : List Char) : Nat × List Char :=
  match mark? '.' cs with
  | none => (0, cs)
  | some r =>
    let ds := (r.takeWhile Char.isDigit).take 6
    if ds.isEmpty then (0, cs)
    else (rowValue 10 ds * Nat.pow 10 (6 - ds.length), r.dropWhile Char.isDigit)

/-- Reads a time of the day. -/
def time? (cs : List Char) : Option (TimeOfDay × List Char) := do
  let (hour, r) ← fixedDigits? 2 0 cs
  let (minute, r) ← fixedDigits? 2 0 (← mark? ':' r)
  let (second, r) ← fixedDigits? 2 0 (← mark? ':' r)
  guard (hour < 24 ∧ minute < 60 ∧ second < 60)
  let (microsecond, r) := microseconds r
  some (⟨hour, minute, second, microsecond⟩, r)

/-- Reads a distance from universal time in microseconds. -/
def offset? : List Char → Option (Int × List Char)
  | [] => none
  | c :: r => do
    if c == 'Z' || c == 'z' then some (0, r)
    else
      guard (c == '+' || c == '-')
      let (hour, r) ← fixedDigits? 2 0 r
      let (minute, r) ← fixedDigits? 2 0 (← mark? ':' r)
      guard (hour < 24 ∧ minute < 60)
      let distance : Int := (hour * 60 + minute) * 60000000
      some (if c == '-' then -distance else distance, r)

/-- Reads the numbers of a date, which need not be in the calendar. -/
def dateNumbers? (cs : List Char) : Option ((Nat × Nat × Nat) × List Char) := do
  let (year, r) ← fixedDigits? 4 0 cs
  let (month, r) ← fixedDigits? 2 0 (← mark? '-' r)
  let (day, r) ← fixedDigits? 2 0 (← mark? '-' r)
  guard (1 ≤ month ∧ month ≤ 12 ∧ 1 ≤ day ∧ day ≤ 31)
  some ((year, month, day), r)

/-- Reads a date, and the time of the day behind it if there is one. -/
def date? (cs : List Char) : Option (Except ReadError (Value × List Char)) := do
  let ((year, month, day), r) ← dateNumbers? cs
  match Date.of? year month day with
  | none => some (.error .malformed)
  | some date =>
    let timed : Option (Value × List Char) := do
      let s ← (mark? 'T' r).orElse fun _ => (mark? 't' r).orElse fun _ => mark? ' ' r
      let (time, s) ← time? s
      match offset? s with
      | some (offset, s) => some (.moment ⟨date, time, some offset⟩, s)
      | none => some (.moment ⟨date, time, none⟩, s)
    some (.ok (timed.getD (.date date, r)))

/-! ## Any scalar -/

/-- Reads a truth value. -/
def flag? : List Char → Option (Value × List Char)
  | 't' :: 'r' :: 'u' :: 'e' :: r => some (.flag true, r)
  | 'f' :: 'a' :: 'l' :: 's' :: 'e' :: r => some (.flag false, r)
  | _ => none

/-- What was read as data; nothing read is an error. -/
def asData {α : Type} (f : α → Data) (s : Option (α × List Char)) :
    Option (Except ReadError (Data × List Char)) :=
  s.map fun p => .ok (f p.1, p.2)

/-- Reads data that is no list and no table. -/
def scalar (cs : List Char) : Except ReadError (Data × List Char) :=
  let ofValue (s : Option (Except ReadError (Value × List Char))) :
      Option (Except ReadError (Data × List Char)) :=
    s.map fun e => e.map fun p => (.scalar p.1, p.2)
  let readers : List (Unit → Option (Except ReadError (Data × List Char))) := [
    fun _ => asData (.scalar ∘ .text) (quotedText? cs),
    fun _ => asData .scalar (flag? cs),
    fun _ => ofValue (date? cs),
    fun _ => asData .time (time? cs),
    fun _ => asData (.scalar ∘ .integer) (basedInteger? cs),
    fun _ => ofValue (decimal? cs),
    fun _ => asData .scalar (namedNumber? cs)]
  (readers.findSome? fun read => read ()).getD (.error .malformed)

end LiveForm.Toml
