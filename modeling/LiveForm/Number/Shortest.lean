import LiveForm.Number.Decimal

/-!
# The shortest numeral that reads back

A finite number is written with the fewest digits from which reading gives the number again,
and of those of that length the one nearest to it.  The digits found, `Binary64.toText` lays
them out: positional while the point falls near the digits, with an exponent otherwise.
-/

namespace LiveForm

namespace Binary64

/-- The value has this many decimal digits before its point; none or less for a value below
one tenth.  Every positive value of the format is well above `10 ^ -400`. -/
def pointPosition (units : Nat) : Int :=
  ((Nat.toDigits 10 (units * Nat.pow 10 400 / one)).length : Int) - 400

/-- The decimal of `k` digits that is not above the value, where the value has `point` digits
before its point: the digits and the exponent of ten. -/
def digitsBelow (units : Nat) (point : Int) (k : Nat) : Nat × Int :=
  let e := point - k
  (if 0 ≤ e then units / (one * Nat.pow 10 e.toNat) else units * Nat.pow 10 (-e).toNat / one, e)

/-- The decimal `n * 10 ^ e` rounds to this count of units. -/
def readsBack (units n : Nat) (e : Int) : Bool :=
  match ofDecimal false n e with
  | finite _ u _ => u == units
  | _ => false

/-- The value is at least as near to `n * 10 ^ e` as to `(n + 1) * 10 ^ e`, and on a tie `n` is
even. -/
def nearerBelow (units n : Nat) (e : Int) : Bool :=
  let value := 2 * units * (if 0 ≤ e then 1 else Nat.pow 10 (-e).toNat)
  let middle := (2 * n + 1) * one * (if 0 ≤ e then Nat.pow 10 e.toNat else 1)
  decide (value < middle) || (value == middle && n % 2 == 0)

/-- A decimal of `k` digits that rounds to the value: the one not above it or the one above that
in the last digit, and the nearer of them if both do. -/
def decimalOfLength? (units : Nat) (point : Int) (k : Nat) : Option (Nat × Int) :=
  let (n, e) := digitsBelow units point k
  match readsBack units n e, readsBack units (n + 1) e with
  | true, true => some (if nearerBelow units n e then n else n + 1, e)
  | true, false => some (n, e)
  | false, true => some (n + 1, e)
  | false, false => none

/-- The digits and the exponent of ten of the shortest decimal that rounds to a positive value.
Seventeen digits always suffice. -/
def shortestDecimal (units : Nat) : Nat × Int :=
  let point := pointPosition units
  ((List.range 17).findSome? fun k => decimalOfLength? units point (k + 1)).getD
    (digitsBelow units point 17)

end Binary64

/-! ## Layout -/

/-- How a row of digits becomes a numeral. -/
structure NumeralLayout where
  /-- The least exponent of the first digit that is still written positionally. -/
  leastPositional : Int
  /-- The exponent of the first digit from which on an exponent is written. -/
  leastScientific : Int
  /-- The least number of digits of a written exponent. -/
  exponentDigits : Nat
  /-- Written behind an integer in positional notation. -/
  integerMark : String

namespace NumeralLayout

/-- Numbers are positional from `0.0001` to below `10 ^ 16`, integers among them end in `.0`,
and a written exponent has a sign and at least two digits. -/
def number : NumeralLayout := ⟨-4, 16, 2, ".0"⟩

/-- The digits `ds`, the first of which has the weight `10 ^ lead`, written out. -/
def write (layout : NumeralLayout) (ds : List Char) (lead : Int) : String :=
  if layout.leastPositional ≤ lead && lead < layout.leastScientific then
    if lead < 0 then
      "0." ++ String.ofList (List.replicate (-lead - 1).toNat '0' ++ ds)
    else
      let whole := lead.toNat + 1
      let padded := ds ++ List.replicate (whole - ds.length) '0'
      let fraction := padded.drop whole
      String.ofList (padded.take whole) ++
        (if fraction.isEmpty then layout.integerMark else "." ++ String.ofList fraction)
  else
    let exponent := Nat.toDigits 10 lead.natAbs
    let padding := List.replicate (layout.exponentDigits - exponent.length) '0'
    let mantissa := match ds with
      | d :: [] => [d]
      | d :: r => d :: '.' :: r
      | [] => []
    String.ofList (mantissa ++ ['e', if lead < 0 then '-' else '+'] ++ padding ++ exponent)

end NumeralLayout

namespace Binary64

/-- The digits of the shortest numeral of a count of units and the exponent of the first one. -/
def shortestDigits (units : Nat) : List Char × Int :=
  if units = 0 then (['0'], 0)
  else
    let (n, e) := shortestDecimal units
    let ds := Nat.toDigits 10 n
    let significant := (ds.reverse.dropWhile (· == '0')).reverse
    (significant, e + ds.length - 1)

/-- The shortest numeral that reads back to the number. -/
def toText : Binary64 → String
  | nan => "nan"
  | infinite negative => if negative then "-inf" else "inf"
  | finite negative units _ =>
    let (ds, lead) := shortestDigits units
    (if negative then "-" else "") ++ NumeralLayout.number.write ds lead

end Binary64

end LiveForm
