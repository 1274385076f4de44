import LiveForm.Number.Decimal

/-!
# A fixed number of places

A finite number is rounded to a number of decimal places exactly, a tie going to the even
neighbour: either to be written with these places, or to become a number again.
-/

namespace LiveForm

namespace Binary64

/-- The magnitude of a count of units, in steps of `10 ^ -places`, to the nearest. -/
def scaledMagnitude (units : Nat) (places : Int) : Nat :=
  if 0 ≤ places then roundDiv (units * Nat.pow 10 places.toNat) one
  else roundDiv units (one * Nat.pow 10 (-places).toNat)

/-- The number nearest to the number rounded to this many places.  No number of the format has a
digit past place 323 that matters, and none reaches half of `10 ^ 309`. -/
def roundPlaces (x : Binary64) (places : Int) : Binary64 :=
  match x with
  | finite negative units _ =>
    if 323 < places then x
    else if places < -308 then ofUnits negative 0
    else ofDecimal negative (scaledMagnitude units places) (-places)
  | _ => x

end Binary64

/-- The digits of a natural number, with zeros in front up to a least count. -/
def paddedDigits (n least : Nat) : List Char :=
  let ds := Nat.toDigits 10 n
  List.replicate (least - ds.length) '0' ++ ds

/-- The digits with a mark between groups of three, counted from the end. -/
def groupThousands (mark : Char) (ds : List Char) : List Char :=
  (go 0 ds.reverse).reverse
where
  go : Nat → List Char → List Char
    | _, [] => []
    | k, d :: r =>
      if k = 3 then mark :: d :: go 1 r else d :: go (k + 1) r

namespace Binary64

/-- The digits before and behind the point of a magnitude written with this many places. -/
def fixedDigits (units places : Nat) : List Char × List Char :=
  let ds := paddedDigits (scaledMagnitude units places) (places + 1)
  (ds.take (ds.length - places), ds.drop (ds.length - places))

/-- The number written with this many places behind a point. -/
def toFixed (x : Binary64) (places : Nat) : String :=
  match x with
  | nan => "nan"
  | infinite negative => if negative then "-inf" else "inf"
  | finite negative units _ =>
    let (whole, fraction) := fixedDigits units places
    (if negative then "-" else "") ++ String.ofList whole ++
      (if fraction.isEmpty then "" else "." ++ String.ofList fraction)

end Binary64

end LiveForm
