import LiveForm.Value.Locale

/-!
# Display formats

How a computed value is written back into a field: as a grouped amount, with a fixed number of
places, as a percentage, as a count of some unit of time, or plainly.
-/

namespace LiveForm

/-- A way to display a number. -/
inductive FormatKind where
  | currency
  | idr
  | number
  | decimal
  | percent
  | days
  | weeks
  | months
  | years
  | plain
  deriving DecidableEq, Repr

namespace FormatKind

def name : FormatKind → String
  | currency => "currency"
  | idr => "idr"
  | number => "number"
  | decimal => "decimal"
  | percent => "percent"
  | days => "days"
  | weeks => "weeks"
  | months => "months"
  | years => "years"
  | plain => "plain"

def all : List FormatKind :=
  [currency, idr, number, decimal, percent, days, weeks, months, years, plain]

/-- Lower case, as far as a letter of ASCII comes out of it. -/
def lowerChar (c : Char) : Char := if c.toNat = 0x212A then 'k' else c.toLower

/-- The kind of this name, in any case and with blanks around it. -/
def ofName? (name : String) : Option FormatKind :=
  let lower := String.ofList ((Text.trimChars name.toList).map lowerChar)
  all.find? (·.name == lower)

end FormatKind

/-- Why a value cannot be displayed. -/
inductive FormatError where
  /-- An integer beyond the range of numbers, or an infinity that had to be a count. -/
  | outOfRange
  /-- A value that is neither a number nor a text. -/
  | notANumber
  /-- An integer with more digits than are written. -/
  | tooManyDigits
  deriving DecidableEq, Repr

/-- A number grouped by thousands with at most three places; zeros at the end of the fraction are
not written, and neither is the sign of what is written as zero. -/
def groupedText (locale : NumberLocale) (x : Binary64) : String :=
  match x with
  | .nan => "nan"
  | .infinite negative => if negative then "-inf" else "inf"
  | .finite negative units _ =>
    let (whole, fraction) := Binary64.fixedDigits units 3
    let fraction := (fraction.reverse.dropWhile (· == '0')).reverse
    let shownZero := whole.all (· == '0') && fraction.isEmpty
    (if negative && !shownZero then "-" else "") ++
      String.ofList (groupThousands locale.thousands whole) ++
      (if fraction.isEmpty then "" else String.ofList (locale.decimal :: fraction))

/-- A number in one of the kinds. -/
def FormatKind.render (kind : FormatKind) (locale : NumberLocale) (x : Binary64) :
    Except FormatError String :=
  match kind with
  | currency | idr | number => .ok (groupedText locale x)
  | decimal => .ok (x.toFixed 2)
  | percent => .ok ((x * 100).toFixed 2 ++ "%")
  | plain => .ok (Value.numberText x)
  | days | weeks | months | years =>
    match x.nearest? with
    | some n => .ok (Value.integerDigits n ++ " " ++ kind.name)
    | none => .error .outOfRange

namespace Value

/-- The number that a value is, without reading texts. -/
def asNumber : Value → Except FormatError Binary64
  | flag b => .ok (if b then 1 else 0)
  | integer i =>
    let x := Binary64.ofInt i
    if x.isFinite then .ok x else .error .outOfRange
  | number x => .ok x
  | _ => .error .notANumber

/-- Nothing is shown for this value in any format. -/
def isEmpty : Value → Bool
  | absent => true
  | number x => x.isNaN
  | _ => false

/-- The display text of a value; without a kind, the plain one.  A text stays as it is, except
that amounts are read and grouped anew. -/
def format (locale : NumberLocale) (kind : Option FormatKind) (v : Value) :
    Except FormatError String :=
  if v.isEmpty then .ok ""
  else match kind with
    | none | some .plain => v.plainText.mapError fun _ => .tooManyDigits
    | some kind =>
      match v with
      | text s =>
        if kind = .currency ∨ kind = .idr then
          if Text.allBlank s then .ok "" else .ok (groupedText locale (locale.readNumber s))
        else .ok s
      | v => do kind.render locale (← v.asNumber)

end Value

end LiveForm
