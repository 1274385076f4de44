import LiveForm.Date.Slashed
import LiveForm.Value.Basic

/-!
# Reading values

Two conventions separate thousands and decimals of a number, each with the marks of the other in
swapped roles.  A text is read as a number under one of them, but generously: of two different
marks the last one starts the fraction, whatever the convention is, and only a lone mark with
three digits behind it is left to the convention.
-/

namespace LiveForm

/-- A convention for writing numbers. -/
inductive NumberLocale where
  | id
  | en
  deriving DecidableEq, Repr, Inhabited

namespace NumberLocale

def name : NumberLocale → String
  | id => "id"
  | en => "en"

/-- The mark between groups of three digits. -/
def thousands : NumberLocale → Char
  | id => '.'
  | en => ','

/-- The mark in front of the fraction. -/
def decimal : NumberLocale → Char
  | id => ','
  | en => '.'

/-- All conventions, by name. -/
def all : List NumberLocale := [en, id]

/-- The convention of this name. -/
def ofName? (name : String) : Option NumberLocale := all.find? (·.name == name)

/-- The names of the conventions, as a list of quoted texts. -/
def knownNames : String :=
  "[" ++ ", ".intercalate (all.map fun l => Text.quoted l.name) ++ "]"

/-- What is said about a name that no convention has. -/
def unknownMessage (name : String) : String :=
  "Unknown number locale '" ++ name ++ "'. Known: " ++ knownNames

end NumberLocale

/-! ## Numbers -/

open Text

/-- A separator of a numeral. -/
def isSeparator (c : Char) : Bool := c == '.' || c == ','

/-- The text with every occurrence of one character replaced. -/
def replaceChar (c d : Char) (cs : List Char) : List Char := cs.map fun x => if x == c then d else x

/-- Digits and separators as a numeral with at most a point, if they make one. -/
def normalizeSeparators (thousands : Char) (cs : List Char) : List Char :=
  let hasPoint := cs.contains '.'
  let hasComma := cs.contains ','
  if hasPoint && hasComma then
    -- Of two different marks the last one starts the fraction
    let last := (cs.reverse.find? isSeparator).getD '.'
    replaceChar last '.' (cs.filter fun c => c == last || !isSeparator c)
  else if !hasPoint && !hasComma then cs
  else
    let mark := if hasPoint then '.' else ','
    if 1 < cs.count mark then cs.filter (· != mark)
    else if (cs.dropWhile (· != mark)).length = 4 ∧ mark = thousands then cs.filter (· != mark)
    else replaceChar mark '.' cs

/-- The digits and separators of a text, without separators at the ends. -/
def numeralChars (cs : List Char) : List Char :=
  let kept := cs.filter fun c => isDecimalDigit c || isSeparator c
  ((kept.dropWhile isSeparator).reverse.dropWhile isSeparator).reverse

namespace NumberLocale

/-- The number that a text shows: its digits, negative if a minus sign stands before the first of
them, divided by 100 if a percent sign stands anywhere.  A text that shows none counts as zero. -/
def readNumber (locale : NumberLocale) (s : String) : Binary64 :=
  let cs := trimChars s.toList
  if !cs.any isDecimalDigit then 0
  else
    match Number.readNumber? (.ofList (normalizeSeparators locale.thousands (numeralChars cs))) with
    | none => 0
    | some x =>
      let negative := (cs.takeWhile (!isDecimalDigit ·)).contains '-'
      let x := if negative then -x else x
      if cs.contains '%' then x / 100 else x

end NumberLocale

namespace Value

/-- The number that a value counts as.  Only an integer beyond the range of numbers has none. -/
def toNumber? (locale : NumberLocale) : Value → Option Binary64
  | absent => some 0
  | flag b => some (if b then 1 else 0)
  | integer i => let x := Binary64.ofInt i; if x.isFinite then some x else none
  | number x => some (if x.isNaN then 0 else x)
  | text s => some (locale.readNumber s)
  | date d => some (locale.readNumber d.toText)
  | moment m => some (locale.readNumber (m.toText ' '))

/-! ## Dates -/

/-- The date that a value holds or shows, if it does; an integer with too many digits shows
nothing. -/
def toDate : Value → Except DigitError (Option Date)
  | absent => .ok none
  | moment m => .ok (some m.date)
  | date d => .ok (some d)
  | v => do .ok (Date.read? (← v.toText))

/-! ## Scalars -/

/-- The most natural scalar that a text shows: a number or a flag if it is the numeral or the name
of one, and zero if it is blank. -/
def coerceText (s : String) : Value :=
  let s := trim s
  if s == "" then integer 0
  else if s == "true" then flag true
  else if s == "false" then flag false
  else match Number.readNumber? s with
    | some x => number x
    | none => text s

/-- The most natural scalar that a value shows. -/
def coerce : Value → Value
  | absent => integer 0
  | flag b => flag b
  | integer i => integer i
  | number x => number x
  | text s => coerceText s
  | date d => coerceText d.toText
  | moment m => coerceText (m.toText ' ')

end Value

end LiveForm
