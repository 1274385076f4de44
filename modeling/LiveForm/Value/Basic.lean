import LiveForm.Date.Basic
import LiveForm.Number.Shortest
import LiveForm.Text.Digit
import LiveForm.Text.Quoted

/-!
# Values

What a field, a variable or an output can hold, and the texts that stand for it: the text of a
plain field, the text of any value, and the literal that shows which kind of value it is.
-/

namespace LiveForm

/-- A value of a form. -/
inductive Value where
  | absent
  | flag (b : Bool)
  | integer (i : Int)
  | number (x : Binary64)
  | text (s : String)
  | date (d : Date)
  | moment (m : Moment)
  deriving DecidableEq, Inhabited

namespace Value

open Text (DigitError)

/-- An integer in decimal, with all its digits. -/
def integerDigits (i : Int) : String := .ofList (Text.integerChars i)

/-- An integer in decimal, unless it has too many digits. -/
def integerText (i : Int) : Except DigitError String := do .ok (.ofList (← Text.writeInteger i))

/-- The text that stands for any value, with all digits of an integer. -/
def fullText : Value → String
  | absent => "None"
  | flag b => if b then "True" else "False"
  | integer i => integerDigits i
  | number x => x.toText
  | text s => s
  | date d => d.toText
  | moment m => m.toText ' '

/-- The text that stands for any value; an integer with too many digits has none. -/
def toText : Value → Except DigitError String
  | integer i => integerText i
  | v => .ok v.fullText

/-- The value as a literal: texts are quoted.  It is for values that were computed, which are no
integers, so that digits need not be counted. -/
def literal : Value → String
  | text s => Text.quoted s
  | v => v.fullText

/-- The text of a plain field that shows a number; without a fraction it is shown as an integer. -/
def numberText : Binary64 → String
  | .nan => ""
  | x => if x.isInteger then integerDigits ((x.truncate?).getD 0) else x.toText

/-- The text of a plain field that shows the value, nothing for an absent value; an integer with too
many digits has none. -/
def plainText : Value → Except DigitError String
  | absent => .ok ""
  | flag b => .ok (if b then "true" else "false")
  | number x => .ok (numberText x)
  | v => v.toText

end Value

end LiveForm
