import LiveForm.Number.Binary64
import LiveForm.Text.Blank
import LiveForm.Text.Digit

/-!
# Reading decimal numerals

A numeral is a sign, a row of digits with at most one point and an exponent of ten.  The number
it denotes is an exact fraction, rounded once.  `readNumber?` is the reader of a whole text: it
also knows the names of the infinities and of "not a number", takes the digits of every script,
and allows single underscores between digits.
-/

namespace LiveForm

namespace Binary64

/-- The number nearest to `± n * 10 ^ e`.  An exponent so large or so small that the result is
out of range whatever the digits are is not carried out. -/
def ofDecimal (negative : Bool) (n : Nat) (e : Int) : Binary64 :=
  let digits : Int := (Nat.toDigits 10 n).length
  if n = 0 then ofUnits negative 0
  else if 400 < digits + e then infinite negative
  else if digits + e < -400 then ofUnits negative 0
  else if 0 ≤ e then ofRatio negative (n * Nat.pow 10 e.toNat) 1
  else ofRatio negative n (Nat.pow 10 (-e).toNat)

end Binary64

namespace Number

open Text

/-- The parts of an unsigned numeral: the digits before the point, the digits after it, and the
exponent. -/
structure Numeral where
  whole : List Char
  fraction : List Char := []
  exponent : Int := 0
  deriving DecidableEq, Repr

/-- The number nearest to what the numeral denotes. -/
def Numeral.toBinary64 (n : Numeral) (negative : Bool) : Binary64 :=
  .ofDecimal negative (digitsValue (n.whole ++ n.fraction)) (n.exponent - n.fraction.length)

/-- A sign in front of the rest. -/
def scanSign : List Char → Bool × List Char
  | '-' :: r => (true, r)
  | '+' :: r => (false, r)
  | r => (false, r)

/-- A row of digits in front of the rest. -/
def scanDigits (cs : List Char) : List Char × List Char :=
  (cs.takeWhile isDecimalDigit, cs.dropWhile isDecimalDigit)

/-- A point and the digits behind it in front of the rest. -/
def scanFraction : List Char → List Char × List Char
  | '.' :: r => scanDigits r
  | r => ([], r)

/-- An exponent in front of the rest: a mark, perhaps a sign, and at least one digit. -/
def scanExponent : List Char → Int × List Char
  | [] => (0, [])
  | c :: r =>
    if c == 'e' || c == 'E' then
      let (negative, s) := scanSign r
      let (digits, rest) := scanDigits s
      if digits.isEmpty then (0, c :: r)
      else
        let n : Int := digitsValue digits
        (if negative then -n else n, rest)
    else (0, c :: r)

/-- The longest unsigned numeral in front of the rest; it has at least one digit. -/
def scanNumeral? (cs : List Char) : Option (Numeral × List Char) :=
  let (whole, r) := scanDigits cs
  let (fraction, r) := scanFraction r
  if whole.isEmpty && fraction.isEmpty then none
  else
    let (exponent, r) := scanExponent r
    some (⟨whole, fraction, exponent⟩, r)

/-! The scanners take from the front: what is left is no longer than what was there. -/

theorem scanSign_length_le (cs : List Char) : (scanSign cs).2.length ≤ cs.length := by
  unfold scanSign
  split <;> simp

theorem scanDigits_length (cs : List Char) :
    (scanDigits cs).1.length + (scanDigits cs).2.length = cs.length := by
  simp only [scanDigits, ← List.length_append, List.takeWhile_append_dropWhile]

theorem scanFraction_length_le (cs : List Char) :
    (scanFraction cs).1.length + (scanFraction cs).2.length ≤ cs.length := by
  unfold scanFraction
  split
  · rename_i r
    have := scanDigits_length r
    simp only [List.length_cons]
    omega
  · simp

theorem scanExponent_length_le (cs : List Char) : (scanExponent cs).2.length ≤ cs.length := by
  unfold scanExponent
  split
  · simp
  · rename_i c r
    have h1 := scanSign_length_le r
    have h2 := scanDigits_length (scanSign r).2
    split
    · dsimp only
      split <;> simp only [List.length_cons] <;> omega
    · simp

/-- A numeral takes at least one character. -/
theorem scanNumeral?_length_lt {cs rest : List Char} {n : Numeral}
    (h : scanNumeral? cs = some (n, rest)) : rest.length < cs.length := by
  have h1 := scanDigits_length cs
  have h2 := scanFraction_length_le (scanDigits cs).2
  have h3 := scanExponent_length_le (scanFraction (scanDigits cs).2).2
  simp only [scanNumeral?] at h
  split at h
  · simp at h
  · rename_i hne
    simp only [Option.some.injEq, Prod.mk.injEq] at h
    obtain ⟨_, rfl⟩ := h
    have : (scanDigits cs).1.length + (scanFraction (scanDigits cs).2).1.length ≠ 0 := by
      intro h0
      apply hne
      simp [List.isEmpty_iff, ← List.length_eq_zero_iff]
      omega
    omega

/-- The text without its underscores, each of which must stand between two digits. -/
def dropUnderscores? (before : Option Char) : List Char → Option (List Char)
  | [] => some []
  | '_' :: r =>
    if before.any isDecimalDigit && r.head?.any isDecimalDigit then dropUnderscores? (some '_') r
    else none
  | c :: r => (dropUnderscores? (some c) r).map (c :: ·)

/-- The number that a whole text denotes, blanks around it aside. -/
def readNumber? (s : String) : Option Binary64 := do
  let cs ← dropUnderscores? none (trimChars s.toList)
  let (negative, r) := scanSign cs
  let name := String.ofList (r.map Char.toLower)
  if name == "inf" || name == "infinity" then some (.infinite negative)
  else if name == "nan" then some .nan
  else
    let (n, rest) ← scanNumeral? r
    if rest.isEmpty then some (n.toBinary64 negative) else none

end Number

end LiveForm
