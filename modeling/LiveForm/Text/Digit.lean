import LiveForm.Text.Ranges

/-!
# Digits

A *decimal digit* belongs to one of the runs of ten digits of some script and has a value from
0 to 9.  A *digit mark* is a sign for a digit that is not part of such a run: a superscript, a
subscript, a digit in a circle.
-/

namespace LiveForm.Text

/-- The code points of the zeros of Unicode 14; the digits 1 to 9 follow each of them. -/
def zeros : List Nat :=
  [0x30, 0x660, 0x6f0, 0x7c0, 0x966, 0x9e6, 0xa66, 0xae6, 0xb66, 0xbe6, 0xc66, 0xce6, 0xd66, 0xde6,
   0xe50, 0xed0, 0xf20, 0x1040, 0x1090, 0x17e0, 0x1810, 0x1946, 0x19d0, 0x1a80, 0x1a90, 0x1b50,
   0x1bb0, 0x1c40, 0x1c50, 0xa620, 0xa8d0, 0xa900, 0xa9d0, 0xa9f0, 0xaa50, 0xabf0, 0xff10, 0x104a0,
   0x10d30, 0x11066, 0x110f0, 0x11136, 0x111d0, 0x112f0, 0x11450, 0x114d0, 0x11650, 0x116c0,
   0x11730, 0x118e0, 0x11950, 0x11c50, 0x11d50, 0x11da0, 0x16a60, 0x16ac0, 0x16b50, 0x1d7ce,
   0x1d7d8, 0x1d7e2, 0x1d7ec, 0x1d7f6, 0x1e140, 0x1e2f0, 0x1e950, 0x1fbf0]

/-- The value of a decimal digit of any script. -/
def digitValue? (c : Char) : Option Nat :=
  (zeros.find? fun z => decide (z ≤ c.toNat ∧ c.toNat < z + 10)).map (c.toNat - ·)

/-- A decimal digit of any script. -/
def isDecimalDigit (c : Char) : Bool := (digitValue? c).isSome

/-- The signs for digits of Unicode 14 that are not decimal digits. -/
def digitMarkRanges : List (Nat × Nat) :=
  [(0xb2, 0xb3), (0xb9, 0xb9), (0x1369, 0x1371), (0x19da, 0x19da), (0x2070, 0x2070),
   (0x2074, 0x2079), (0x2080, 0x2089), (0x2460, 0x2468), (0x2474, 0x247c), (0x2488, 0x2490),
   (0x24ea, 0x24ea), (0x24f5, 0x24fd), (0x24ff, 0x24ff), (0x2776, 0x277e), (0x2780, 0x2788),
   (0x278a, 0x2792), (0x10a40, 0x10a43), (0x10e60, 0x10e68), (0x11052, 0x1105a), (0x1f100, 0x1f10a)]

/-- A decimal digit or a digit mark. -/
def isDigitLike (c : Char) : Bool := isDecimalDigit c || inRanges digitMarkRanges c

theorem digitValue?_lt {c : Char} {n : Nat} (h : digitValue? c = some n) : n < 10 := by
  simp only [digitValue?, Option.map_eq_some_iff] at h
  obtain ⟨z, hz, rfl⟩ := h
  have := List.find?_some hz
  simp only [decide_eq_true_eq] at this
  omega

/-- The number that a row of decimal digits denotes, most significant first; other characters
count as zero. -/
def digitsValue (cs : List Char) : Nat :=
  cs.foldl (fun n c => 10 * n + (digitValue? c).getD 0) 0

/-! ## Integers in decimal -/

/-- The most digits with which an integer is read or written in decimal. -/
def maxDigits : Nat := 4300

/-- An integer in decimal cannot be read or written. -/
inductive DigitError where
  | tooMany
  deriving DecidableEq, Repr

/-- The number that a row of decimal digits denotes, unless there are too many of them; zeros in
front count. -/
def readDigits (cs : List Char) : Except DigitError Nat :=
  if maxDigits < cs.length then .error .tooMany else .ok (digitsValue cs)

/-- An integer in decimal, with all its digits. -/
def integerChars (i : Int) : List Char :=
  (if i < 0 then ['-'] else []) ++ Nat.toDigits 10 i.natAbs

/-- An integer in decimal, unless it has too many digits; its sign does not count. -/
def writeInteger (i : Int) : Except DigitError (List Char) :=
  if maxDigits < (Nat.toDigits 10 i.natAbs).length then .error .tooMany else .ok (integerChars i)

end LiveForm.Text
