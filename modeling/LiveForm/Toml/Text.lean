/-!
# Texts in configuration files

Keys and texts are written bare, between single quotes as they are, or between double quotes with
escapes; three quotes in a row open a text of several lines.  Each reader gives the text and what
is left behind it.
-/

namespace LiveForm.Toml

/-- A blank within a line. -/
def isBlank (c : Char) : Bool := c == ' ' || c == '\t'

/-- A blank or the end of a line. -/
def isFill (c : Char) : Bool := isBlank c || c == '\n'

/-- A control character, which may stand nowhere but for the tab and the end of a line. -/
def isControl (c : Char) : Bool := c.toNat < 32 || c.toNat == 127

/-- A character that may stand in a line of text or of a comment. -/
def isLineChar (c : Char) : Bool := !isControl c || c == '\t'

/-- A character of a bare key. -/
def isBareKeyChar (c : Char) : Bool := c.isAlphanum || c == '_' || c == '-'

/-- The value of a digit of base 16. -/
def hexDigit? (c : Char) : Option Nat :=
  if c.isDigit then some (c.toNat - 48)
  else if 'a' ≤ c ∧ c ≤ 'f' then some (c.toNat - 87)
  else if 'A' ≤ c ∧ c ≤ 'F' then some (c.toNat - 55)
  else none

/-- Reads exactly so many digits of base 16. -/
def hexNumber? : (count : Nat) → (value : Nat) → List Char → Option (Nat × List Char)
  | 0, n, cs => some (n, cs)
  | _ + 1, _, [] => none
  | k + 1, n, c :: cs => (hexDigit? c).bind fun d => hexNumber? k (16 * n + d) cs

/-- Reads the number of a character. -/
def numberedChar? (count : Nat) (cs : List Char) : Option (Char × List Char) :=
  (hexNumber? count 0 cs).bind fun (n, r) =>
    if n.isValidChar then some (Char.ofNat n, r) else none

/-- Reads what stands behind a backslash. -/
def escape? : List Char → Option (Char × List Char)
  | [] => none
  | c :: r =>
    match c with
    | 'b' => some ('\x08', r)
    | 't' => some ('\t', r)
    | 'n' => some ('\n', r)
    | 'f' => some ('\x0c', r)
    | 'r' => some ('\r', r)
    | '\x22' => some ('\x22', r)
    | '\\' => some ('\\', r)
    | 'u' => numberedChar? 4 r
    | 'U' => numberedChar? 8 r
    | _ => none

theorem hexNumber?_length_le {k n m : Nat} {cs r : List Char}
    (h : hexNumber? k n cs = some (m, r)) : r.length ≤ cs.length := by
  induction k generalizing n cs with
  | zero =>
    simp only [hexNumber?, Option.some.injEq, Prod.mk.injEq] at h
    simp [h.2]
  | succ k ih =>
    cases cs with
    | nil => simp [hexNumber?] at h
    | cons c cs =>
      obtain ⟨d, _, h⟩ := Option.bind_eq_some_iff.1 h
      have := ih h
      simp only [List.length_cons]
      omega

theorem numberedChar?_length_le {k : Nat} {c : Char} {cs r : List Char}
    (h : numberedChar? k cs = some (c, r)) : r.length ≤ cs.length := by
  obtain ⟨⟨n, s⟩, hs, h⟩ := Option.bind_eq_some_iff.1 h
  dsimp only at h
  split at h
  · simp only [Option.some.injEq, Prod.mk.injEq] at h
    exact h.2 ▸ hexNumber?_length_le hs
  · simp at h

/-- An escape takes at least one character. -/
theorem escape?_length_lt {c : Char} {cs r : List Char} (h : escape? cs = some (c, r)) :
    r.length < cs.length := by
  cases cs with
  | nil => simp [escape?] at h
  | cons d s =>
    simp only [escape?] at h
    simp only [List.length_cons]
    split at h
    all_goals first
      | exact Nat.lt_succ_of_le (numberedChar?_length_le h)
      | (simp only [Option.some.injEq, Prod.mk.injEq] at h; simp [h.2])
      | simp at h

/-! ## Texts of one line -/

/-- Reads up to the closing single quote. -/
def literal? : List Char → Option (List Char × List Char)
  | [] => none
  | c :: r =>
    if c == '\x27' then some ([], r)
    else if isLineChar c then (literal? r).map fun p => (c :: p.1, p.2)
    else none

/-- Reads up to the closing double quote. -/
def basic? (cs : List Char) : Option (List Char × List Char) :=
  match cs with
  | [] => none
  | c :: r =>
    if c == '\x22' then some ([], r)
    else if c == '\\' then
      match h : escape? r with
      | none => none
      | some (d, s) =>
        have := escape?_length_lt h
        (basic? s).map fun p => (d :: p.1, p.2)
    else if isLineChar c then (basic? r).map fun p => (c :: p.1, p.2)
    else none
termination_by cs.length
decreasing_by all_goals simp only [List.length_cons]; omega

/-! ## Texts of several lines -/

/-- Up to two quotes that stand directly behind a closing mark belong to the text. -/
def closing (quote : Char) : List Char → List Char × List Char
  | c :: d :: r =>
    if c == quote then (if d == quote then ([c, d], r) else ([c], d :: r)) else ([], c :: d :: r)
  | [c] => if c == quote then ([c], []) else ([], [c])
  | [] => ([], [])

/-- Three quotes stand in front. -/
def isTriple (quote : Char) (cs : List Char) : Bool := [quote, quote, quote].isPrefixOf cs

/-- Reads up to three single quotes. -/
def literalLines? : List Char → Option (List Char × List Char)
  | [] => none
  | c :: r =>
    if isTriple '\x27' (c :: r) then some (closing '\x27' (r.drop 2))
    else if isLineChar c || c == '\n' then (literalLines? r).map fun p => (c :: p.1, p.2)
    else none

/-- Where a reader stands with a backslash that joins lines. -/
inductive Join where
  /-- Nowhere near one. -/
  | absent
  /-- Behind one, where only blanks and the end of the line may follow. -/
  | begun
  /-- Behind the end of its line, where blanks and empty lines are passed over. -/
  | done
  deriving DecidableEq

/-- Reads up to three double quotes. -/
def basicLines? (join : Join) (cs : List Char) : Option (List Char × List Char) :=
  match cs with
  | [] => none
  | c :: r =>
    if join = .begun then
      if c == '\n' then basicLines? .done r
      else if isBlank c then basicLines? .begun r
      else none
    else if join = .done ∧ isFill c then basicLines? .done r
    else if isTriple '\x22' (c :: r) then some (closing '\x22' (r.drop 2))
    else if c == '\\' then
      if r.head?.any isFill then basicLines? .begun r
      else
        match h : escape? r with
        | none => none
        | some (d, s) =>
          have := escape?_length_lt h
          (basicLines? .absent s).map fun p => (d :: p.1, p.2)
    else if isLineChar c || c == '\n' then (basicLines? .absent r).map fun p => (c :: p.1, p.2)
    else none
termination_by cs.length
decreasing_by all_goals simp only [List.length_cons]; omega

/-- The text without a line end that stands in front. -/
def dropBreak : List Char → List Char
  | '\n' :: r => r
  | cs => cs

/-- Reads a text in quotes of any kind, from its opening quote on. -/
def quotedText? : List Char → Option (String × List Char)
  | [] => none
  | c :: r =>
    let text (s : Option (List Char × List Char)) := s.map fun p => (String.ofList p.1, p.2)
    if c == '\x22' then
      if isTriple c (c :: r) then text (basicLines? .absent (dropBreak (r.drop 2)))
      else text (basic? r)
    else if c == '\x27' then
      if isTriple c (c :: r) then text (literalLines? (dropBreak (r.drop 2)))
      else text (literal? r)
    else none

/-- Reads one part of a key: bare, or in quotes on one line. -/
def keyPart? : List Char → Option (String × List Char)
  | [] => none
  | c :: r =>
    if isBareKeyChar c then
      some (.ofList (c :: r.takeWhile isBareKeyChar), r.dropWhile isBareKeyChar)
    else if c == '\x22' then (basic? r).map fun p => (.ofList p.1, p.2)
    else if c == '\x27' then (literal? r).map fun p => (.ofList p.1, p.2)
    else none

end LiveForm.Toml
