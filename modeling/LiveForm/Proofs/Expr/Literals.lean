import LiveForm.Proofs.Expr.Accepting
import LiveForm.Proofs.Expr.Tokenizing

/-!
# Texts as literals

Every text can be written as a literal, whatever it consists of: between two quotation marks, with a
backslash in front of each backslash and of each mark of the same kind.  The lexer and the search
for variables split a row of backslashes and marks in the same way, so that both take the whole
literal for one quoted text, and the parser makes the text of it (`literal_of_text`).
-/

namespace LiveForm.Expr

open Text

/-! ## Between the quotation marks -/

/-- The text with a backslash in front of each backslash and of each mark of this kind. -/
def escaped (quote : Char) (t : List Char) : List Char :=
  t.flatMap fun c => if c = quote ∨ c = '\\' then ['\\', c] else [c]

/-- The text as a literal between marks of this kind. -/
def literalText (quote : Char) (t : String) : String :=
  .ofList (quote :: (escaped quote t.toList ++ [quote]))

theorem eq_of_isQuote {quote : Char} (h : isQuote quote = true) :
    quote = '\x22' ∨ quote = '\x27' := by
  simpa [isQuote] using h

section

variable {quote c : Char}

theorem scanQuoted?_quote (r : List Char) : scanQuoted? quote (quote :: r) = some ([], r) := by
  rw [scanQuoted?.eq_def]
  exact if_pos (beq_self_eq_true quote)

theorem scanQuoted?_plain (hplain : c ≠ quote) (hescape : c ≠ '\\') (r : List Char) :
    scanQuoted? quote (c :: r) = (scanQuoted? quote r).map fun p => (c :: p.1, p.2) := by
  rw [scanQuoted?.eq_def]
  dsimp only
  rw [if_neg (by simpa using hplain), if_neg (by simpa using hescape)]

theorem scanQuoted?_escape (hquote : quote ≠ '\\') (hline : c ≠ '\n') (r : List Char) :
    scanQuoted? quote ('\\' :: c :: r) = (scanQuoted? quote r).map fun p => (c :: p.1, p.2) := by
  rw [scanQuoted?.eq_def]
  dsimp only
  rw [if_neg (by simpa using hquote.symm), if_pos (by decide), if_neg (by simpa using hline)]

end

/-- A text written with escapes is scanned up to the mark behind it. -/
theorem scanQuoted?_of_unescapes {quote : Char} (hquote : quote ≠ '\\') {inner body : List Char}
    (h : Unescapes quote inner body) (rest : List Char) :
    scanQuoted? quote (inner ++ quote :: rest) = some (body, rest) := by
  induction h with
  | nil => exact scanQuoted?_quote rest
  | plain hplain hescape _ ih =>
    rw [List.cons_append, scanQuoted?_plain hplain hescape, ih]
    rfl
  | escaped hline _ ih =>
    rw [List.cons_append, List.cons_append, scanQuoted?_escape hquote hline, ih]
    rfl

/-- With its escapes every text stands for itself: no line break is behind a backslash. -/
theorem unescapes_escaped {quote : Char} (hline : quote ≠ '\n') (t : List Char) :
    Unescapes quote (escaped quote t) t := by
  induction t with
  | nil => exact .nil
  | cons c t ih =>
    rw [escaped, List.flatMap_cons]
    by_cases hc : c = quote ∨ c = '\\'
    · rw [if_pos hc]
      refine .escaped ?_ ih
      rcases hc with rfl | rfl
      · exact hline
      · decide
    · rw [if_neg hc]
      obtain ⟨hplain, hescape⟩ := not_or.mp hc
      exact .plain hplain hescape ih

/-- What is between the marks of a literal is the text, and nothing is left behind it. -/
theorem scanQuoted?_escaped {quote : Char} (hquote : isQuote quote = true) (t : List Char) :
    scanQuoted? quote (escaped quote t ++ [quote]) = some (t, []) := by
  have hne : quote ≠ '\\' ∧ quote ≠ '\n' := by
    rcases eq_of_isQuote hquote with rfl | rfl <;> decide
  exact scanQuoted?_of_unescapes hne.1 (unescapes_escaped hne.2 t) []

/-! ## The whole literal -/

/-- In front of a text that starts with a quotation mark there is a quoted text. -/
theorem lexeme_of_scanQuoted? {quote : Char} (hquote : isQuote quote = true)
    {r body rest : List Char} (h : scanQuoted? quote r = some (body, rest)) :
    ∃ l, lexeme quote r = .ok l ∧ l.kind = .string ∧ l.text = .ofList body ∧
      l.length = 1 + (r.length - rest.length) := by
  have hdigit : (isDigitLike quote || (quote == '.' && r.head?.any isDigitLike)) = false := by
    rcases eq_of_isQuote hquote with rfl | rfl <;> simp <;> decide
  have hletter : (isLetter quote || quote == '_') = false := by
    rcases eq_of_isQuote hquote with rfl | rfl <;> decide +kernel
  unfold lexeme
  rw [if_neg (by simp [hdigit]), if_neg (by simp [hletter]),
    if_pos (by simpa [isQuote] using hquote), h]
  exact ⟨_, rfl, rfl, rfl, rfl⟩

theorem tokenize_literalText {quote : Char} (hquote : isQuote quote = true) (t : String) :
    tokenize (literalText quote t) =
      .ok [⟨.string, t, 0⟩, ⟨.ending, "", (literalText quote t).toList.length⟩] := by
  have hblank : isBlank quote = false := by
    rcases eq_of_isQuote hquote with rfl | rfl <;> decide
  obtain ⟨l, hl, hkind, htext, hlength⟩ :=
    lexeme_of_scanQuoted? hquote (scanQuoted?_escaped hquote t.toList)
  have hall : l.length = (quote :: (escaped quote t.toList ++ [quote])).length := by
    rw [hlength, List.length_cons, List.length_nil, Nat.sub_zero, Nat.add_comm]
  rw [tokenize, literalText, String.toList_ofList, tokensFrom, if_neg (by simp [hblank]), hl]
  dsimp only
  rw [hall, List.drop_length, tokensFrom, hkind, htext, String.ofList_toList, Nat.zero_add]

theorem parse_literalText {quote : Char} (hquote : isQuote quote = true) (t : String) :
    parse (literalText quote t) = .ok (.literal (.text t)) := by
  have hoperand : Derives maxNesting .operand [⟨.string, t, 0⟩] (.literal (.text t)) := .text rfl
  exact ((parse_accepts (tokenize_literalText hquote t)).1 _).mpr
    (.single (l := .or) (.single (l := .and) (.single (l := .comparison)
      (.single (l := .sum) (.single (l := .product) hoperand)))))

/-- The search cuts the literal out as a whole. -/
theorem variablesOf_literalText {quote : Char} (hquote : isQuote quote = true) (t : String) :
    variablesOf (literalText quote t) = [] := by
  have hdropped := (dropQuoted_of_scanQuoted? (z := []) (scanQuoted?_escaped hquote t.toList)).1
  rw [List.append_nil, List.append_nil] at hdropped
  rw [variablesOf, literalText, String.toList_ofList, cutQuoted_quote hquote, hdropped, cutQuoted,
    namesIn_plain (by decide +kernel), namesIn]
  rfl

/-- Every text can be written as a literal, between marks of either kind: it is one token with this
text, it is parsed to the text, and no variable is found in it. -/
theorem literal_of_text {quote : Char} (hquote : isQuote quote = true) (t : String) :
    tokenize (literalText quote t) =
        .ok [⟨.string, t, 0⟩, ⟨.ending, "", (literalText quote t).toList.length⟩] ∧
      parse (literalText quote t) = .ok (.literal (.text t)) ∧
      variablesOf (literalText quote t) = [] :=
  ⟨tokenize_literalText hquote t, parse_literalText hquote t, variablesOf_literalText hquote t⟩

/-- The theorem at a text with both marks, a line break, and a backslash in front of a mark and at
the end. -/
theorem literal_of_text_escapes :
    literalText '\x27' "it\x27s \x22é\x22\n\\\x27 + x\\" =
        "\x27it\\\x27s \x22é\x22\n\\\\\\\x27 + x\\\\\x27" ∧
      isQuote '\x27' = true ∧
      parse "\x27it\\\x27s \x22é\x22\n\\\\\\\x27 + x\\\\\x27" =
        .ok (.literal (.text "it\x27s \x22é\x22\n\\\x27 + x\\")) ∧
      variablesOf "\x27it\\\x27s \x22é\x22\n\\\\\\\x27 + x\\\\\x27" = [] := by
  have htext : literalText '\x27' "it\x27s \x22é\x22\n\\\x27 + x\\" =
      "\x27it\\\x27s \x22é\x22\n\\\\\\\x27 + x\\\\\x27" := by
    decide +kernel
  have hquote : isQuote '\x27' = true := by decide
  obtain ⟨-, hparse, hvariables⟩ := literal_of_text hquote "it\x27s \x22é\x22\n\\\x27 + x\\"
  rw [htext] at hparse hvariables
  exact ⟨htext, hquote, hparse, hvariables⟩

end LiveForm.Expr
