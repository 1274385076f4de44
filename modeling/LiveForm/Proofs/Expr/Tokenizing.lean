import LiveForm.Proofs.Expr.Scanning
import LiveForm.Proofs.Number.Shortest

/-!
# Tokens cover the text

Nothing of a text is lost when it is split into tokens: each token stands where its position says,
in the spelling of its kind, what is between two tokens is blank, and the text ends where the ending
stands.  A number, a name or an operator goes on as far as it can (`Lexeme.InFront`).
-/

namespace LiveForm.Expr

open Text

/-! ## Spellings -/

/-- Nothing but decimal digits. -/
def IsDigits (cs : List Char) : Prop := ∀ c ∈ cs, isDecimalDigit c = true

/-- Nothing, or a mark, perhaps a sign, and digits. -/
def IsExponent (cs : List Char) : Prop :=
  cs = [] ∨ ∃ mark sign digits, cs = mark :: (sign ++ digits) ∧ (mark = 'e' ∨ mark = 'E') ∧
    (sign = [] ∨ sign = ['-'] ∨ sign = ['+']) ∧ IsDigits digits ∧ digits ≠ []

/-- Nothing, or a point and perhaps digits. -/
def IsFraction (cs : List Char) : Prop := cs = [] ∨ ∃ digits, cs = '.' :: digits ∧ IsDigits digits

/-- Digits with a fraction and an exponent behind them; without digits before it the fraction has
some. -/
def IsNumeral (cs : List Char) : Prop :=
  ∃ whole fraction exponent, cs = whole ++ (fraction ++ exponent) ∧ IsDigits whole ∧
    IsFraction fraction ∧ IsExponent exponent ∧ (whole ≠ [] ∨ 1 < fraction.length)

/-- A letter or underscore, and letters, digits, underscores and wildcards behind it. -/
def IsName (cs : List Char) : Prop :=
  ∃ c r, cs = c :: r ∧ isNameStart c = true ∧ ∀ d ∈ r, isNameChar d = true

/-- What is between two quotation marks, with and without its escapes. -/
inductive Unescapes (quote : Char) : List Char → List Char → Prop where
  | nil : Unescapes quote [] []
  | plain {c : Char} {raw body : List Char} (hquote : c ≠ quote) (hescape : c ≠ '\\')
      (h : Unescapes quote raw body) : Unescapes quote (c :: raw) (c :: body)
  | escaped {c : Char} {raw body : List Char} (hline : c ≠ '\n') (h : Unescapes quote raw body) :
      Unescapes quote ('\\' :: c :: raw) (c :: body)

/-- The characters are how a token of this kind with this text is written. -/
def TokenKind.Spells (kind : TokenKind) (raw : List Char) (text : String) : Prop :=
  match kind with
  | .number => IsNumeral raw ∧ text = .ofList raw
  | .name => IsName raw ∧ text = .ofList raw
  | .operator => text ∈ operators ∧ text = .ofList raw
  | .lparen => raw = ['('] ∧ text = .ofList raw
  | .rparen => raw = [')'] ∧ text = .ofList raw
  | .comma => raw = [','] ∧ text = .ofList raw
  | .string => ∃ quote inner body, isQuote quote = true ∧ raw = quote :: (inner ++ [quote]) ∧
      Unescapes quote inner body ∧ text = .ofList body
  | .ending => False

/-! ## Numerals -/

theorem scanDigits_digits_append {w : List Char} (hw : IsDigits w) (y : List Char) :
    Number.scanDigits (w ++ y) =
      (w ++ y.takeWhile isDecimalDigit, y.dropWhile isDecimalDigit) := by
  rw [Number.scanDigits, List.takeWhile_append_of_pos hw, List.dropWhile_append_of_pos hw]

theorem length_dropWhile_le (y : List Char) :
    (y.dropWhile isDecimalDigit).length ≤ y.length :=
  (List.dropWhile_sublist _).length_le

/-- Of a text that starts with an exponent at least this exponent is taken. -/
theorem IsExponent.length_scanExponent_le {e : List Char} (h : IsExponent e) (y : List Char) :
    (Number.scanExponent (e ++ y)).2.length ≤ y.length := by
  rcases h with rfl | ⟨mark, sign, digits, rfl, hmark, hsign, hdigits, hne⟩
  · exact Number.scanExponent_length_le y
  · obtain ⟨negative, hscan⟩ : ∃ negative, Number.scanSign (sign ++ (digits ++ y)) =
        (negative, digits ++ y) := by
      rcases hsign with rfl | rfl | rfl
      · obtain ⟨d, ds, rfl⟩ := List.exists_cons_of_ne_nil hne
        exact ⟨false, @Number.scanSign_of_head d (Or.inr (hdigits d List.mem_cons_self)) _ false⟩
      · exact ⟨true, rfl⟩
      · exact ⟨false, rfl⟩
    rw [List.cons_append, List.append_assoc, Number.scanExponent, if_pos (by simpa using hmark)]
    simp only [hscan, scanDigits_digits_append hdigits]
    rw [if_neg (by simp [hne])]
    exact length_dropWhile_le y

theorem IsFraction.scanFraction_append {f y : List Char} (h : IsFraction f)
    (hy : ∀ c ∈ y.head?, isDecimalDigit c = false ∧ c ≠ '.') :
    ∃ ds, Number.scanFraction (f ++ y) = (ds, y) ∧ f.length ≤ ds.length + 1 := by
  rcases h with rfl | ⟨ds, rfl, hds⟩
  · refine ⟨[], ?_, Nat.zero_le _⟩
    rw [List.nil_append]
    unfold Number.scanFraction
    split
    · exact absurd rfl (hy '.' rfl).2
    · rfl
  · exact ⟨ds, Number.scanDigits_append_of hds fun c hc => (hy c hc).1, Nat.le_refl _⟩

/-- A numeral is put together from what the scanners of its parts take. -/
theorem scanNumeral?_of_scans {cs w r f r' : List Char} (hw : Number.scanDigits cs = (w, r))
    (hf : Number.scanFraction r = (f, r')) (hne : w ≠ [] ∨ f ≠ []) :
    ∃ m, Number.scanNumeral? cs = some (m, (Number.scanExponent r').2) := by
  refine ⟨⟨w, f, (Number.scanExponent r').1⟩, ?_⟩
  simp only [Number.scanNumeral?, hw, hf]
  rw [if_neg (by simpa [List.isEmpty_iff, imp_iff_not_or] using hne)]

/-- Of a text that starts with a numeral at least this numeral is taken. -/
theorem IsNumeral.exists_scanNumeral? {p : List Char} (h : IsNumeral p) (y : List Char) :
    ∃ m rest, Number.scanNumeral? (p ++ y) = some (m, rest) ∧ rest.length ≤ y.length := by
  obtain ⟨whole, fraction, exponent, rfl, hwhole, hfraction, hexponent, hne⟩ := h
  rw [List.append_assoc, List.append_assoc]
  rcases hexponent with rfl | hexponent
  · -- Without an exponent more digits may follow, and then a fraction and an exponent
    rw [List.nil_append]
    have hle := length_dropWhile_le y
    rcases hfraction with rfl | ⟨ds, rfl, hds⟩
    · have hwhole' : whole ≠ [] := by simpa using hne
      obtain ⟨m, hm⟩ := scanNumeral?_of_scans (scanDigits_digits_append hwhole y)
        (Prod.eta _).symm (Or.inl (by simp [hwhole']))
      have hfraction := Number.scanFraction_length_le (y.dropWhile isDecimalDigit)
      have hexponent := Number.scanExponent_length_le
        (Number.scanFraction (y.dropWhile isDecimalDigit)).2
      exact ⟨m, _, hm, by omega⟩
    · have hdigits := Number.scanDigits_append_of (y := '.' :: (ds ++ y)) hwhole
        (NumeralLayout.not_isDecimalDigit_head (by decide))
      have hne' : whole ≠ [] ∨ ds ++ y.takeWhile isDecimalDigit ≠ [] := by
        refine hne.imp_right fun hlength hnil => ?_
        rw [(List.append_eq_nil_iff.mp hnil).1] at hlength
        exact absurd hlength (by decide)
      obtain ⟨m, hm⟩ := scanNumeral?_of_scans hdigits (scanDigits_digits_append hds y) hne'
      have hexponent := Number.scanExponent_length_le (y.dropWhile isDecimalDigit)
      exact ⟨m, _, hm, by omega⟩
  · have hhead : ∀ c ∈ (exponent ++ y).head?, isDecimalDigit c = false ∧ c ≠ '.' := by
      obtain ⟨mark, sign, digits, rfl, hmark, -⟩ := hexponent
      rintro c ⟨⟩
      rcases hmark with rfl | rfl <;> decide
    have hbehind : ∀ c ∈ (fraction ++ (exponent ++ y)).head?, isDecimalDigit c = false := by
      rcases hfraction with rfl | ⟨ds, rfl, -⟩
      · exact fun c hc => (hhead c hc).1
      · exact NumeralLayout.not_isDecimalDigit_head (by decide)
    obtain ⟨ds, hscan, hlength⟩ := hfraction.scanFraction_append hhead
    have hne' : whole ≠ [] ∨ ds ≠ [] := by
      refine hne.imp_right fun hlong hnil => ?_
      rw [hnil, List.length_nil] at hlength
      omega
    obtain ⟨m, hm⟩ := scanNumeral?_of_scans (Number.scanDigits_append_of hwhole hbehind) hscan hne'
    exact ⟨m, _, hm, IsExponent.length_scanExponent_le (Or.inr hexponent) y⟩

theorem exists_isFraction {cs f r : List Char} (h : Number.scanFraction cs = (f, r)) :
    ∃ q, cs = q ++ r ∧ IsFraction q ∧ (f ≠ [] → 1 < q.length) := by
  unfold Number.scanFraction at h
  split at h
  · obtain ⟨rfl, hf, -⟩ := Number.scanDigits_eq h
    refine ⟨'.' :: f, rfl, Or.inr ⟨f, rfl, hf⟩, fun hne => ?_⟩
    rw [List.length_cons]
    have := List.length_pos_iff.mpr hne
    omega
  · cases h
    exact ⟨[], rfl, Or.inl rfl, fun hne => absurd rfl hne⟩

theorem exists_sign {cs r : List Char} {negative : Bool}
    (h : Number.scanSign cs = (negative, r)) :
    ∃ sign, cs = sign ++ r ∧ (sign = [] ∨ sign = ['-'] ∨ sign = ['+']) := by
  unfold Number.scanSign at h
  split at h
  · cases h
    exact ⟨['-'], rfl, by simp⟩
  · cases h
    exact ⟨['+'], rfl, by simp⟩
  · cases h
    exact ⟨[], rfl, by simp⟩

theorem exists_isExponent {cs r : List Char} {e : Int} (h : Number.scanExponent cs = (e, r)) :
    ∃ q, cs = q ++ r ∧ IsExponent q := by
  have hnone : ∀ {cs : List Char}, (0, cs) = (e, r) → ∃ q, cs = q ++ r ∧ IsExponent q := by
    rintro cs ⟨⟩
    exact ⟨[], rfl, Or.inl rfl⟩
  unfold Number.scanExponent at h
  split at h
  · exact hnone h
  · next c cs =>
    split at h
    · next hmark =>
      obtain ⟨⟨negative, s⟩, hs⟩ : ∃ x, Number.scanSign cs = x := ⟨_, rfl⟩
      obtain ⟨⟨w, rest⟩, hd⟩ : ∃ x, Number.scanDigits s = x := ⟨_, rfl⟩
      simp only [hs, hd] at h
      split at h
      · exact hnone h
      · next hne =>
        obtain ⟨-, rfl⟩ := Prod.mk.inj h
        obtain ⟨sign, rfl, hsign⟩ := exists_sign hs
        obtain ⟨rfl, hdigits, -⟩ := Number.scanDigits_eq hd
        refine ⟨c :: (sign ++ w), by simp, Or.inr ⟨c, sign, w, rfl, ?_, hsign, hdigits, ?_⟩⟩
        · simpa using hmark
        · simpa using hne
    · exact hnone h

/-- What is taken is a numeral. -/
theorem exists_isNumeral {cs rest : List Char} {m : Number.Numeral}
    (h : Number.scanNumeral? cs = some (m, rest)) : ∃ p, cs = p ++ rest ∧ IsNumeral p := by
  obtain ⟨⟨w, r⟩, hd⟩ : ∃ x, Number.scanDigits cs = x := ⟨_, rfl⟩
  obtain ⟨⟨f, r'⟩, hf⟩ : ∃ x, Number.scanFraction r = x := ⟨_, rfl⟩
  obtain ⟨⟨e, r''⟩, he⟩ : ∃ x, Number.scanExponent r' = x := ⟨_, rfl⟩
  simp only [Number.scanNumeral?, hd, hf, he] at h
  split at h
  · cases h
  · next hne =>
    cases h
    obtain ⟨rfl, hw, -⟩ := Number.scanDigits_eq hd
    obtain ⟨fraction, rfl, hfraction, hlong⟩ := exists_isFraction hf
    obtain ⟨exponent, rfl, hexponent⟩ := exists_isExponent he
    refine ⟨w ++ (fraction ++ exponent), by simp only [List.append_assoc], w, fraction, exponent,
      rfl, hw, hfraction, hexponent, ?_⟩
    by_cases hempty : w = []
    · exact Or.inr (hlong (by simpa [hempty] using hne))
    · exact Or.inl hempty

/-! ## Quoted texts -/

theorem exists_unescapes {quote : Char} {cs body rest : List Char}
    (h : scanQuoted? quote cs = some (body, rest)) :
    ∃ inner, cs = inner ++ quote :: rest ∧ Unescapes quote inner body := by
  fun_induction scanQuoted? quote cs generalizing body with
  | case1 | case3 | case4 => cases h
  | case2 c r hclose =>
    cases h
    exact ⟨[], by rw [beq_iff_eq.mp hclose]; rfl, .nil⟩
  | case5 c hquote hescape d s hline ih =>
    obtain ⟨⟨body, rest⟩, hrest, hbody⟩ := Option.map_eq_some_iff.mp h
    cases hbody
    obtain ⟨inner, rfl, hinner⟩ := ih hrest
    rw [beq_iff_eq.mp hescape]
    exact ⟨'\\' :: d :: inner, rfl, .escaped (by simpa using hline) hinner⟩
  | case6 c r hquote hescape ih =>
    obtain ⟨⟨body, rest⟩, hrest, hbody⟩ := Option.map_eq_some_iff.mp h
    cases hbody
    obtain ⟨inner, rfl, hinner⟩ := ih hrest
    exact ⟨c :: inner, rfl, .plain (by simpa using hquote) (by simpa using hescape) hinner⟩

/-! ## Operators -/

theorem mem_of_operator? {cs : List Char} {op : String} (h : operator? cs = some op) :
    op ∈ operators ∧ op.toList <+: cs := by
  unfold operator? at h
  have hfound := List.find?_some h
  exact ⟨List.mem_of_find?_eq_some h, List.isPrefixOf_iff_prefix.mp hfound⟩

/-- The operator that is found is the longest one. -/
theorem length_le_of_operator? {cs : List Char} {op op' : String} (h : operator? cs = some op)
    (hop' : op' ∈ operators) (hbegins : op'.toList <+: cs) :
    op'.toList.length ≤ op.toList.length := by
  -- No operator comes before a longer one that starts with it
  have hordered : operators.Pairwise fun a b => ¬ a.toList <+: b.toList := by decide
  obtain ⟨-, before, behind, hsplit, hfirst⟩ := List.find?_eq_some_iff_append.mp h
  by_contra hlonger
  have hinside : op.toList <+: op'.toList :=
    List.prefix_of_prefix_length_le (mem_of_operator? h).2 hbegins (by omega)
  rw [hsplit] at hordered hop'
  rcases List.mem_append.mp hop' with hmem | hmem
  · have hnot := hfirst op' hmem
    rw [Bool.not_eq_true', List.isPrefixOf_iff_prefix.mpr hbegins] at hnot
    cases hnot
  · obtain ⟨-, hordered, -⟩ := List.pairwise_append.mp hordered
    rcases List.mem_cons.mp hmem with rfl | hmem
    · omega
    · exact (List.pairwise_cons.mp hordered).1 op' hmem hinside

/-! ## The token in front -/

/-- The token is written in front of the text, and of a number, a name or an operator no longer one
is. -/
structure Lexeme.InFront (l : Lexeme) (cs : List Char) : Prop where
  length_le : l.length ≤ cs.length
  spelled : l.kind.Spells (cs.take l.length) l.text
  greedy : l.kind ∈ [TokenKind.number, .name, .operator] →
    ∀ n, n ≤ cs.length → ∀ text, l.kind.Spells (cs.take n) text → n ≤ l.length

/-- What is written in front of a text is a part of it. -/
theorem inFront_of_append {l : Lexeme} {cs raw rest : List Char} (hcs : cs = raw ++ rest)
    (hlength : l.length = raw.length) (hspells : l.kind.Spells raw l.text)
    (hgreedy : l.kind ∈ [TokenKind.number, .name, .operator] →
      ∀ n, n ≤ cs.length → ∀ text, l.kind.Spells (cs.take n) text → n ≤ l.length) :
    l.InFront cs where
  length_le := by
    rw [hlength, hcs, List.length_append]
    exact Nat.le_add_right _ _
  spelled := by rwa [hlength, hcs, List.take_left]
  greedy := hgreedy

/-- A row of name characters goes on as far as there are any. -/
theorem le_length_takeWhile {p : Char → Bool} {r : List Char} {n : Nat} (hn : n ≤ r.length)
    (h : ∀ c ∈ r.take n, p c = true) : n ≤ (r.takeWhile p).length := by
  have hsplit : r.takeWhile p = r.take n ++ (r.drop n).takeWhile p := by
    conv_lhs => rw [← List.take_append_drop n r, List.takeWhile_append_of_pos h]
  rw [hsplit, List.length_append, List.length_take]
  omega

theorem inFront_of_lexeme {c : Char} {r : List Char} {l : Lexeme} (h : lexeme c r = .ok l) :
    l.InFront (c :: r) := by
  revert h
  fun_cases lexeme c r with
  | case1 | case4 | case5 | case11 =>
    intro h
    cases h
  | case2 _ m rest hscan =>
    rintro ⟨⟩
    obtain ⟨p, hsplit, hp⟩ := exists_isNumeral hscan
    have hlength : (c :: r).length - rest.length = p.length := by
      rw [hsplit, List.length_append, Nat.add_sub_cancel]
    have htaken : (c :: r).take ((c :: r).length - rest.length) = p := by
      rw [hlength, hsplit, List.take_left]
    refine inFront_of_append hsplit hlength ⟨hp, congrArg String.ofList htaken⟩
      fun _ n hn text hspells => ?_
    · obtain ⟨m', rest', hscan', hle⟩ := hspells.1.exists_scanNumeral? ((c :: r).drop n)
      rw [List.take_append_drop, hscan] at hscan'
      cases hscan'
      rw [List.length_drop] at hle
      exact Nat.le_sub_of_add_le (by omega)
  | case3 _ _ hstart =>
    rintro ⟨⟩
    have hsplit : c :: r = (c :: r.takeWhile isNameChar) ++ r.dropWhile isNameChar := by
      rw [List.cons_append, List.takeWhile_append_dropWhile]
    refine inFront_of_append hsplit rfl
      ⟨⟨c, _, rfl, hstart, fun d hd => List.mem_takeWhile_imp hd⟩, rfl⟩
      fun _ n hn text hspells => ?_
    cases n with
    | zero => exact Nat.zero_le _
    | succ n =>
      obtain ⟨⟨d, s, hname, -, hchars⟩, -⟩ := hspells
      cases hname
      exact Nat.succ_le_succ (le_length_takeWhile (Nat.le_of_succ_le_succ hn) hchars)
  | case6 _ _ hquote body rest hscan =>
    rintro ⟨⟩
    obtain ⟨inner, rfl, hinner⟩ := exists_unescapes hscan
    have hsplit : c :: (inner ++ c :: rest) = (c :: (inner ++ [c])) ++ rest := by simp
    refine inFront_of_append hsplit ?_ ⟨c, inner, body, hquote, rfl, hinner, rfl⟩
      fun hmem => absurd hmem (by simp)
    simp
    omega
  | case7 _ _ _ hc | case8 _ _ _ _ hc | case9 _ _ _ _ _ hc =>
    rintro ⟨⟩
    exact inFront_of_append List.singleton_append.symm rfl
      ⟨by rw [beq_iff_eq.mp hc], by rw [beq_iff_eq.mp hc]⟩ fun hmem => absurd hmem (by decide)
  | case10 _ _ _ _ _ _ op hop =>
    rintro ⟨⟩
    obtain ⟨hmem, rest, hrest⟩ := mem_of_operator? hop
    refine inFront_of_append hrest.symm rfl
      ⟨hmem, String.ofList_toList.symm⟩ fun _ n hn text hspells => ?_
    obtain ⟨hmem, rfl⟩ := hspells
    have hle := length_le_of_operator? hop hmem
      (by rw [String.toList_ofList]; exact List.take_prefix n _)
    rw [String.toList_ofList, List.length_take, Nat.min_eq_left hn] at hle
    exact hle

/-! ## Whole texts -/

/-- The characters from one position up to another. -/
def slice (source : List Char) (start stop : Nat) : List Char :=
  (source.drop start).take (stop - start)

theorem slice_append {front cs : List Char} {start : Nat} (h : front.length = start) (n : Nat) :
    slice (front ++ cs) start n = cs.take (n - start) := by
  rw [slice, ← h, List.drop_left]

/-- The token stands in the source from its position on, up to `stop`.  Unless it is a quoted text
it is what stands there, and a number, a name or an operator ends no sooner than it has to. -/
structure Token.Occupies (t : Token) (source : List Char) (stop : Nat) : Prop where
  lt : t.position < stop
  le : stop ≤ source.length
  spelled : t.kind.Spells (slice source t.position stop) t.text
  verbatim : t.kind ≠ .string → t.text.toList = slice source t.position stop
  greedy : t.kind ∈ [TokenKind.number, .name, .operator] → ∀ longer, stop < longer →
    longer ≤ source.length → ∀ text, ¬ t.kind.Spells (slice source t.position longer) text

/-- The tokens, each with the position behind it, stand in the source from a position on, one behind
the other and with nothing but blanks between them. -/
structure Tiles (source : List Char) (start : Nat) (spans : List (Token × Nat)) : Prop where
  occupies : ∀ p ∈ spans, start ≤ p.1.position ∧ p.1.Occupies source p.2
  increasing : spans.Pairwise fun p q => p.2 ≤ q.1.position
  blank : ∀ i (hi : i < source.length), start ≤ i → (∀ p ∈ spans, i < p.1.position ∨ p.2 ≤ i) →
    isBlank source[i] = true

theorem TokenKind.Spells.verbatim {kind : TokenKind} {raw : List Char} {text : String}
    (h : kind.Spells raw text) (hkind : kind ≠ .string) : text.toList = raw := by
  cases kind with
  | string => exact absurd rfl hkind
  | ending => exact h.elim
  | _ =>
    obtain ⟨-, rfl⟩ := h
    exact String.toList_ofList

theorem Lexeme.InFront.occupies {l : Lexeme} {cs : List Char} (h : l.InFront cs)
    {front : List Char} {start : Nat} (hfront : front.length = start) :
    (⟨l.kind, l.text, start⟩ : Token).Occupies (front ++ cs) (start + l.length) := by
  have hpos := l.length_pos
  have hle := h.length_le
  have hspelled : l.kind.Spells (slice (front ++ cs) start (start + l.length)) l.text := by
    rw [slice_append hfront, Nat.add_sub_cancel_left]
    exact h.spelled
  refine ⟨by dsimp only; omega, by rw [List.length_append]; omega, hspelled, hspelled.verbatim,
    fun hmem longer hlonger hbound text hspells => ?_⟩
  rw [List.length_append] at hbound
  rw [slice_append hfront] at hspells
  have := h.greedy hmem (longer - start) (by omega) text hspells
  omega

/-- Behind a blank the tokens stand as they do without it. -/
theorem Tiles.blank_cons {front r : List Char} {c : Char} {start : Nat} {spans : List (Token × Nat)}
    (h : Tiles (front ++ c :: r) (start + 1) spans) (hfront : front.length = start)
    (hc : isBlank c = true) : Tiles (front ++ c :: r) start spans where
  occupies p hp := ⟨Nat.le_of_succ_le (h.occupies p hp).1, (h.occupies p hp).2⟩
  increasing := h.increasing
  blank i hi hstart hfree := by
    rcases Nat.eq_or_lt_of_le hstart with heq | hlt
    · simp [← heq, ← hfront, hc]
    · exact h.blank i hi hlt hfree

/-- A token in front of the others. -/
theorem Tiles.cons {source : List Char} {start stop : Nat} {t : Token} {spans : List (Token × Nat)}
    (h : Tiles source stop spans) (ht : t.Occupies source stop) (hstart : t.position = start) :
    Tiles source start ((t, stop) :: spans) where
  occupies := by
    have hlt := ht.lt
    refine List.forall_mem_cons.mpr ⟨⟨hstart.ge, ht⟩, fun p hp => ?_⟩
    exact ⟨by have := (h.occupies p hp).1; omega, (h.occupies p hp).2⟩
  increasing := List.pairwise_cons.mpr ⟨fun p hp => (h.occupies p hp).1, h.increasing⟩
  blank i hi hle hfree := by
    obtain ⟨hoff, hfree⟩ := List.forall_mem_cons.mp hfree
    dsimp only at hoff
    exact h.blank i hi (by omega) hfree

theorem tiles_of_tokensFrom {position : Nat} {cs : List Char} {ts : List Token}
    (h : tokensFrom position cs = .ok ts) (front : List Char) (hfront : front.length = position) :
    ∃ spans : List (Token × Nat),
      ts = spans.map (·.1) ++ [⟨.ending, "", (front ++ cs).length⟩] ∧
      Tiles (front ++ cs) position spans := by
  -- `front` is what was scanned before, and grows by a blank or by a token
  fun_induction tokensFrom position cs generalizing ts front with
  | case1 position =>
    cases h
    refine ⟨[], by rw [List.append_nil, hfront]; rfl, ⟨by simp, .nil, fun i hi hstart _ => ?_⟩⟩
    rw [List.append_nil] at hi
    omega
  | case2 position c r hb ih =>
    obtain ⟨spans, hts, htiles⟩ := ih h (front ++ [c]) (by simp [hfront])
    rw [List.append_assoc, List.singleton_append] at hts htiles
    exact ⟨spans, hts, htiles.blank_cons hfront hb⟩
  | case3 position c r hb fault hl => cases h
  | case4 position c r hb l hl e he ih => cases h
  | case5 position c r hb l hl ts' hts' ih =>
    cases h
    have hfound := inFront_of_lexeme hl
    have htaken : (front ++ (c :: r).take l.length).length = position + l.length := by
      rw [List.length_append, List.length_take, Nat.min_eq_left hfound.length_le, hfront]
    obtain ⟨spans, rfl, htiles⟩ := ih hts' _ htaken
    rw [List.append_assoc, List.take_append_drop] at htiles ⊢
    exact ⟨_, rfl, htiles.cons (hfound.occupies hfront) rfl⟩

/-- Splitting a source into tokens loses nothing.  Each token stands where its position says, in the
spelling of its kind and behind the one before it; between them there are only blanks, and the ending
stands at the end.  A number, a name or an operator is no part of a longer one that starts where it
does. -/
theorem tokenize_lossless {source : String} {ts : List Token} (h : tokenize source = .ok ts) :
    ∃ spans : List (Token × Nat),
      ts = spans.map (·.1) ++ [⟨.ending, "", source.toList.length⟩] ∧
      Tiles source.toList 0 spans :=
  tiles_of_tokensFrom h [] rfl

/-- A wildcard, an operator of two characters, a numeral with an exponent and a quoted text with an
escape. -/
theorem tokenize_lossless_quoted :
    tokenize "rows_?_a >=1.5e3 + \x27a\x5c\x27b\x27" =
        .ok [⟨.name, "rows_?_a", 0⟩, ⟨.operator, ">=", 9⟩, ⟨.number, "1.5e3", 11⟩,
          ⟨.operator, "+", 17⟩, ⟨.string, "a\x27b", 19⟩, ⟨.ending, "", 25⟩] ∧
      ∃ spans : List (Token × Nat),
        [⟨.name, "rows_?_a", 0⟩, ⟨.operator, ">=", 9⟩, ⟨.number, "1.5e3", 11⟩,
          ⟨.operator, "+", 17⟩, ⟨.string, "a\x27b", 19⟩, ⟨.ending, "", 25⟩] =
            spans.map (·.1) ++ [⟨.ending, "", 25⟩] ∧
        Tiles "rows_?_a >=1.5e3 + \x27a\x5c\x27b\x27".toList 0 spans := by
  have h : tokenize "rows_?_a >=1.5e3 + \x27a\x5c\x27b\x27" =
      .ok [⟨.name, "rows_?_a", 0⟩, ⟨.operator, ">=", 9⟩, ⟨.number, "1.5e3", 11⟩,
        ⟨.operator, "+", 17⟩, ⟨.string, "a\x27b", 19⟩, ⟨.ending, "", 25⟩] := by
    decide +kernel
  exact ⟨h, tokenize_lossless h⟩

end LiveForm.Expr
