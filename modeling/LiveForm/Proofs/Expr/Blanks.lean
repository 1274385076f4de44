import LiveForm.Proofs.Expr.Covering
import LiveForm.Proofs.Expr.Literals
import Mathlib.Data.List.Find

/-!
# Blanks around an expression

The blanks around a text are no part of any token: without them the lexer finds the same tokens at
other positions, and the parser, which looks at positions only where it refuses, makes the same
tree (`parse_trim_eq_ok_iff`).
-/

namespace LiveForm.Expr

open Text

/-! ## Scanners in front of blanks -/

theorem isDigitLike_of_isBlank {c : Char} (h : isBlank c = true) : isDigitLike c = false := by
  have hall : ∀ r ∈ blankRanges, ∀ n ∈ List.range' r.1 (r.2 + 1 - r.1),
      isDigitLike (Char.ofNat n) = false := by
    decide +kernel
  obtain ⟨r, hr, h1, h2⟩ := inRanges_iff.mp h
  rw [← Char.ofNat_toNat c]
  exact hall r hr c.toNat (List.mem_range'_1.mpr ⟨h1, by omega⟩)

/-- A row of characters of a class ends in front of others. -/
theorem takeWhile_append_of_neg {p : Char → Bool} {z : List Char} (hz : ∀ c ∈ z, p c = false)
    (cs : List Char) :
    (cs ++ z).takeWhile p = cs.takeWhile p ∧ (cs ++ z).dropWhile p = cs.dropWhile p ++ z := by
  induction cs with
  | nil =>
    cases z with
    | nil => exact ⟨rfl, rfl⟩
    | cons c z => simp [hz c List.mem_cons_self]
  | cons c cs ih =>
    by_cases hc : p c = true
    · simp [hc, ih.1, ih.2]
    · simp [hc]

/-- A word none of whose characters follow is in front of a text with them just if it is in front
without them. -/
theorem isPrefixOf_append_of_not_mem {word z : List Char} (h : ∀ c ∈ word, c ∉ z)
    (cs : List Char) : word.isPrefixOf (cs ++ z) = word.isPrefixOf cs := by
  induction word generalizing cs with
  | nil => simp
  | cons x word ih =>
    obtain ⟨hx, hword⟩ := List.forall_mem_cons.mp h
    cases cs with
    | cons c cs => simp [List.isPrefixOf, ih hword]
    | nil =>
      cases z with
      | nil => rfl
      | cons y z =>
        have hne : x ≠ y := fun heq => hx (heq ▸ List.mem_cons_self)
        simp [List.isPrefixOf, hne]

theorem scanQuoted?_of_not_mem {quote : Char} {cs : List Char} (h : quote ∉ cs) :
    scanQuoted? quote cs = none := by
  fun_induction scanQuoted? quote cs with
  | case1 | case3 | case4 => rfl
  | case2 c r hclose => exact absurd (beq_iff_eq.mp hclose ▸ List.mem_cons_self) h
  | case5 c hquote hescape d s hline ih =>
    rw [ih fun hmem => h (List.mem_cons_of_mem _ (List.mem_cons_of_mem _ hmem))]
    rfl
  | case6 c r hquote hescape ih =>
    rw [ih fun hmem => h (List.mem_cons_of_mem _ hmem)]
    rfl

theorem ne_of_isBlank {c d : Char} (h : isBlank c = true) (hd : isBlank d = false) : c ≠ d := by
  rintro rfl
  rw [h] at hd
  cases hd

theorem scanSign_of_ne {c : Char} (hminus : c ≠ '-') (hplus : c ≠ '+') (r : List Char) :
    Number.scanSign (c :: r) = (false, c :: r) := by
  unfold Number.scanSign
  split
  · next heq => exact absurd (List.cons.inj heq).1 hminus
  · next heq => exact absurd (List.cons.inj heq).1 hplus
  · rfl

theorem body_cons {t : Token} (h : t.kind ≠ .ending) (ts : List Token) :
    body (t :: ts) = t :: body ts :=
  List.takeWhile_cons_of_pos (by simpa using h)

section

variable {z : List Char} (hz : ∀ c ∈ z, isBlank c = true)

include hz

theorem not_mem_blanks {c : Char} (hc : isBlank c = false) : c ∉ z := by
  intro hmem
  rw [hz c hmem] at hc
  cases hc

theorem scanDigits_append_blanks (cs : List Char) :
    Number.scanDigits (cs ++ z) =
      ((Number.scanDigits cs).1, (Number.scanDigits cs).2 ++ z) := by
  have hdigit : ∀ c ∈ z, isDecimalDigit c = false := fun c hc =>
    (Bool.or_eq_false_iff.mp (isDigitLike_of_isBlank (hz c hc))).1
  obtain ⟨htake, hdrop⟩ := takeWhile_append_of_neg hdigit cs
  rw [Number.scanDigits, htake, hdrop, Number.scanDigits]

theorem scanFraction_append_blanks (cs : List Char) :
    Number.scanFraction (cs ++ z) =
      ((Number.scanFraction cs).1, (Number.scanFraction cs).2 ++ z) := by
  have hpoint : '.' ∉ z := not_mem_blanks hz (by decide)
  unfold Number.scanFraction
  split
  · next r hr =>
    cases cs with
    | nil =>
      rw [List.nil_append] at hr
      exact absurd (hr ▸ List.mem_cons_self) hpoint
    | cons c cs =>
      obtain ⟨rfl, rfl⟩ := List.cons.inj hr
      exact scanDigits_append_blanks hz cs
  · next hnone =>
    split
    · next r => exact absurd rfl (hnone (r ++ z))
    · rfl

theorem scanSign_append_blanks (cs : List Char) :
    Number.scanSign (cs ++ z) = ((Number.scanSign cs).1, (Number.scanSign cs).2 ++ z) := by
  cases cs with
  | nil =>
    cases z with
    | nil => rfl
    | cons c z =>
      have hc : isBlank c = true := hz c List.mem_cons_self
      exact scanSign_of_ne (ne_of_isBlank hc (by decide)) (ne_of_isBlank hc (by decide)) z
  | cons c cs =>
    by_cases hminus : c = '-'
    · subst hminus
      rfl
    · by_cases hplus : c = '+'
      · subst hplus
        rfl
      · rw [scanSign_of_ne hminus hplus, List.cons_append, scanSign_of_ne hminus hplus]

theorem scanExponent_append_blanks (cs : List Char) :
    Number.scanExponent (cs ++ z) =
      ((Number.scanExponent cs).1, (Number.scanExponent cs).2 ++ z) := by
  cases cs with
  | nil =>
    cases z with
    | nil => rfl
    | cons c z =>
      have hc : isBlank c = true := hz c List.mem_cons_self
      have hmark : (c == 'e' || c == 'E') = false := by
        simpa using And.intro (ne_of_isBlank hc (by decide)) (ne_of_isBlank hc (by decide))
      exact if_neg (by simp [hmark])
  | cons c cs =>
    rw [List.cons_append, Number.scanExponent, Number.scanExponent]
    simp only [scanSign_append_blanks hz, scanDigits_append_blanks hz]
    split_ifs <;> rfl

theorem scanNumeral?_append_blanks (cs : List Char) :
    Number.scanNumeral? (cs ++ z) =
      (Number.scanNumeral? cs).map fun p => (p.1, p.2 ++ z) := by
  simp only [Number.scanNumeral?, scanDigits_append_blanks hz, scanFraction_append_blanks hz,
    scanExponent_append_blanks hz]
  split_ifs <;> rfl

theorem scanQuoted?_append_blanks {quote : Char} (hquote : isQuote quote = true) (cs : List Char) :
    scanQuoted? quote (cs ++ z) = (scanQuoted? quote cs).map fun p => (p.1, p.2 ++ z) := by
  have hescape : quote ≠ '\\' := by
    rcases eq_of_isQuote hquote with rfl | rfl <;> decide
  have hout : quote ∉ z := not_mem_blanks hz (by
    rcases eq_of_isQuote hquote with rfl | rfl <;> decide)
  fun_induction scanQuoted? quote cs with
  | case1 => exact scanQuoted?_of_not_mem hout
  | case2 c r hclose =>
    rw [beq_iff_eq.mp hclose, List.cons_append, scanQuoted?_quote]
    rfl
  | case3 c hplain hback =>
    have hc : quote ≠ c := Ne.symm (by simpa using hplain)
    exact scanQuoted?_of_not_mem (List.not_mem_cons_of_ne_of_not_mem hc hout)
  | case4 c hplain hback d s hline =>
    rw [List.cons_append, List.cons_append, scanQuoted?.eq_def]
    dsimp only
    rw [if_neg hplain, if_pos hback, if_pos hline]
    rfl
  | case5 c hplain hback d s hline ih =>
    rw [beq_iff_eq.mp hback, List.cons_append, List.cons_append,
      scanQuoted?_escape hescape (by simpa using hline), ih, Option.map_map, Option.map_map]
    rfl
  | case6 c r hplain hback ih =>
    rw [List.cons_append, scanQuoted?_plain (by simpa using hplain) (by simpa using hback), ih,
      Option.map_map, Option.map_map]
    rfl

theorem operator?_append_blanks (cs : List Char) : operator? (cs ++ z) = operator? cs := by
  have hall : ∀ op ∈ operators, op.toList.any isBlank = false := by decide +kernel
  refine List.find?_congr fun op hop => ?_
  have hop' := List.any_eq_false.mp (hall op hop)
  exact isPrefixOf_append_of_not_mem
    (fun c hc => not_mem_blanks hz (Bool.eq_false_iff.mpr (hop' c hc))) cs

/-! ## Tokens in front of blanks -/

/-- Blanks behind a text do not change the token in front of it, or why there is none. -/
theorem lexeme_append_blanks (c : Char) (r : List Char) : lexeme c (r ++ z) = lexeme c r := by
  have hhead : (r ++ z).head?.any isDigitLike = r.head?.any isDigitLike := by
    cases r with
    | cons d r => rfl
    | nil =>
      cases z with
      | nil => rfl
      | cons d z => exact isDigitLike_of_isBlank (hz d List.mem_cons_self)
  have hnumeral : Number.scanNumeral? (c :: (r ++ z)) =
      (Number.scanNumeral? (c :: r)).map fun p => (p.1, p.2 ++ z) :=
    scanNumeral?_append_blanks hz (c :: r)
  have hname := (takeWhile_append_of_neg
    (fun d hd => not_isNameChar_of_isBlank (hz d hd)) r).1
  have hoperator : operator? (c :: (r ++ z)) = operator? (c :: r) :=
    operator?_append_blanks hz (c :: r)
  have hlength (cs rest : List Char) :
      (cs ++ z).length - (rest ++ z).length = cs.length - rest.length := by
    rw [List.length_append, List.length_append, Nat.add_sub_add_right]
  unfold lexeme
  rw [hhead]
  refine if_congr Iff.rfl ?_ (if_congr Iff.rfl ?_ (if_ctx_congr Iff.rfl (fun hquote => ?_)
    fun _ => if_congr Iff.rfl rfl (if_congr Iff.rfl rfl (if_congr Iff.rfl rfl ?_))))
  -- The lexer holds on to what the scanner has found, so that it is split here and not rewritten.
  · split
    · next h => grind
    · next m rest h =>
      obtain ⟨p, hp, heq⟩ := Option.map_eq_some_iff.mp (hnumeral.symm.trans h)
      cases heq
      have htaken : (c :: (r ++ z)).take ((c :: r).length - p.2.length) =
          (c :: r).take ((c :: r).length - p.2.length) :=
        @List.take_append_of_le_length _ (c :: r) z _ (Nat.sub_le _ _)
      have hl : (c :: (r ++ z)).length - (p.2 ++ z).length = (c :: r).length - p.2.length :=
        hlength (c :: r) p.2
      split
      · next h' => cases h'.symm.trans hp
      · next m' rest' h' =>
        cases h'.symm.trans hp
        simp only [hl, htaken]
  · simp only [hname]
  · rw [scanQuoted?_append_blanks hz (by simpa [isQuote] using hquote)]
    cases scanQuoted? c r with
    | none => rfl
    | some p => simp only [Option.map_some, hlength]
  · split <;> grind

/-- Blanks in front of a text are passed over. -/
theorem tokensFrom_blanks_append (position : Nat) (cs : List Char) :
    tokensFrom position (z ++ cs) = tokensFrom (position + z.length) cs := by
  induction z generalizing position with
  | nil => rfl
  | cons c z ih =>
    obtain ⟨hc, hz⟩ := List.forall_mem_cons.mp hz
    rw [List.cons_append, tokensFrom, if_pos hc, ih hz, List.length_cons, Nat.add_assoc,
      Nat.add_comm 1]

/-- With blanks behind a text only its ending stands elsewhere. -/
theorem tokensFrom_append_blanks (position : Nat) (cs : List Char) :
    tokensFrom position (cs ++ z) = (tokensFrom position cs).map fun ts =>
      body ts ++ [⟨.ending, "", position + (cs ++ z).length⟩] := by
  fun_induction tokensFrom position cs with
  | case1 position =>
    have hends := tokensFrom_blanks_append hz position []
    rw [List.append_nil, tokensFrom] at hends
    rw [List.nil_append, hends]
    rfl
  | case2 position c r hb ih =>
    rw [List.cons_append, tokensFrom, if_pos hb, ih, List.length_cons, Nat.add_right_comm]
    rfl
  | case3 position c r hb fault hl =>
    rw [List.cons_append, tokensFrom, if_neg hb, lexeme_append_blanks hz, hl]
    rfl
  | case4 position c r hb l hl e he ih =>
    have hdrop : (c :: r ++ z).drop l.length = (c :: r).drop l.length ++ z :=
      List.drop_append_of_le_length (inFront_of_lexeme hl).length_le
    rw [he] at ih
    rw [List.cons_append, tokensFrom, if_neg hb, lexeme_append_blanks hz, hl]
    dsimp only
    rw [← List.cons_append, hdrop, ih]
    rfl
  | case5 position c r hb l hl ts hts ih =>
    have hle := (inFront_of_lexeme hl).length_le
    have hdrop : (c :: r ++ z).drop l.length = (c :: r).drop l.length ++ z :=
      List.drop_append_of_le_length hle
    have hend : position + l.length + ((c :: r).drop l.length ++ z).length =
        position + (c :: r ++ z).length := by
      simp only [List.length_append, List.length_drop]
      omega
    rw [hts] at ih
    rw [List.cons_append, tokensFrom, if_neg hb, lexeme_append_blanks hz, hl]
    dsimp only
    rw [← List.cons_append, hdrop, ih]
    dsimp only [Except.map]
    rw [hend, body_cons (kind_ne_ending_of_lexeme hl)]
    rfl

end

/-! ## Positions -/

/-- The token so many characters further on. -/
def Token.movedBy (k : Nat) (t : Token) : Token := { t with position := t.position + k }

theorem toOption_tokensFrom_cons {c : Char} {r : List Char} {l : Lexeme} (hb : ¬ isBlank c = true)
    (hl : lexeme c r = .ok l) (position : Nat) :
    (tokensFrom position (c :: r)).toOption =
      (tokensFrom (position + l.length) ((c :: r).drop l.length)).toOption.map
        (⟨l.kind, l.text, position⟩ :: ·) := by
  rw [tokensFrom, if_neg hb, hl]
  dsimp only
  cases tokensFrom (position + l.length) ((c :: r).drop l.length) <;> rfl

/-- A text that starts further on has the same tokens, further on, if it has any. -/
theorem toOption_tokensFrom_add (position k : Nat) (cs : List Char) :
    (tokensFrom (position + k) cs).toOption =
      (tokensFrom position cs).toOption.map (·.map (Token.movedBy k)) := by
  fun_induction tokensFrom position cs with
  | case1 position =>
    rw [tokensFrom]
    rfl
  | case2 position c r hb ih => rw [tokensFrom, if_pos hb, ← ih, Nat.add_right_comm]
  | case3 position c r hb fault hl =>
    rw [tokensFrom, if_neg hb, hl]
    rfl
  | case4 position c r hb l hl e he ih | case5 position c r hb l hl ts hts ih =>
    rw [toOption_tokensFrom_cons hb hl, Nat.add_right_comm, ih]
    simp only [*]
    rfl

/-- The function changes nothing of a token but its position. -/
structure KeepsWords (f : Token → Token) : Prop where
  kind (t : Token) : (f t).kind = t.kind
  text (t : Token) : (f t).text = t.text

section

variable {f : Token → Token}

theorem Token.IsIdentifier.map {t : Token} (h : t.IsIdentifier) (hf : KeepsWords f) :
    (f t).IsIdentifier := by
  rwa [Token.IsIdentifier, hf.kind, hf.text]

theorem Token.Spells.map {α : Type} {t : Token} {table : List (String × α)} {op : α}
    (h : t.Spells table op) (hf : KeepsWords f) : (f t).Spells table op := by
  rwa [Token.Spells, hf.kind, hf.text]

mutual

/-- The grammar looks at the kinds and the texts of tokens only. -/
theorem Derives.map {n : Nat} {p : Phrase} {ts : List Token} {e : Expr} (h : Derives n p ts e)
    (hf : KeepsWords f) : Derives n p (ts.map f) e :=
  match h with
  | .number kind read => .number ((hf.kind _).trans kind) (by rwa [hf.text])
  | .text kind => by
    rw [← hf.text]
    exact .text ((hf.kind _).trans kind)
  | .true kind word => .true ((hf.kind _).trans kind) ((hf.text _).trans word)
  | .false kind word => .false ((hf.kind _).trans kind) ((hf.text _).trans word)
  | .variable identifier => by
    rw [← hf.text]
    exact .variable (identifier.map hf)
  | .parentheses left inner right => by
    rw [List.map_append, List.map_cons]
    exact .parentheses ((hf.kind _).trans left) (inner.map hf) ((hf.kind _).trans right)
  | .unary spells inner => .unary (spells.map hf) (inner.map hf)
  | .emptyCall identifier left right => by
    rw [← hf.text]
    exact .emptyCall (identifier.map hf) ((hf.kind _).trans left) ((hf.kind _).trans right)
  | .call identifier left inner right => by
    rw [← hf.text, List.map_append, List.map_cons, List.map_cons]
    exact .call (identifier.map hf) ((hf.kind _).trans left) (inner.map hf)
      ((hf.kind _).trans right)
  | .single inner => .single (inner.map hf)
  | .binary left spells right => by
    rw [List.map_append, List.map_cons]
    exact .binary (left.map hf) (spells.map hf) (right.map hf)

theorem DerivesAll.map {n : Nat} {ts : List Token} {es : List Expr} (h : DerivesAll n ts es)
    (hf : KeepsWords f) : DerivesAll n (ts.map f) es :=
  match h with
  | .last only => .last (only.map hf)
  | .more first between others => by
    rw [List.map_append, List.map_cons]
    exact .more (first.map hf) ((hf.kind _).trans between) (others.map hf)

end

end

/-- The token so many characters further back. -/
def Token.movedBack (k : Nat) (t : Token) : Token := { t with position := t.position - k }

theorem keepsWords_movedBy (k : Nat) : KeepsWords (Token.movedBy k) :=
  ⟨fun _ => rfl, fun _ => rfl⟩

theorem keepsWords_movedBack (k : Nat) : KeepsWords (Token.movedBack k) :=
  ⟨fun _ => rfl, fun _ => rfl⟩

theorem movedBack_movedBy (k : Nat) (t : Token) : (t.movedBy k).movedBack k = t := by
  simp [Token.movedBy, Token.movedBack]

/-- Tokens that are moved are derived as the same trees. -/
theorem derives_movedBy_iff {k n : Nat} {p : Phrase} {ts : List Token} {e : Expr} :
    Derives n p (ts.map (Token.movedBy k)) e ↔ Derives n p ts e := by
  have hinverse : (ts.map (Token.movedBy k)).map (Token.movedBack k) = ts := by
    rw [List.map_map]
    exact (List.map_congr_left fun t _ => movedBack_movedBy k t).trans (List.map_id ts)
  refine ⟨fun h => ?_, fun h => h.map (keepsWords_movedBy k)⟩
  rw [← hinverse]
  exact h.map (keepsWords_movedBack k)

/-! ## Whole texts -/

/-- The tokens in front of an ending. -/
theorem body_append_ending {ts : List Token} (hts : ∀ t ∈ ts, t.kind ≠ .ending) {t : Token}
    (ht : t.kind = .ending) : body (ts ++ [t]) = ts := by
  rw [body, List.takeWhile_append_of_pos fun u hu => by simpa using hts u hu,
    List.takeWhile_cons_of_neg (by simp [ht]), List.append_nil]

theorem body_map_movedBy (k : Nat) (ts : List Token) :
    body (ts.map (Token.movedBy k)) = (body ts).map (Token.movedBy k) :=
  List.takeWhile_map

/-- A text has the tokens that it has without the blanks around it, further on, if it has any. -/
theorem exists_movedBy (source : String) :
    ∃ k, (tokenize source).toOption.map body =
      (tokenize (trim source)).toOption.map fun ts => (body ts).map (Token.movedBy k) := by
  obtain ⟨front, back, hfront, hback, hsplit⟩ := trimChars_split source.toList
  have hbehind (position : Nat) :
      (tokensFrom position (trimChars source.toList ++ back)).toOption.map body =
        (tokensFrom position (trimChars source.toList)).toOption.map body := by
    rw [tokensFrom_append_blanks hback]
    cases tokensFrom position (trimChars source.toList) with
    | error e => rfl
    | ok ts => exact congrArg some (body_append_ending kind_ne_ending_of_mem_body rfl)
  refine ⟨front.length, ?_⟩
  rw [tokenize, hsplit, tokensFrom_blanks_append hfront, hbehind, toOption_tokensFrom_add,
    Option.map_map, tokenize, trim, String.toList_ofList]
  exact congrArg (Option.map · _) (funext fun ts => body_map_movedBy front.length ts)

/-- A text is parsed to the tree that the grammar derives from its tokens. -/
theorem parse_eq_ok_iff {source : String} {e : Expr} :
    parse source = .ok e ↔ ∃ ts, (tokenize source).toOption.map body = some ts ∧
      Derives maxNesting (.level .or) ts e := by
  cases hts : tokenize source with
  | error err =>
    rw [parse, hts]
    simp [Except.toOption]
  | ok ts =>
    rw [(parse_accepts hts).1]
    simp [Except.toOption]

/-- The parser makes the same tree of a text with the blanks around it and without, if it makes one
of either. -/
theorem parse_trim_eq_ok_iff {source : String} {e : Expr} :
    parse (trim source) = .ok e ↔ parse source = .ok e := by
  obtain ⟨k, hk⟩ := exists_movedBy source
  rw [parse_eq_ok_iff, parse_eq_ok_iff, hk]
  cases tokenize (trim source) with
  | error err => simp [Except.toOption]
  | ok ts => simp [Except.toOption, derives_movedBy_iff]

end LiveForm.Expr
