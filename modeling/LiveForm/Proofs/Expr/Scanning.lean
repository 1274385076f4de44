import LiveForm.Expr.Variables
import LiveForm.Proofs.Text.Digit
import Mathlib.Data.List.Chain
import Mathlib.Data.List.TakeWhile
import Mathlib.Tactic.Common

/-!
# Two scanners

The lexer and the search for variables read the same text in different ways: the search starts no
name right behind a numeral, where the lexer does.  `unreserved_namesIn` says that they find the same
names that are not reserved, in the same order, if what stands right behind a numeral is a reserved
word.
-/

namespace LiveForm.Expr

open Text

/-! ## Characters -/

/-- A character that neither belongs to a name or numeral nor opens a quoted text. -/
def isPlain (c : Char) : Bool :=
  !isNameStart c && !isWordChar c && c != '.' && c != '\x22' && c != '\x27'

theorem isPlain_of_isBlank {c : Char} (h : isBlank c = true) : isPlain c = true := by
  have hall : ∀ r ∈ blankRanges, ∀ n ∈ List.range' r.1 (r.2 + 1 - r.1),
      isPlain (Char.ofNat n) = true := by
    decide +kernel
  obtain ⟨r, hr, h1, h2⟩ := inRanges_iff.mp h
  rw [← Char.ofNat_toNat c]
  exact hall r hr c.toNat (List.mem_range'_1.mpr ⟨h1, by omega⟩)

/-- A quotation mark. -/
def isQuote (c : Char) : Bool := c == '\x22' || c == '\x27'

theorem isQuote_of_isPlain {c : Char} (h : isPlain c = true) : isQuote c = false := by
  simp only [isPlain, Bool.and_eq_true, bne_iff_ne, ne_eq] at h
  simp [isQuote, h.1.2, h.2]

theorem isQuote_of_isNameChar {c : Char} (h : isNameChar c = true) : isQuote c = false := by
  by_contra hq
  simp only [isQuote, Bool.or_eq_false_iff, beq_eq_false_iff_ne, not_and_or, not_not] at hq
  rcases hq with rfl | rfl <;> revert h <;> decide

theorem isNameChar_of_isNameStart {c : Char} (h : isNameStart c = true) : isNameChar c = true := by
  simp only [isNameStart, Bool.or_eq_true] at h
  simp only [isNameChar, isIdentifierChar, Char.isAlphanum, Bool.or_eq_true]
  tauto

theorem toNat_of_isNameStart {c : Char} (h : isNameStart c = true) :
    65 ≤ c.toNat ∧ c.toNat < 128 := by
  have h : (decide (c.val ≥ 65 ∧ c.val ≤ 90) || (decide (c.val ≥ 97) && decide (c.val ≤ 122)) ||
    c == '_') = true := h
  simp only [Bool.or_eq_true, Bool.and_eq_true, decide_eq_true_eq, beq_iff_eq, ge_iff_le,
    UInt32.le_iff_toNat_le] at h
  rcases h with (h | h) | rfl
  · exact ⟨h.1, Nat.lt_of_le_of_lt h.2 (by decide)⟩
  · exact ⟨Nat.le_trans (by decide) h.1, Nat.lt_of_le_of_lt h.2 (by decide)⟩
  · decide

theorem isNameStart_of_isDecimalDigit {c : Char} (h : isDecimalDigit c = true) :
    isNameStart c = false := by
  by_contra hc
  have hs := toNat_of_isNameStart (Bool.not_eq_false _ ▸ hc)
  have hd := toNat_of_isDecimalDigit h
  omega

theorem isQuote_of_isDecimalDigit {c : Char} (h : isDecimalDigit c = true) :
    isQuote c = false := by
  by_contra hq
  simp only [isQuote, Bool.or_eq_false_iff, beq_eq_false_iff_ne, not_and_or, not_not] at hq
  rcases hq with rfl | rfl <;> revert h <;> decide

theorem isWordChar_of_isNameStart {c : Char} (h : isNameStart c = true) :
    isWordChar c = true := by
  simp only [isNameStart, Bool.or_eq_true] at h
  simp only [isWordChar, isLetter, Bool.or_eq_true]
  tauto

/-! ## The search over parts of a text -/

theorem cutQuoted_cons {c : Char} {r : List Char} (h : isQuote c = false) :
    cutQuoted (c :: r) = c :: cutQuoted r := by
  rw [cutQuoted, if_neg (by simpa [isQuote] using h)]

theorem cutQuoted_quote {c : Char} {r : List Char} (h : isQuote c = true) :
    cutQuoted (c :: r) = ' ' :: cutQuoted (dropQuoted c r) := by
  rw [cutQuoted, if_pos (by simpa [isQuote] using h)]

theorem cutQuoted_append {p : List Char} (hp : ∀ c ∈ p, isQuote c = false) (r : List Char) :
    cutQuoted (p ++ r) = p ++ cutQuoted r := by
  induction p with
  | nil => rfl
  | cons c p ih =>
    rw [List.cons_append, cutQuoted_cons (hp c List.mem_cons_self),
      ih fun x hx => hp x (List.mem_cons_of_mem _ hx), List.cons_append]

theorem namesIn_plain {c : Char} (h : isPlain c = true) (joined : Bool) (r : List Char) :
    namesIn joined (c :: r) = namesIn false r := by
  simp only [isPlain, Bool.and_eq_true, Bool.not_eq_true', bne_iff_ne, ne_eq] at h
  rw [namesIn, if_neg (by simp [h.1.1.1.1]), h.1.1.1.2, beq_eq_false_iff_ne.mpr h.1.1.2,
    Bool.or_self]

theorem namesIn_plain_append {p : List Char} (hp : ∀ c ∈ p, isPlain c = true) (hne : p ≠ [])
    (joined : Bool) (r : List Char) : namesIn joined (p ++ r) = namesIn false r := by
  induction p generalizing joined with
  | nil => exact absurd rfl hne
  | cons c p ih =>
    rw [List.cons_append, namesIn_plain (hp c List.mem_cons_self)]
    by_cases h : p = []
    · rw [h, List.nil_append]
    · exact ih (fun x hx => hp x (List.mem_cons_of_mem _ hx)) h false

/-- Behind digits no name starts. -/
theorem namesIn_digits {p : List Char} (hp : ∀ c ∈ p, isDecimalDigit c = true) (hne : p ≠ [])
    (joined : Bool) (r : List Char) : namesIn joined (p ++ r) = namesIn true r := by
  induction p generalizing joined with
  | nil => exact absurd rfl hne
  | cons c p ih =>
    have hc := hp c List.mem_cons_self
    have hw : isWordChar c = true := by simp [isWordChar, hc]
    rw [List.cons_append, namesIn, if_neg (by simp [isNameStart_of_isDecimalDigit hc]), hw]
    by_cases h : p = []
    · rw [h, List.nil_append, Bool.true_or]
    · exact ih (fun x hx => hp x (List.mem_cons_of_mem _ hx)) h _

/-- The text goes on with something else than a name. -/
def Breaks (y : List Char) : Prop := ∀ c ∈ y.head?, isNameChar c = false

theorem takeWhile_nameChars {p y : List Char} (hp : ∀ c ∈ p, isNameChar c = true) (hy : Breaks y) :
    (p ++ y).takeWhile isNameChar = p ∧ (p ++ y).dropWhile isNameChar = y := by
  rw [List.takeWhile_append_of_pos hp, List.dropWhile_append_of_pos hp]
  cases y with
  | nil => simp
  | cons c y => simp [hy c rfl]

/-- A name that may start is found. -/
theorem namesIn_name {c : Char} {p y : List Char} (hc : isNameStart c = true)
    (hp : ∀ c ∈ p, isNameChar c = true) (hy : Breaks y) :
    ∃ joined, namesIn false (c :: (p ++ y)) = .ofList (c :: p) :: namesIn joined y := by
  obtain ⟨ht, hd⟩ := takeWhile_nameChars hp hy
  rw [namesIn, if_pos (by simp [hc])]
  simp only [ht, hd]
  exact ⟨_, rfl⟩

/-- Behind a word character the search passes over the word characters that follow. -/
theorem namesIn_word {p : List Char} (hp : ∀ c ∈ p, isWordChar c = true) (r : List Char) :
    namesIn true (p ++ r) = namesIn true r := by
  induction p with
  | nil => rfl
  | cons c p ih =>
    rw [List.cons_append, namesIn, if_neg (by simp), hp c List.mem_cons_self, Bool.true_or]
    exact ih fun x hx => hp x (List.mem_cons_of_mem _ hx)

/-! ## Numerals -/

/-- The search passes over these characters, and no name starts right behind them. -/
def Numeric (p : List Char) : Prop :=
  (∀ c ∈ p, isQuote c = false) ∧ ∀ joined r, namesIn joined (p ++ r) = namesIn true r

theorem numeric_digits {p : List Char} (hp : ∀ c ∈ p, isDecimalDigit c = true) (hne : p ≠ []) :
    Numeric p :=
  ⟨fun c hc => isQuote_of_isDecimalDigit (hp c hc), namesIn_digits hp hne⟩

theorem numeric_point : Numeric ['.'] := by
  refine ⟨List.forall_mem_singleton.mpr (by decide), fun joined r => ?_⟩
  have hstart : isNameStart '.' = false := by decide
  rw [List.singleton_append, namesIn, if_neg (by simp [hstart]),
    beq_self_eq_true, Bool.or_true]

theorem Numeric.append {p q : List Char} (hp : Numeric p) (hq : Numeric q) : Numeric (p ++ q) := by
  refine ⟨fun c hc => ?_, fun joined r => ?_⟩
  · rcases List.mem_append.mp hc with hc | hc
    · exact hp.1 c hc
    · exact hq.1 c hc
  · rw [List.append_assoc, hp.2, hq.2]

theorem isDecimalDigit_of_mem_scanDigits {cs : List Char} :
    ∀ c ∈ (Number.scanDigits cs).1, isDecimalDigit c = true :=
  fun _ hc => List.mem_takeWhile_imp hc

theorem scanDigits_append (cs : List Char) :
    (Number.scanDigits cs).1 ++ (Number.scanDigits cs).2 = cs :=
  List.takeWhile_append_dropWhile

/-- A fraction is nothing, or a point and digits. -/
theorem scanFraction_cases (cs : List Char) :
    Number.scanFraction cs = ([], cs) ∨
      ∃ p, Numeric p ∧ cs = p ++ (Number.scanFraction cs).2 := by
  unfold Number.scanFraction
  split
  · next r =>
    right
    by_cases h : (Number.scanDigits r).1 = []
    · refine ⟨['.'], numeric_point, ?_⟩
      conv_lhs => rw [← scanDigits_append r, h]
      rfl
    · refine ⟨'.' :: (Number.scanDigits r).1, ?_, ?_⟩
      · exact numeric_point.append (numeric_digits isDecimalDigit_of_mem_scanDigits h)
      · rw [List.cons_append, scanDigits_append]
  · exact Or.inl rfl

/-- A sign is nothing or one character, behind which the search goes on as behind a blank. -/
theorem scanSign_cases (cs : List Char) :
    (Number.scanSign cs).2 = cs ∨
      ∃ c, isPlain c = true ∧ cs = c :: (Number.scanSign cs).2 := by
  unfold Number.scanSign
  split
  · exact Or.inr ⟨'-', by decide +kernel, rfl⟩
  · exact Or.inr ⟨'+', by decide +kernel, rfl⟩
  · exact Or.inl rfl

/-- The mark of an exponent continues the numeral. -/
theorem namesIn_mark {c : Char} (h : (c == 'e' || c == 'E') = true) (r : List Char) :
    isQuote c = false ∧ namesIn true (c :: r) = namesIn true r := by
  have hc : isNameStart c = true := by
    rcases Bool.or_eq_true _ _ ▸ h with h | h <;> rw [beq_iff_eq.mp h] <;> decide
  exact ⟨isQuote_of_isNameChar (isNameChar_of_isNameStart hc),
    namesIn_word (List.forall_mem_singleton.mpr (isWordChar_of_isNameStart hc)) r⟩

/-- Behind a numeral an exponent is nothing, or it continues the numeral. -/
theorem scanExponent_cases (cs : List Char) :
    (Number.scanExponent cs).2 = cs ∨ ∃ p, (∀ c ∈ p, isQuote c = false) ∧
      (∀ r, namesIn true (p ++ r) = namesIn true r) ∧ cs = p ++ (Number.scanExponent cs).2 := by
  unfold Number.scanExponent
  split
  · exact Or.inl rfl
  · next c r =>
    split
    · next hc =>
      dsimp only
      split
      · exact Or.inl rfl
      · next hd =>
        have hdigits := numeric_digits isDecimalDigit_of_mem_scanDigits
          (p := (Number.scanDigits (Number.scanSign r).2).1) (by simpa using hd)
        have happ := scanDigits_append (Number.scanSign r).2
        right
        rcases scanSign_cases r with hs | ⟨d, hd, hs⟩
        · refine ⟨c :: (Number.scanDigits (Number.scanSign r).2).1, ?_, ?_, ?_⟩
          · exact List.forall_mem_cons.mpr ⟨(namesIn_mark hc []).1, hdigits.1⟩
          · intro y
            rw [List.cons_append, (namesIn_mark hc _).2, hdigits.2]
          · rw [List.cons_append, happ, hs]
        · refine ⟨c :: d :: (Number.scanDigits (Number.scanSign r).2).1, ?_, ?_, ?_⟩
          · exact List.forall_mem_cons.mpr ⟨(namesIn_mark hc []).1,
              List.forall_mem_cons.mpr ⟨isQuote_of_isPlain hd, hdigits.1⟩⟩
          · intro y
            rw [List.cons_append, List.cons_append, (namesIn_mark hc _).2, namesIn_plain hd,
              hdigits.2]
          · rw [List.cons_append, List.cons_append, happ, ← hs]
    · exact Or.inl rfl

/-- The search passes over a numeral. -/
theorem scanNumeral?_numeric {cs rest : List Char} {n : Number.Numeral}
    (h : Number.scanNumeral? cs = some (n, rest)) : ∃ p, Numeric p ∧ cs = p ++ rest := by
  have hsplit := scanDigits_append cs
  have hw : (Number.scanDigits cs).1 ≠ [] → Numeric (Number.scanDigits cs).1 :=
    numeric_digits isDecimalDigit_of_mem_scanDigits
  simp only [Number.scanNumeral?] at h
  split at h
  · cases h
  · next hne =>
    simp only [Option.some.injEq, Prod.mk.injEq] at h
    obtain ⟨-, rfl⟩ := h
    -- The digits before the point and the fraction; one of them is there
    obtain ⟨p, hp, hcs⟩ : ∃ p, Numeric p ∧
        cs = p ++ (Number.scanFraction (Number.scanDigits cs).2).2 := by
      rcases scanFraction_cases (Number.scanDigits cs).2 with hf | ⟨q, hq, hf⟩
      · rw [hf] at hne ⊢
        exact ⟨_, hw (by simpa using hne), hsplit.symm⟩
      · by_cases h0 : (Number.scanDigits cs).1 = []
        · refine ⟨q, hq, ?_⟩
          rw [← hf]
          rw [h0] at hsplit
          exact hsplit.symm
        · refine ⟨_, (hw h0).append hq, ?_⟩
          rw [List.append_assoc, ← hf, hsplit]
    rcases scanExponent_cases (Number.scanFraction (Number.scanDigits cs).2).2 with
      he | ⟨q, hq, hn, he⟩
    · rw [he]
      exact ⟨p, hp, hcs⟩
    · refine ⟨p ++ q, ⟨fun c hc => ?_, fun joined r => ?_⟩, ?_⟩
      · rcases List.mem_append.mp hc with hc | hc
        · exact hp.1 c hc
        · exact hq c hc
      · rw [List.append_assoc, hp.2, hn]
      · rw [List.append_assoc, ← he]
        exact hcs

/-! ## Quoted texts -/

/-- What the lexer leaves behind a quoted text is what the search leaves. -/
theorem dropQuoted_of_scanQuoted? {quote : Char} {z : List Char} :
    ∀ {cs body rest : List Char}, scanQuoted? quote cs = some (body, rest) →
      dropQuoted quote (cs ++ z) = rest ++ z ∧ rest <:+ cs := by
  intro cs
  fun_induction scanQuoted? quote cs with
  | case1 => intro body rest h; cases h
  | case2 c r hc =>
    intro body rest h
    simp only [Option.some.injEq, Prod.mk.injEq] at h
    obtain ⟨-, rfl⟩ := h
    refine ⟨?_, List.suffix_cons c r⟩
    rw [List.cons_append, dropQuoted.eq_def]
    exact if_pos hc
  | case3 c hc hb => intro body rest h; cases h
  | case4 c hc hb d s hd => intro body rest h; cases h
  | case5 c hc hb d s hd ih =>
    intro body rest h
    obtain ⟨⟨body', rest'⟩, h', heq⟩ := Option.map_eq_some_iff.mp h
    simp only [Prod.mk.injEq] at heq
    obtain ⟨-, rfl⟩ := heq
    obtain ⟨h1, h2⟩ := ih h'
    refine ⟨?_, h2.trans ((List.suffix_cons d s).trans (List.suffix_cons c (d :: s)))⟩
    rw [List.cons_append, List.cons_append, dropQuoted.eq_def]
    dsimp only
    rw [if_neg hc, if_pos hb, if_neg hd, h1]
  | case6 c r hc hb ih =>
    intro body rest h
    obtain ⟨⟨body', rest'⟩, h', heq⟩ := Option.map_eq_some_iff.mp h
    simp only [Prod.mk.injEq] at heq
    obtain ⟨-, rfl⟩ := heq
    obtain ⟨h1, h2⟩ := ih h'
    refine ⟨?_, h2.trans (List.suffix_cons c r)⟩
    rw [List.cons_append, dropQuoted.eq_def]
    dsimp only
    rw [if_neg hc, if_neg hb, h1]

/-! ## Lexemes -/

theorem drop_length_sub {l r : List Char} (h : r <:+ l) : l.drop (l.length - r.length) = r := by
  obtain ⟨p, rfl⟩ := h
  simp

/-- What can stand in front of a text, with what is left behind it. -/
inductive LexemeCase (c : Char) (r : List Char) (l : Lexeme) (rest : List Char) : Prop where
  | numeral (kind : l.kind = .number) (p : List Char) (numeric : Numeric p)
    (split : c :: r = p ++ rest)
  | name (kind : l.kind = .name) (start : isNameStart c = true)
    (text : l.text = .ofList (c :: r.takeWhile isNameChar)) (left : rest = r.dropWhile isNameChar)
  | quoted (kind : l.kind = .string) (quote : isQuote c = true) (body : List Char)
    (scanned : scanQuoted? c r = some (body, rest))
  | plain (kind : l.kind ≠ .number ∧ l.kind ≠ .name) (p : List Char) (ne : p ≠ [])
    (plain : ∀ x ∈ p, isPlain x = true) (split : c :: r = p ++ rest)

/-- The characters of the operators are plain. -/
theorem isPlain_of_mem_operators {op : String} (h : op ∈ operators) :
    ∀ x ∈ op.toList, isPlain x = true := by
  have hall : ∀ op ∈ operators, op.toList.all isPlain = true := by decide +kernel
  exact List.all_eq_true.mp (hall op h)

/-- A text that starts with an operator goes on behind it. -/
theorem operator?_split {cs : List Char} {op : String} (h : operator? cs = some op) :
    op ∈ operators ∧ cs = op.toList ++ cs.drop op.toList.length := by
  refine ⟨List.mem_of_find?_eq_some h, ?_⟩
  have hp := List.find?_some h
  obtain ⟨y, hy⟩ := List.isPrefixOf_iff_prefix.mp hp
  rw [← hy, List.drop_left]

theorem lexeme_cases {c : Char} {r : List Char} {l : Lexeme} (h : lexeme c r = .ok l) :
    LexemeCase c r l ((c :: r).drop l.length) := by
  revert h
  fun_cases lexeme c r with
  | case1 | case4 | case5 | case11 =>
    intro h
    cases h
  | case2 _ n rest hn =>
    rintro ⟨⟩
    obtain ⟨p, hp, hs⟩ := scanNumeral?_numeric hn
    refine .numeral rfl p hp ?_
    dsimp only
    rw [drop_length_sub ⟨p, hs.symm⟩]
    exact hs
  | case3 _ _ hs =>
    rintro ⟨⟩
    refine .name rfl hs rfl ?_
    dsimp only
    rw [List.length_cons, List.drop_succ_cons]
    calc r.drop (r.takeWhile isNameChar).length
        = (r.takeWhile isNameChar ++ r.dropWhile isNameChar).drop
            (r.takeWhile isNameChar).length := by rw [List.takeWhile_append_dropWhile]
      _ = r.dropWhile isNameChar := List.drop_left
  | case6 _ _ hq body rest hb =>
    rintro ⟨⟩
    refine .quoted rfl hq body ?_
    dsimp only
    rw [Nat.add_comm, List.drop_succ_cons,
      drop_length_sub (dropQuoted_of_scanQuoted? (z := []) hb).2]
    exact hb
  | case7 _ _ _ hc =>
    rintro ⟨⟩
    rw [beq_iff_eq.mp hc]
    exact .plain (by simp) ['('] (by decide) (List.forall_mem_singleton.mpr (by decide +kernel)) rfl
  | case8 _ _ _ _ hc =>
    rintro ⟨⟩
    rw [beq_iff_eq.mp hc]
    exact .plain (by simp) [')'] (by decide) (List.forall_mem_singleton.mpr (by decide +kernel)) rfl
  | case9 _ _ _ _ _ hc =>
    rintro ⟨⟩
    rw [beq_iff_eq.mp hc]
    exact .plain (by simp) [','] (by decide) (List.forall_mem_singleton.mpr (by decide +kernel)) rfl
  | case10 _ _ _ _ _ _ op hop =>
    rintro ⟨⟩
    obtain ⟨hmem, hs⟩ := operator?_split hop
    exact .plain (by simp) op.toList (List.length_pos_iff.mp (length_pos_of_operator? hop))
      (isPlain_of_mem_operators hmem) hs

/-! ## Words -/

/-- What holds of the keywords and of the names of the functions holds of every reserved word. -/
theorem forall_reserved {P : String → Prop} (hk : ∀ w ∈ keywords, P w)
    (hf : ∀ f ∈ Function.all, P f.name) {n : String} (h : isReserved n = true) : P n := by
  rcases Bool.or_eq_true_iff.mp h with h | h
  · exact hk n (List.contains_iff_mem.mp h)
  · obtain ⟨f, hfind⟩ := Option.isSome_iff_exists.mp h
    rw [Function.ofName?] at hfind
    have hname := List.find?_some hfind
    rw [← beq_iff_eq.mp hname]
    exact hf f (List.mem_of_find?_eq_some hfind)

theorem isWordChar_of_isReserved {n : String} (h : isReserved n = true) :
    ∀ c ∈ n.toList, isWordChar c = true := by
  have hall := forall_reserved (P := fun w => w.toList.all isWordChar = true)
    (by decide +kernel) (by decide +kernel) h
  exact List.all_eq_true.mp hall

/-- The names among some tokens. -/
def wordsAmong (ts : List Token) : List String :=
  (ts.filter (·.kind == .name)).map (·.text)

theorem wordsAmong_append (ts us : List Token) :
    wordsAmong (ts ++ us) = wordsAmong ts ++ wordsAmong us := by
  rw [wordsAmong, List.filter_append, List.map_append]
  rfl

theorem wordsAmong_cons_of_name {t : Token} (h : t.kind = .name) (ts : List Token) :
    wordsAmong (t :: ts) = t.text :: wordsAmong ts := by
  rw [wordsAmong, List.filter_cons_of_pos (by simp [h]), List.map_cons]
  rfl

theorem wordsAmong_cons_of_ne_name {t : Token} (h : t.kind ≠ .name) (ts : List Token) :
    wordsAmong (t :: ts) = wordsAmong ts := by
  rw [wordsAmong, List.filter_cons_of_neg (by simp [h])]
  rfl

/-- The names of some that are not reserved. -/
def unreserved (ns : List String) : List String := ns.filter (!isReserved ·)

theorem unreserved_append (ns ms : List String) :
    unreserved (ns ++ ms) = unreserved ns ++ unreserved ms :=
  List.filter_append ns ms

theorem unreserved_cons_of_isReserved {n : String} (h : isReserved n = true) (ns : List String) :
    unreserved (n :: ns) = unreserved ns :=
  List.filter_cons_of_neg (by simp [h])

theorem unreserved_cons (n : String) (ns : List String) :
    unreserved (n :: ns) = unreserved [n] ++ unreserved ns :=
  unreserved_append [n] ns

/-- A name right behind a numeral is a reserved word. -/
def Parted (t u : Token) : Prop := t.kind = .number → u.kind = .name → isReserved u.text = true

theorem breaks_cutQuoted {y : List Char} (h : Breaks y) : Breaks (cutQuoted y) := by
  intro c hc
  cases y with
  | nil =>
    rw [cutQuoted] at hc
    cases hc
  | cons d y =>
    by_cases hd : isQuote d = true
    · rw [cutQuoted_quote hd] at hc
      cases hc
      decide
    · rw [cutQuoted_cons (by simpa using hd)] at hc
      exact h c hc

theorem breaks_dropWhile_append {z : List Char} (hz : Breaks z) (r : List Char) :
    Breaks (r.dropWhile isNameChar ++ z) := by
  intro c hc
  have hhead := List.head?_dropWhile_not isNameChar r
  cases hd : r.dropWhile isNameChar with
  | nil =>
    rw [hd] at hc
    exact hz c hc
  | cons d s =>
    rw [hd] at hc hhead
    cases hc
    simpa using hhead

theorem isNameChar_of_mem_name {c : Char} {r : List Char} (start : isNameStart c = true) :
    ∀ x ∈ c :: r.takeWhile isNameChar, isNameChar x = true :=
  List.forall_mem_cons.mpr ⟨isNameChar_of_isNameStart start, fun _ hx => List.mem_takeWhile_imp hx⟩

/-- Cutting out the quoted parts leaves a name as it is. -/
theorem cutQuoted_name {c : Char} {r z : List Char} (start : isNameStart c = true) :
    cutQuoted (c :: r ++ z) =
      c :: r.takeWhile isNameChar ++ cutQuoted (r.dropWhile isNameChar ++ z) := by
  rw [← cutQuoted_append fun x hx => isQuote_of_isNameChar (isNameChar_of_mem_name start x hx),
    List.cons_append, List.cons_append, ← List.append_assoc, List.takeWhile_append_dropWhile]

/-- Blanks have no names. -/
theorem namesIn_of_blanks {z : List Char} (hz : ∀ c ∈ z, isBlank c = true) (joined : Bool) :
    namesIn joined (cutQuoted z) = [] := by
  induction z generalizing joined with
  | nil => rw [cutQuoted, namesIn]
  | cons c z ih =>
    have hp := isPlain_of_isBlank (hz c List.mem_cons_self)
    rw [cutQuoted_cons (isQuote_of_isPlain hp), namesIn_plain hp]
    exact ih (fun x hx => hz x (List.mem_cons_of_mem _ hx)) false

theorem not_isNameChar_of_isBlank {c : Char} (h : isBlank c = true) : isNameChar c = false := by
  have hall : ∀ r ∈ blankRanges, ∀ n ∈ List.range' r.1 (r.2 + 1 - r.1),
      isNameChar (Char.ofNat n) = false := by
    decide +kernel
  obtain ⟨r, hr, h1, h2⟩ := inRanges_iff.mp h
  rw [← Char.ofNat_toNat c]
  exact hall r hr c.toNat (List.mem_range'_1.mpr ⟨h1, by omega⟩)

theorem breaks_of_blanks {z : List Char} (hz : ∀ c ∈ z, isBlank c = true) : Breaks z :=
  fun c hc => not_isNameChar_of_isBlank (hz c (List.mem_of_mem_head? hc))

/-- The search and the lexer find the same names that are not reserved, also when blanks follow the
text. -/
theorem unreserved_namesIn {z : List Char} (hz : ∀ c ∈ z, isBlank c = true) {position : Nat}
    {cs : List Char} {ts : List Token} (h : tokensFrom position cs = .ok ts)
    (hparted : ts.IsChain Parted) {joined : Bool}
    (hj : joined = true → Breaks (cs ++ z) ∨
      ∀ t ∈ ts.head?, t.kind = .name → isReserved t.text = true) :
    unreserved (namesIn joined (cutQuoted (cs ++ z))) = unreserved (wordsAmong ts) := by
  fun_induction tokensFrom position cs generalizing ts joined with
  | case1 position =>
    cases h
    rw [List.nil_append, namesIn_of_blanks hz]
    rfl
  | case2 position c r hb ih =>
    have hp := isPlain_of_isBlank hb
    rw [List.cons_append, cutQuoted_cons (isQuote_of_isPlain hp), namesIn_plain hp]
    exact ih h hparted nofun
  | case3 position c r hb fault hl => cases h
  | case4 position c r hb l hl e he ih => cases h
  | case5 position c r hb l hl ts' hts ih =>
    cases h
    have hrest : ts'.IsChain Parted := hparted.tail
    cases lexeme_cases hl with
    | numeral kind p numeric split =>
      rw [wordsAmong_cons_of_ne_name (by simp [kind])]
      rw [split, List.append_assoc, cutQuoted_append numeric.1, numeric.2]
      refine ih hts hrest fun _ => Or.inr fun t ht => ?_
      exact (List.isChain_cons.mp hparted).1 t ht kind
    | name kind start text left =>
      have hb' := breaks_dropWhile_append (breaks_of_blanks hz) r
      have hp : ∀ x ∈ r.takeWhile isNameChar, isNameChar x = true :=
        fun _ hx => List.mem_takeWhile_imp hx
      rw [left] at ih hts
      rw [cutQuoted_name start, wordsAmong_cons_of_name kind, unreserved_cons, List.cons_append]
      cases joined with
      | false =>
        obtain ⟨j, hfound⟩ := namesIn_name start hp (breaks_cutQuoted hb')
        rw [hfound, unreserved_cons, ih hts hrest fun _ => Or.inl hb', text]
      | true =>
        -- Right behind a numeral: the search passes over the name, which is a reserved word
        have hreserved : isReserved l.text = true := by
          rcases hj rfl with hbreak | hhead
          · have := hbreak c rfl
            rw [isNameChar_of_isNameStart start] at this
            cases this
          · exact hhead _ rfl kind
        have hword := isWordChar_of_isReserved hreserved
        rw [text, String.toList_ofList] at hword
        rw [← List.cons_append, namesIn_word hword, ih hts hrest fun _ => Or.inl hb',
          unreserved_cons_of_isReserved hreserved]
        rfl
    | quoted kind quote body scanned =>
      rw [wordsAmong_cons_of_ne_name (by simp [kind])]
      rw [List.cons_append, cutQuoted_quote quote, namesIn_plain (by decide +kernel),
        (dropQuoted_of_scanQuoted? scanned).1]
      exact ih hts hrest nofun
    | plain kind p ne plain split =>
      rw [wordsAmong_cons_of_ne_name kind.2]
      rw [split, List.append_assoc, cutQuoted_append fun x hx => isQuote_of_isPlain (plain x hx),
        namesIn_plain_append plain ne]
      exact ih hts hrest nofun

/-! ## Words and operators -/

/-- The text of a name is no operator. -/
def Token.IsProper (t : Token) : Prop := t.kind = .name → t.text ∉ operators

theorem not_mem_operators_of_isNameStart {c : Char} (h : isNameStart c = true) (cs : List Char) :
    String.ofList (c :: cs) ∉ operators := by
  intro hmem
  have hplain := isPlain_of_mem_operators hmem c
    (by rw [String.toList_ofList]; exact List.mem_cons_self)
  simp [isPlain, h] at hplain

/-- The lexer takes no operator for a name. -/
theorem not_mem_operators_of_lexeme {c : Char} {r : List Char} {l : Lexeme}
    (h : lexeme c r = .ok l) (hname : l.kind = .name) : l.text ∉ operators := by
  cases lexeme_cases h with
  | numeral kind => rw [kind] at hname; cases hname
  | name kind start text =>
    rw [text]
    exact not_mem_operators_of_isNameStart start _
  | quoted kind => rw [kind] at hname; cases hname
  | plain kind => exact absurd hname kind.2

/-- What holds of the ending and of every lexeme holds of all tokens. -/
theorem forall_of_tokensFrom {P : Token → Prop} (hending : ∀ position, P ⟨.ending, "", position⟩)
    (hlexeme : ∀ {c r l} position, lexeme c r = .ok l → P ⟨l.kind, l.text, position⟩)
    {position : Nat} {cs : List Char} {ts : List Token} (h : tokensFrom position cs = .ok ts) :
    ∀ t ∈ ts, P t := by
  fun_induction tokensFrom position cs generalizing ts with
  | case1 position =>
    cases h
    exact List.forall_mem_singleton.mpr (hending position)
  | case2 position c r hb ih => exact ih h
  | case3 position c r hb fault hl => cases h
  | case4 position c r hb l hl e he ih => cases h
  | case5 position c r hb l hl ts' hts ih =>
    cases h
    exact List.forall_mem_cons.mpr ⟨hlexeme position hl, ih hts⟩

theorem kind_ne_ending_of_lexeme {c : Char} {r : List Char} {l : Lexeme}
    (h : lexeme c r = .ok l) : l.kind ≠ .ending := by
  revert h
  fun_cases lexeme c r with
  | case1 | case4 | case5 | case11 =>
    intro h
    cases h
  | case2 | case3 | case6 | case7 | case8 | case9 | case10 =>
    rintro ⟨⟩
    exact TokenKind.noConfusion

/-- Nothing follows the ending. -/
theorem isChain_of_tokensFrom {position : Nat} {cs : List Char} {ts : List Token}
    (h : tokensFrom position cs = .ok ts) : ts.IsChain fun t _ => t.kind ≠ .ending := by
  fun_induction tokensFrom position cs generalizing ts with
  | case1 position =>
    cases h
    exact List.isChain_singleton _
  | case2 position c r hb ih => exact ih h
  | case3 position c r hb fault hl => cases h
  | case4 position c r hb l hl e he ih => cases h
  | case5 position c r hb l hl ts' hts ih =>
    cases h
    exact List.isChain_cons.mpr ⟨fun _ _ => kind_ne_ending_of_lexeme hl, ih hts⟩

end LiveForm.Expr
