import LiveForm.Expr.Parser
import LiveForm.Proofs.Expr.Scanning
import LiveForm.Proofs.Number.Numeral

/-!
# The grammar of expressions

`Derives` is the grammar that the parser is documented to read, with rows of tokens in place of
texts.  A derivation says how many further levels of nesting there may be around a token of the
row, where parentheses, the arguments of a call and the operand of a prefix operator are one level
each.

`expression_reads` says that the parser takes nothing but what the grammar derives.
-/

namespace LiveForm.Expr

open Text

/-! ## Operators -/

/-- The levels of binary operators, loosest first. -/
inductive Level where
  | or
  | and
  | comparison
  | sum
  | product
  deriving DecidableEq, Repr

/-- How the operators of a level are spelled. -/
def Level.operators : Level → List (String × BinaryOp)
  | or => [("||", .or), ("or", .or)]
  | and => [("&&", .and), ("and", .and)]
  | comparison =>
    [("<", .compare .lt), (">", .compare .gt), ("<=", .compare .le), (">=", .compare .ge),
     ("==", .compare .eq), ("===", .compare .eq), ("!=", .compare .ne), ("!==", .compare .ne),
     ("<>", .compare .ne)]
  | sum => [("+", .arithmetic .add), ("-", .arithmetic .sub)]
  | product => [("*", .arithmetic .mul), ("/", .arithmetic .div), ("%", .arithmetic .mod)]

/-- How the prefix operators are spelled. -/
def prefixes : List (String × UnaryOp) :=
  [("-", .minus), ("+", .plus), ("!", .not), ("not", .not)]

/-- The token, a symbol or a word, is a spelling of the operator. -/
def Token.Spells {α : Type} (t : Token) (table : List (String × α)) (op : α) : Prop :=
  (t.kind = .operator ∨ t.kind = .name) ∧ (t.text, op) ∈ table

/-- A name that can be that of a variable or of a function. -/
def Token.IsIdentifier (t : Token) : Prop :=
  t.kind = .name ∧ t.text ∉ ["true", "false", "not"]

/-- How the parser looks for the operators of a level. -/
def Level.op? : Level → Token → Option BinaryOp
  | or => orOp?
  | and => andOp?
  | comparison => comparisonOp?
  | sum => sumOp?
  | product => productOp?

theorem isOperatorLike_iff {t : Token} :
    t.isOperatorLike = true ↔ t.kind = .operator ∨ t.kind = .name := by
  simp [Token.isOperatorLike]

theorem relation?_eq_some_iff {s : String} {r : Relation} :
    relation? s = some r ↔ (s, BinaryOp.compare r) ∈ Level.comparison.operators := by
  simp only [relation?, Level.operators, List.mem_cons, Prod.mk.injEq, BinaryOp.compare.injEq,
    List.not_mem_nil, or_false]
  constructor
  · intro h
    split_ifs at h <;> grind
  · rintro (⟨rfl, rfl⟩ | ⟨rfl, rfl⟩ | ⟨rfl, rfl⟩ | ⟨rfl, rfl⟩ | ⟨rfl, rfl⟩ | ⟨rfl, rfl⟩ |
      ⟨rfl, rfl⟩ | ⟨rfl, rfl⟩ | ⟨rfl, rfl⟩) <;> rfl

/-- The parser looks for the operators in the table of the level. -/
theorem op?_eq_some_iff {l : Level} {t : Token} {op : BinaryOp} :
    l.op? t = some op ↔ t.Spells l.operators op := by
  rw [Token.Spells, ← isOperatorLike_iff]
  cases l with
  | or =>
    simp only [Level.op?, orOp?, Level.operators, List.mem_cons, Prod.mk.injEq, List.not_mem_nil]
    grind
  | and =>
    simp only [Level.op?, andOp?, Level.operators, List.mem_cons, Prod.mk.injEq, List.not_mem_nil]
    grind
  | comparison =>
    simp only [Level.op?, comparisonOp?, Option.ite_none_right_eq_some, Option.map_eq_some_iff,
      relation?_eq_some_iff]
    refine and_congr_right fun _ => ⟨?_, fun h => ?_⟩
    · rintro ⟨r, hr, rfl⟩
      exact hr
    · cases op with
      | compare r => exact ⟨r, h, rfl⟩
      | or | and | arithmetic => simp [Level.operators] at h
  | sum =>
    simp only [Level.op?, sumOp?, Level.operators, List.mem_cons, Prod.mk.injEq, List.not_mem_nil]
    grind
  | product =>
    simp only [Level.op?, productOp?, Level.operators, List.mem_cons, Prod.mk.injEq,
      List.not_mem_nil]
    grind

theorem prefixOp?_eq_some_iff {t : Token} {op : UnaryOp} :
    prefixOp? t = some op ↔ t.Spells prefixes op := by
  rw [Token.Spells, ← isOperatorLike_iff]
  simp only [prefixOp?, prefixes, List.mem_cons, Prod.mk.injEq, List.not_mem_nil]
  grind

/-! ## Derivations -/

/-- What a row of tokens can be derived as: operands between the operators of a level, or one
operand. -/
inductive Phrase where
  | level (l : Level)
  | operand
  deriving DecidableEq, Repr

/-- What stands between the operators of a level. -/
def Level.operands : Level → Phrase
  | or => .level .and
  | and => .level .comparison
  | comparison => .level .sum
  | sum => .level .product
  | product => .operand

mutual

/-- The row of tokens is derived as an expression, with so many levels of nesting at most around
each of them. -/
inductive Derives : Nat → Phrase → List Token → Expr → Prop
  | number {n : Nat} {t : Token} {x : Binary64} (kind : t.kind = .number)
    (read : Number.readNumber? t.text = some x) :
    Derives n .operand [t] (.literal (.number x))
  | text {n : Nat} {t : Token} (kind : t.kind = .string) :
    Derives n .operand [t] (.literal (.text t.text))
  | true {n : Nat} {t : Token} (kind : t.kind = .name) (word : t.text = "true") :
    Derives n .operand [t] (.literal (.flag Bool.true))
  | false {n : Nat} {t : Token} (kind : t.kind = .name) (word : t.text = "false") :
    Derives n .operand [t] (.literal (.flag Bool.false))
  | variable {n : Nat} {t : Token} (identifier : t.IsIdentifier) :
    Derives n .operand [t] (.name t.text)
  | parentheses {n : Nat} {opening closing : Token} {ts : List Token} {e : Expr}
    (left : opening.kind = .lparen) (inner : Derives n (.level .or) ts e)
    (right : closing.kind = .rparen) :
    Derives (n + 1) .operand (opening :: ts ++ [closing]) e
  | unary {n : Nat} {t : Token} {op : UnaryOp} {ts : List Token} {e : Expr}
    (spells : t.Spells prefixes op) (inner : Derives n .operand ts e) :
    Derives (n + 1) .operand (t :: ts) (.unary op e)
  | emptyCall {n : Nat} {t opening closing : Token} (identifier : t.IsIdentifier)
    (left : opening.kind = .lparen) (right : closing.kind = .rparen) :
    Derives n .operand [t, opening, closing] (.call t.text [])
  | call {n : Nat} {t opening closing : Token} {ts : List Token} {es : List Expr}
    (identifier : t.IsIdentifier) (left : opening.kind = .lparen)
    (inner : DerivesAll n ts es) (right : closing.kind = .rparen) :
    Derives (n + 1) .operand (t :: opening :: ts ++ [closing]) (.call t.text es)
  | single {n : Nat} {l : Level} {ts : List Token} {e : Expr} (inner : Derives n l.operands ts e) :
    Derives n (.level l) ts e
  | binary {n : Nat} {l : Level} {t : Token} {op : BinaryOp} {ts us : List Token} {a b : Expr}
    (left : Derives n (.level l) ts a) (spells : t.Spells l.operators op)
    (right : Derives n l.operands us b) :
    Derives n (.level l) (ts ++ t :: us) (.binary op a b)

/-- The row of tokens is derived as expressions with commas between them. -/
inductive DerivesAll : Nat → List Token → List Expr → Prop
  | last {n : Nat} {ts : List Token} {e : Expr} (only : Derives n (.level .or) ts e) :
    DerivesAll n ts [e]
  | more {n : Nat} {comma : Token} {ts us : List Token} {e : Expr} {es : List Expr}
    (first : Derives n (.level .or) ts e) (between : comma.kind = .comma)
    (others : DerivesAll n us es) :
    DerivesAll n (ts ++ comma :: us) (e :: es)

end

mutual

/-- More nesting may be allowed. -/
theorem Derives.mono {n m : Nat} {p : Phrase} {ts : List Token} {e : Expr} (h : Derives n p ts e)
    (hnm : n ≤ m) : Derives m p ts e :=
  match h, m, hnm with
  | .number kind read, _, _ => .number kind read
  | .text kind, _, _ => .text kind
  | .true kind word, _, _ => .true kind word
  | .false kind word, _, _ => .false kind word
  | .variable identifier, _, _ => .variable identifier
  | .parentheses left inner right, _ + 1, h =>
    .parentheses left (inner.mono (Nat.le_of_succ_le_succ h)) right
  | .unary spells inner, _ + 1, h => .unary spells (inner.mono (Nat.le_of_succ_le_succ h))
  | .emptyCall identifier left right, _, _ => .emptyCall identifier left right
  | .call identifier left inner right, _ + 1, h =>
    .call identifier left (inner.mono (Nat.le_of_succ_le_succ h)) right
  | .single inner, _, h => .single (inner.mono h)
  | .binary left spells right, _, h => .binary (left.mono h) spells (right.mono h)

theorem DerivesAll.mono {n m : Nat} {ts : List Token} {es : List Expr} (h : DerivesAll n ts es)
    (hnm : n ≤ m) : DerivesAll m ts es :=
  match h, m, hnm with
  | .last only, _, h => .last (only.mono h)
  | .more first between others, _, h => .more (first.mono h) between (others.mono h)

end

/-! ## What the tokens of a text are like -/

/-- What holds of every token that the lexer finds: no name is spelled like a symbol, and every
numeral denotes a number. -/
structure Token.IsLexical (t : Token) : Prop where
  proper : t.IsProper
  numeral : t.kind = .number → ∃ x, Number.readNumber? t.text = some x

/-- The lexer takes nothing but numerals for numbers. -/
theorem readNumber?_of_lexeme {c : Char} {r : List Char} {l : Lexeme} (h : lexeme c r = .ok l)
    (hnumber : l.kind = .number) : ∃ x, Number.readNumber? l.text = some x := by
  revert h hnumber
  fun_cases lexeme c r with
  | case1 | case4 | case5 | case11 =>
    intro h
    cases h
  | case3 | case6 | case7 | case8 | case9 | case10 =>
    rintro ⟨⟩ hnumber
    cases hnumber
  | case2 _ n rest hn =>
    rintro ⟨⟩ -
    obtain ⟨p, hsplit, -, -, hp⟩ := Number.scanNumeral?_split hn
    have htaken : (c :: r).take ((c :: r).length - rest.length) = p := by
      rw [hsplit, List.length_append, Nat.add_sub_cancel, List.take_left]
    refine ⟨n.toBinary64 false, ?_⟩
    dsimp only
    rw [htaken]
    exact Number.readNumber?_of_scanNumeral? hp false

theorem isLexical_of_tokensFrom {position : Nat} {cs : List Char} {ts : List Token}
    (h : tokensFrom position cs = .ok ts) : ∀ t ∈ ts, t.IsLexical :=
  forall_of_tokensFrom (fun _ => ⟨nofun, nofun⟩)
    (fun _ hl => ⟨not_mem_operators_of_lexeme hl, readNumber?_of_lexeme hl⟩) h

/-! ## What the parser takes -/

/-- Whatever the reader takes of the tokens of a text is derived as the expression that it reads. -/
def Reads (n : Nat) (p : Phrase) (r : Reader Expr) : Prop :=
  ∀ ⦃ts e rest⦄, (∀ t ∈ ts, t.IsLexical) → r ts = .ok (e, rest) →
    ∃ taken, ts = taken ++ rest ∧ Derives n p taken e

/-- If the reader takes anything, it is derived with one level of nesting less. -/
def ReadsNested (n : Nat) (p : Phrase) (r : Reader Expr) : Prop :=
  ∀ ⦃ts a⦄, r ts = .ok a → ∃ m, n = m + 1 ∧ Reads m p r

theorem cons_of_kind_ne_ending {ts : List Token} (h : (current ts).kind ≠ .ending) :
    ts = current ts :: ts.tail := by
  cases ts with
  | nil => exact absurd rfl h
  | cons t ts => rfl

theorem isLexical_of_append {ts taken rest : List Token} (hts : ∀ t ∈ ts, t.IsLexical)
    (h : ts = taken ++ rest) : ∀ t ∈ rest, t.IsLexical :=
  fun t ht => hts t (h ▸ List.mem_append_right _ ht)

theorem isLexical_tail {ts : List Token} (hts : ∀ t ∈ ts, t.IsLexical) :
    ∀ t ∈ ts.tail, t.IsLexical :=
  fun t ht => hts t (List.mem_of_mem_tail ht)

/-- A spelling of an operator is no ending. -/
theorem Token.Spells.cons {α : Type} {table : List (String × α)} {op : α} {ts : List Token}
    (h : (current ts).Spells table op) : ts = current ts :: ts.tail := by
  refine cons_of_kind_ne_ending fun hk => ?_
  rcases h.1 with h | h <;> rw [hk] at h <;> cases h

/-- A required token is in front. -/
theorem expect_eq_ok_iff {kind : TokenKind} {ts rest : List Token} (hk : kind ≠ .ending) :
    expect kind ts = .ok rest ↔ ∃ t, t.kind = kind ∧ ts = t :: rest := by
  unfold expect
  dsimp only
  constructor
  · intro h
    split at h
    · next hkind =>
      cases h
      exact ⟨current ts, hkind, cons_of_kind_ne_ending (hkind ▸ hk)⟩
    · cases h
  · rintro ⟨t, hkind, rfl⟩
    exact if_pos hkind

/-- What stands in parentheses is followed by the closing one. -/
theorem close_eq_ok_iff {α : Type} {a b : α} {ts rest : List Token} :
    (expect .rparen ts).map (fun rest => (a, rest)) = .ok (b, rest) ↔
      a = b ∧ ∃ closing, closing.kind = .rparen ∧ ts = closing :: rest := by
  rw [← expect_eq_ok_iff (by decide)]
  cases expect .rparen ts with
  | error e => simp [Except.map]
  | ok r => simp [Except.map]

section

variable {n : Nat} {l : Level} {operand : Reader Expr}

/-- The loop over a level goes on with a row of it. -/
theorem levelFrom_reads (ho : Reads n l.operands operand) {fuel : Nat} {left e : Expr}
    {ts rest before : List Token} (hts : ∀ t ∈ ts, t.IsLexical)
    (h : levelFrom l.op? operand fuel left ts = .ok (e, rest))
    (hleft : Derives n (.level l) before left) :
    ∃ taken, ts = taken ++ rest ∧ Derives n (.level l) (before ++ taken) e := by
  induction fuel generalizing left ts before with
  | zero =>
    cases h
    exact ⟨[], rfl, by rwa [List.append_nil]⟩
  | succ fuel ih =>
    rw [levelFrom] at h
    split at h
    · cases h
      exact ⟨[], rfl, by rwa [List.append_nil]⟩
    · next op hop =>
      split at h
      · cases h
      · next right rest' hright =>
        have hspells := op?_eq_some_iff.mp hop
        have htail := isLexical_tail hts
        obtain ⟨middle, hmiddle, hr⟩ := ho htail hright
        obtain ⟨taken, rfl, hd⟩ :=
          ih (isLexical_of_append htail hmiddle) h (.binary hleft hspells hr)
        refine ⟨current ts :: middle ++ taken, ?_, by rwa [List.append_assoc] at hd⟩
        rw [List.append_assoc, List.cons_append, ← hmiddle]
        exact hspells.cons

theorem level_reads (ho : Reads n l.operands operand) :
    Reads n (.level l) (level l.op? operand) := by
  intro ts e rest hts h
  unfold level at h
  split at h
  · cases h
  · next left rest' hleft =>
    obtain ⟨before, hbefore, hl⟩ := ho hts hleft
    obtain ⟨taken, rfl, hd⟩ :=
      levelFrom_reads ho (isLexical_of_append hts hbefore) h (.single hl)
    exact ⟨before ++ taken, by rw [hbefore, List.append_assoc], hd⟩

theorem levels_reads (ho : Reads n .operand operand) : Reads n (.level .or) (levels operand) :=
  level_reads (l := .or) <| level_reads (l := .and) <| level_reads (l := .comparison) <|
    level_reads (l := .sum) <| level_reads (l := .product) ho

end

section

variable {n : Nat} {nested nestedOperand : Reader Expr}

/-- The closing parenthesis behind the last argument. -/
theorem closing_reads {e : Expr} {args es : List Expr} {ts rest before : List Token}
    (h : (expect .rparen ts).map (fun rest => ((e :: args).reverse, rest)) = .ok (es, rest))
    (hlast : Derives n (.level .or) before e) :
    ∃ taken closing more, ts = taken ++ closing :: rest ∧ closing.kind = .rparen ∧
      es = args.reverse ++ more ∧ DerivesAll n (before ++ taken) more := by
  obtain ⟨rfl, closing, hkind, rfl⟩ := close_eq_ok_iff.mp h
  refine ⟨[], closing, [e], rfl, hkind, List.reverse_cons, ?_⟩
  rw [List.append_nil]
  exact .last hlast

/-- The loop over arguments goes on behind one of them, up to the closing parenthesis. -/
theorem argumentsFrom_reads (ho : Reads n (.level .or) nested) {fuel : Nat} {e : Expr}
    {args es : List Expr} {ts rest before : List Token} (hts : ∀ t ∈ ts, t.IsLexical)
    (h : argumentsFrom nested fuel (e :: args) ts = .ok (es, rest))
    (hlast : Derives n (.level .or) before e) :
    ∃ taken closing more, ts = taken ++ closing :: rest ∧ closing.kind = .rparen ∧
      es = args.reverse ++ more ∧ DerivesAll n (before ++ taken) more := by
  induction fuel generalizing e args ts before with
  | zero => exact closing_reads h hlast
  | succ fuel ih =>
    rw [argumentsFrom] at h
    split at h
    · next hcomma =>
      split at h
      · cases h
      · next arg rest' harg =>
        have htail := isLexical_tail hts
        obtain ⟨middle, hmiddle, ha⟩ := ho htail harg
        obtain ⟨taken, closing, more, rfl, hclosing, rfl, hd⟩ :=
          ih (isLexical_of_append htail hmiddle) h ha
        refine ⟨current ts :: (middle ++ taken), closing, e :: more, ?_, hclosing, ?_,
          .more hlast hcomma hd⟩
        · rw [List.cons_append, List.append_assoc, ← hmiddle]
          exact cons_of_kind_ne_ending (by simp [hcomma])
        · rw [List.reverse_cons, List.append_assoc, List.singleton_append]
    · exact closing_reads h hlast

/-- The arguments of a call, in parentheses. -/
theorem arguments_reads (ho : ReadsNested n (.level .or) nested) {es : List Expr}
    {ts rest : List Token} (hts : ∀ t ∈ ts, t.IsLexical)
    (h : arguments nested ts = .ok (es, rest)) :
    ∃ opening taken closing, opening.kind = .lparen ∧ closing.kind = .rparen ∧
      ts = opening :: taken ++ closing :: rest ∧
      (taken = [] ∧ es = [] ∨ ∃ m, n = m + 1 ∧ DerivesAll m taken es) := by
  unfold arguments at h
  split at h
  · cases h
  · next ts' hts' =>
    obtain ⟨opening, hopening, rfl⟩ := (expect_eq_ok_iff (by decide)).mp hts'
    have htail := isLexical_tail hts
    split at h
    · next hclosing =>
      cases h
      refine ⟨opening, [], current ts', hopening, hclosing, ?_, Or.inl ⟨rfl, rfl⟩⟩
      exact congrArg (opening :: ·) (cons_of_kind_ne_ending (by simp [hclosing]))
    · split at h
      · cases h
      · next arg rest' harg =>
        obtain ⟨m, rfl, hm⟩ := ho harg
        obtain ⟨middle, rfl, ha⟩ := hm htail harg
        obtain ⟨taken, closing, more, rfl, hclosing, rfl, hd⟩ :=
          argumentsFrom_reads hm (isLexical_of_append htail rfl) h ha
        refine ⟨opening, middle ++ taken, closing, hopening, hclosing, ?_, Or.inr ⟨m, rfl, hd⟩⟩
        rw [List.cons_append, List.append_assoc]

/-- A name, given that it is no prefix operator. -/
theorem name_reads (ho : ReadsNested n (.level .or) nested) {e : Expr} {ts rest : List Token}
    (hts : ∀ t ∈ ts, t.IsLexical) (hk : (current ts).kind = .name)
    (hoperator : prefixOp? (current ts) = none) (h : primary nested ts = .ok (e, rest)) :
    ∃ taken, ts = taken ++ rest ∧ Derives n .operand taken e := by
  have hcons : ts = current ts :: ts.tail := cons_of_kind_ne_ending (by simp [hk])
  have hnot : (current ts).text ≠ "not" := by
    intro hnot
    have : prefixOp? (current ts) = some .not :=
      prefixOp?_eq_some_iff.mpr ⟨Or.inr hk, hnot ▸ by decide⟩
    rw [hoperator] at this
    cases this
  simp only [primary, hk, beq_iff_eq] at h
  split_ifs at h with htrue hfalse hcall
  · cases h
    exact ⟨[current ts], hcons, .true hk htrue⟩
  · cases h
    exact ⟨[current ts], hcons, .false hk hfalse⟩
  · have hid : (current ts).IsIdentifier := ⟨hk, by simp [htrue, hfalse, hnot]⟩
    cases ha : arguments nested ts.tail with
    | error e =>
      rw [ha] at h
      cases h
    | ok p =>
      rw [ha] at h
      cases h
      obtain ⟨opening, taken, closing, hopening, hclosing, htaken, hd⟩ :=
        arguments_reads ho (isLexical_tail hts) ha
      refine ⟨current ts :: opening :: taken ++ [closing], ?_, ?_⟩
      · rw [List.append_assoc, List.singleton_append, List.cons_append, ← htaken]
        exact hcons
      · rcases hd with ⟨rfl, hes⟩ | ⟨m, rfl, hd⟩
        · rw [hes]
          exact .emptyCall hid hopening hclosing
        · exact .call hid hopening hd hclosing
  · cases h
    exact ⟨[current ts], hcons, .variable ⟨hk, by simp [htrue, hfalse, hnot]⟩⟩

theorem primary_reads (ho : ReadsNested n (.level .or) nested) {e : Expr} {ts rest : List Token}
    (hts : ∀ t ∈ ts, t.IsLexical) (hoperator : prefixOp? (current ts) = none)
    (h : primary nested ts = .ok (e, rest)) :
    ∃ taken, ts = taken ++ rest ∧ Derives n .operand taken e := by
  by_cases hname : (current ts).kind = .name
  · exact name_reads ho hts hname hoperator h
  unfold primary at h
  dsimp only at h
  split at h
  · next hk =>
    cases h
    have hcons : ts = current ts :: ts.tail := cons_of_kind_ne_ending (by simp [hk])
    obtain ⟨x, hx⟩ := (hts (current ts) (hcons ▸ List.mem_cons_self)).numeral hk
    refine ⟨[current ts], hcons, ?_⟩
    rw [hx]
    exact .number hk hx
  · next hk =>
    cases h
    exact ⟨[current ts], cons_of_kind_ne_ending (by simp [hk]), .text hk⟩
  · next hk =>
    split at h
    · cases h
    · next e' rest' he =>
      obtain ⟨m, rfl, hm⟩ := ho he
      obtain ⟨middle, hmiddle, hd⟩ := hm (isLexical_tail hts) he
      obtain ⟨rfl, closing, hclosing, rfl⟩ := close_eq_ok_iff.mp h
      refine ⟨current ts :: middle ++ [closing], ?_, .parentheses hk hd hclosing⟩
      rw [List.append_assoc, List.singleton_append, List.cons_append, ← hmiddle]
      exact cons_of_kind_ne_ending (by simp [hk])
  · next hk => exact absurd hk hname
  · cases h

theorem operandWith_reads (hop : ReadsNested n .operand nestedOperand)
    (ho : ReadsNested n (.level .or) nested) :
    Reads n .operand (operandWith nestedOperand nested) := by
  intro ts e rest hts h
  unfold operandWith at h
  split at h
  · next op hoperator =>
    have hspells := prefixOp?_eq_some_iff.mp hoperator
    cases hx : nestedOperand ts.tail with
    | error e =>
      rw [hx] at h
      cases h
    | ok p =>
      rw [hx] at h
      cases h
      obtain ⟨m, rfl, hm⟩ := hop hx
      obtain ⟨taken, htaken, hd⟩ := hm (isLexical_tail hts) hx
      refine ⟨current ts :: taken, ?_, .unary hspells hd⟩
      rw [List.cons_append, ← htaken]
      exact hspells.cons
  · next hoperator => exact primary_reads ho hts hoperator h

end

theorem refuseNesting_reads (n : Nat) (p : Phrase) : ReadsNested n p refuseNesting :=
  fun _ _ h => by cases h

theorem operand_reads (n : Nat) : Reads n .operand (operand n) := by
  induction n with
  | zero => exact operandWith_reads (refuseNesting_reads 0 _) (refuseNesting_reads 0 _)
  | succ n ih =>
    exact operandWith_reads (fun _ _ _ => ⟨n, rfl, ih⟩) (fun _ _ _ => ⟨n, rfl, levels_reads ih⟩)

/-- The parser takes nothing but what the grammar derives as an expression. -/
theorem expression_reads (n : Nat) : Reads n (.level .or) (expression n) :=
  levels_reads (operand_reads n)

end LiveForm.Expr
