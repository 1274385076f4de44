import LiveForm.Proofs.Expr.Grammar

/-!
# The parser accepts its grammar

Whatever the grammar derives is read, with the tree of the derivation, by the reader of its phrase
(`Derives.reached`).  With `expression_reads` this makes the parser and the grammar one:
`parse_accepts`.  A row of tokens has one tree at most, since the parser finds no other one.
-/

namespace LiveForm.Expr

/-! ## Readers of phrases -/

/-- How tightly the operators of a level bind. -/
def Level.tightness : Level → Nat
  | or => 0
  | and => 1
  | comparison => 2
  | sum => 3
  | product => 4

/-- How tightly a phrase holds together. -/
def Phrase.tightness : Phrase → Nat
  | level l => l.tightness
  | operand => 5

theorem Level.tightness_operands (l : Level) :
    l.operands.tightness = l.tightness + 1 := by
  cases l <;> rfl

/-- The part of the parser that reads a phrase. -/
def Phrase.reader (n : Nat) : Phrase → Reader Expr :=
  let product := Expr.level productOp? (Expr.operand n)
  let sum := Expr.level sumOp? product
  let comparison := Expr.level comparisonOp? sum
  let and := Expr.level andOp? comparison
  fun
  | operand => Expr.operand n
  | level .product => product
  | level .sum => sum
  | level .comparison => comparison
  | level .and => and
  | level .or => Expr.level orOp? and

theorem Phrase.reader_level (n : Nat) (l : Level) :
    (Phrase.level l).reader n = Expr.level l.op? (l.operands.reader n) := by
  cases l <;> rfl

/-! ## What stands behind a phrase -/

/-- No operator is spelled alike on two levels. -/
theorem Level.eq_of_spelled {l l' : Level} :
    ∀ p ∈ l.operators, ∀ q ∈ l'.operators, p.1 = q.1 → l = l' := by
  cases l <;> cases l' <;> decide

/-- Only symbols and names are operators. -/
theorem op?_eq_none_of_kind {t : Token} (hs : t.kind ≠ .operator) (hn : t.kind ≠ .name)
    (l : Level) : l.op? t = none := by
  by_contra h
  obtain ⟨op, hop⟩ := Option.ne_none_iff_exists'.mp h
  rcases (op?_eq_some_iff.mp hop).1 with h | h
  · exact hs h
  · exact hn h

/-- The token can stand behind a row of the phrase: it opens no arguments, and is no operator that
binds tighter than the phrase holds together. -/
def Token.Follows (t : Token) (p : Phrase) : Prop :=
  t.kind ≠ .lparen ∧ ∀ l : Level, p.tightness < l.tightness → l.op? t = none

/-- A token behind which no expression goes on. -/
def Token.IsStop (t : Token) : Prop := t.kind = .rparen ∨ t.kind = .comma ∨ t.kind = .ending

theorem Token.isStop_of_rparen {t : Token} (h : t.kind = .rparen) : t.IsStop := Or.inl h

theorem Token.isStop_of_comma {t : Token} (h : t.kind = .comma) : t.IsStop := Or.inr (Or.inl h)

theorem Token.isStop_of_ending {t : Token} (h : t.kind = .ending) : t.IsStop :=
  Or.inr (Or.inr h)

theorem Token.IsStop.op?_eq_none {t : Token} (h : t.IsStop) (l : Level) : l.op? t = none := by
  refine op?_eq_none_of_kind ?_ ?_ l <;> rcases h with h | h | h <;> simp [h]

theorem Token.IsStop.follows {t : Token} (h : t.IsStop) (p : Phrase) : t.Follows p := by
  refine ⟨?_, fun l _ => h.op?_eq_none l⟩
  rcases h with h | h | h <;> simp [h]

/-- An operator of a level stands behind a row of it. -/
theorem Token.Spells.follows {t : Token} {l : Level} {op : BinaryOp}
    (h : t.Spells l.operators op) : t.Follows (.level l) := by
  refine ⟨fun hk => ?_, fun l' hl => ?_⟩
  · rcases h.1 with h | h <;> rw [hk] at h <;> cases h
  · by_contra hne
    obtain ⟨op', hop'⟩ := Option.ne_none_iff_exists'.mp hne
    cases Level.eq_of_spelled _ h.2 _ (op?_eq_some_iff.mp hop').2 rfl
    exact Nat.lt_irrefl _ hl

theorem Token.Follows.operands {t : Token} {l : Level} (h : t.Follows (.level l)) :
    t.Follows l.operands := by
  refine ⟨h.1, fun l' hl => h.2 l' ?_⟩
  rw [Level.tightness_operands] at hl
  exact Nat.lt_of_succ_lt hl

/-- The reader of the phrase has come to the expression, and has these tokens left. -/
def Phrase.Reached (n : Nat) (e : Expr) (rest : List Token)
    (outcome : Except SyntaxError (Expr × List Token)) : Phrase → Prop
  | operand => outcome = .ok (e, rest)
  | level l => ∃ fuel, rest.length ≤ fuel ∧
    outcome = levelFrom l.op? (l.operands.reader n) fuel e rest

theorem levelFrom_of_none {op? : Token → Option BinaryOp} {operand : Reader Expr} {fuel : Nat}
    {e : Expr} {ts : List Token} (h : op? (current ts) = none) :
    levelFrom op? operand fuel e ts = .ok (e, ts) := by
  cases fuel with
  | zero => rfl
  | succ fuel => rw [levelFrom, h]

/-- In front of no operator of its level a reader is done. -/
theorem Phrase.Reached.done {n : Nat} {e : Expr} {rest : List Token}
    {outcome : Except SyntaxError (Expr × List Token)} {p : Phrase}
    (h : p.Reached n e rest outcome)
    (hstop : ∀ l : Level, p.tightness ≤ l.tightness → l.op? (current rest) = none) :
    outcome = .ok (e, rest) := by
  cases p with
  | operand => exact h
  | level l =>
    obtain ⟨fuel, -, rfl⟩ := h
    exact levelFrom_of_none (hstop l (Nat.le_refl _))

/-! ## Operands -/

@[simp] theorem current_cons (t : Token) (ts : List Token) : current (t :: ts) = t := rfl

theorem prefixOp?_eq_none_of_kind {t : Token} (hs : t.kind ≠ .operator) (hn : t.kind ≠ .name) :
    prefixOp? t = none := by
  by_contra h
  obtain ⟨op, hop⟩ := Option.ne_none_iff_exists'.mp h
  rcases (prefixOp?_eq_some_iff.mp hop).1 with h | h
  · exact hs h
  · exact hn h

/-- A name of the lexer other than `not` is no prefix operator. -/
theorem prefixOp?_eq_none_of_name {t : Token} (hk : t.kind = .name) (ht : t.IsProper)
    (hnot : t.text ≠ "not") : prefixOp? t = none := by
  by_contra h
  obtain ⟨op, hop⟩ := Option.ne_none_iff_exists'.mp h
  have hall : ∀ p ∈ prefixes, p.1 ∈ operators ∨ p.1 = "not" := by decide
  rcases hall _ (prefixOp?_eq_some_iff.mp hop).2 with hsymbol | hword
  · exact ht hk hsymbol
  · exact hnot hword

theorem Token.IsIdentifier.ne {t : Token} (h : t.IsIdentifier) :
    t.text ≠ "true" ∧ t.text ≠ "false" ∧ t.text ≠ "not" := by
  have := h.2
  simpa only [List.mem_cons, List.not_mem_nil, or_false, not_or] using this

theorem Token.IsIdentifier.prefixOp?_eq_none {t : Token} (h : t.IsIdentifier) (ht : t.IsProper) :
    prefixOp? t = none :=
  prefixOp?_eq_none_of_name h.1 ht h.ne.2.2

/-- Without a prefix operator in front, what is nested is read by the same parser with one level of
nesting less, or refused. -/
theorem operand_eq_primary {t : Token} (h : prefixOp? t = none) (n : Nat) (ts : List Token) :
    ∃ nested, operand n (t :: ts) = primary nested (t :: ts) ∧
      ∀ m, n = m + 1 → nested = expression m := by
  cases n with
  | zero => exact ⟨refuseNesting, by rw [operand, operandWith, current_cons, h], nofun⟩
  | succ n =>
    refine ⟨expression n, by rw [operand, operandWith, current_cons, h]; rfl, fun m hm => ?_⟩
    rw [Nat.succ.inj hm]

theorem close_eq_ok {α : Type} {closing : Token} (h : closing.kind = .rparen) (a : α)
    (rest : List Token) :
    (expect .rparen (closing :: rest)).map (fun rest => (a, rest)) = .ok (a, rest) :=
  close_eq_ok_iff.mpr ⟨rfl, closing, h, rfl⟩

section

variable {n : Nat} {t opening closing : Token} {e : Expr} {ts rest : List Token}

theorem operand_number {x : Binary64} (kind : t.kind = .number)
    (read : Number.readNumber? t.text = some x) :
    operand n (t :: rest) = .ok (.literal (.number x), rest) := by
  have hoperator : prefixOp? t = none := prefixOp?_eq_none_of_kind (by simp [kind]) (by simp [kind])
  obtain ⟨nested, h, -⟩ := operand_eq_primary hoperator n rest
  simp [h, primary, kind, read]

theorem operand_text (kind : t.kind = .string) :
    operand n (t :: rest) = .ok (.literal (.text t.text), rest) := by
  have hoperator : prefixOp? t = none := prefixOp?_eq_none_of_kind (by simp [kind]) (by simp [kind])
  obtain ⟨nested, h, -⟩ := operand_eq_primary hoperator n rest
  simp [h, primary, kind]

theorem operand_flag {b : Bool} (kind : t.kind = .name) (proper : t.IsProper)
    (word : t.text = bif b then "true" else "false") :
    operand n (t :: rest) = .ok (.literal (.flag b), rest) := by
  obtain ⟨nested, h, -⟩ := operand_eq_primary
    (prefixOp?_eq_none_of_name kind proper (by cases b <;> simp [word])) n rest
  cases b <;> simp [h, primary, kind, word]

theorem operand_variable (identifier : t.IsIdentifier) (proper : t.IsProper)
    (behind : (current rest).kind ≠ .lparen) :
    operand n (t :: rest) = .ok (.name t.text, rest) := by
  obtain ⟨nested, h, -⟩ := operand_eq_primary (identifier.prefixOp?_eq_none proper) n rest
  simp [h, primary, identifier.1, identifier.ne.1, identifier.ne.2.1, behind]

theorem operand_unary {op : UnaryOp} (spells : t.Spells prefixes op)
    (inner : operand n (ts ++ rest) = .ok (e, rest)) :
    operand (n + 1) (t :: ts ++ rest) = .ok (.unary op e, rest) := by
  rw [operand, operandWith, List.cons_append, current_cons, prefixOp?_eq_some_iff.mpr spells]
  simp only [List.tail_cons, inner, Except.map]

theorem operand_parentheses (left : opening.kind = .lparen) (right : closing.kind = .rparen)
    (inner : expression n (ts ++ closing :: rest) = .ok (e, closing :: rest)) :
    operand (n + 1) (opening :: ts ++ [closing] ++ rest) = .ok (e, rest) := by
  have hoperator : prefixOp? opening = none :=
    prefixOp?_eq_none_of_kind (by simp [left]) (by simp [left])
  obtain ⟨nested, h, hnested⟩ := operand_eq_primary hoperator (n + 1) (ts ++ closing :: rest)
  rw [List.append_assoc, List.singleton_append, List.cons_append, h, hnested n rfl]
  simp only [primary, current_cons, left, List.tail_cons, inner]
  exact close_eq_ok right e rest

/-- A name that is followed by an opening parenthesis calls a function. -/
theorem primary_call {nested : Reader Expr} (identifier : t.IsIdentifier)
    (left : opening.kind = .lparen) :
    primary nested (t :: opening :: ts) =
      (arguments nested (opening :: ts)).map fun p => (.call t.text p.1, p.2) := by
  simp [primary, identifier.1, identifier.ne.1, identifier.ne.2.1, left]

theorem operand_emptyCall (identifier : t.IsIdentifier) (proper : t.IsProper)
    (left : opening.kind = .lparen) (right : closing.kind = .rparen) :
    operand n (t :: opening :: closing :: rest) = .ok (.call t.text [], rest) := by
  obtain ⟨nested, h, -⟩ := operand_eq_primary (identifier.prefixOp?_eq_none proper) n
    (opening :: closing :: rest)
  rw [h, primary_call identifier left]
  simp [arguments, expect, left, right, Except.map]

theorem operand_call {es : List Expr} {left' : List Token} (identifier : t.IsIdentifier)
    (proper : t.IsProper) (left : opening.kind = .lparen) (kind : (current ts).kind ≠ .rparen)
    (first : expression n ts = .ok (e, left'))
    (others : argumentsFrom (expression n) left'.length [e] left' = .ok (es, rest)) :
    operand (n + 1) (t :: opening :: ts) = .ok (.call t.text es, rest) := by
  obtain ⟨nested, h, hnested⟩ :=
    operand_eq_primary (identifier.prefixOp?_eq_none proper) (n + 1) (opening :: ts)
  rw [h, hnested n rfl, primary_call identifier left]
  simp only [arguments, expect, current_cons, left, List.tail_cons, kind, first, others, Except.map,
    if_true, if_false]

end

/-! ## Derived rows -/

/-- A derived row starts with a token, which closes nothing. -/
theorem Derives.kind_current {n : Nat} {p : Phrase} {ts : List Token} {e : Expr}
    (h : Derives n p ts e) (rest : List Token) :
    (current (ts ++ rest)).kind ≠ .rparen ∧ (current (ts ++ rest)).kind ≠ .ending :=
  match h with
  | .number kind _ => by simp [kind]
  | .text kind => by simp [kind]
  | .true kind _ => by simp [kind]
  | .false kind _ => by simp [kind]
  | .variable identifier => by simp [identifier.1]
  | .parentheses left _ _ => by simp [left]
  | .unary spells _ => by rcases spells.1 with h | h <;> simp [h]
  | .emptyCall identifier _ _ => by simp [identifier.1]
  | .call identifier _ _ _ => by simp [identifier.1]
  | .single inner => inner.kind_current rest
  | @Derives.binary _ _ t _ _ us _ _ left _ _ => by
    rw [List.append_assoc]
    exact left.kind_current (t :: us ++ rest)

mutual

/-- There is no ending in a derived row. -/
theorem Derives.kind_ne_ending {n : Nat} {p : Phrase} {ts : List Token} {e : Expr}
    (h : Derives n p ts e) : ∀ t ∈ ts, t.kind ≠ .ending :=
  match h with
  | .number kind _ => by simp [kind]
  | .text kind => by simp [kind]
  | .true kind _ => by simp [kind]
  | .false kind _ => by simp [kind]
  | .variable identifier => by simp [identifier.1]
  | .parentheses left inner right => by
    simpa [or_imp, forall_and, left, right] using inner.kind_ne_ending
  | .unary spells inner => by
    refine List.forall_mem_cons.mpr ⟨fun hk => ?_, inner.kind_ne_ending⟩
    rcases spells.1 with h | h <;> simp [hk] at h
  | .emptyCall identifier left right => by simp [identifier.1, left, right]
  | .call identifier left inner right => by
    simpa [or_imp, forall_and, identifier.1, left, right] using inner.kind_ne_ending
  | .single inner => inner.kind_ne_ending
  | .binary left spells right => by
    refine List.forall_mem_append.mpr ⟨left.kind_ne_ending, List.forall_mem_cons.mpr
      ⟨fun hk => ?_, right.kind_ne_ending⟩⟩
    rcases spells.1 with h | h <;> simp [hk] at h

theorem DerivesAll.kind_ne_ending {n : Nat} {ts : List Token} {es : List Expr}
    (h : DerivesAll n ts es) : ∀ t ∈ ts, t.kind ≠ .ending :=
  match h with
  | .last only => only.kind_ne_ending
  | .more first between others => List.forall_mem_append.mpr
      ⟨first.kind_ne_ending, List.forall_mem_cons.mpr ⟨by simp [between], others.kind_ne_ending⟩⟩

end

/-! ## Derived rows are read -/

theorem level_reached {n : Nat} {l : Level} {e : Expr} {ts rest : List Token}
    (h : l.operands.reader n ts = .ok (e, rest)) :
    (Phrase.level l).Reached n e rest ((Phrase.level l).reader n ts) := by
  refine ⟨rest.length, Nat.le_refl _, ?_⟩
  rw [Phrase.reader_level, level, h]

/-- With one more operator and operand a level goes on. -/
theorem binary_reached {n : Nat} {l : Level} {t : Token} {op : BinaryOp} {a b : Expr}
    {us rest : List Token} {outcome : Except SyntaxError (Expr × List Token)}
    (left : (Phrase.level l).Reached n a (t :: us ++ rest) outcome)
    (spells : t.Spells l.operators op)
    (right : l.operands.reader n (us ++ rest) = .ok (b, rest)) :
    (Phrase.level l).Reached n (.binary op a b) rest outcome := by
  obtain ⟨fuel, hfuel, rfl⟩ := left
  cases fuel with
  | zero => cases hfuel
  | succ fuel =>
    refine ⟨fuel, ?_, ?_⟩
    · simp only [List.cons_append, List.length_cons, List.length_append] at hfuel
      omega
    · rw [levelFrom, List.cons_append, current_cons, op?_eq_some_iff.mpr spells]
      simp only [List.tail_cons, right]

/-- The reader of a phrase is done in front of a stop. -/
theorem Phrase.Reached.stopped {n : Nat} {p : Phrase} {e : Expr} {rest : List Token}
    {outcome : Except SyntaxError (Expr × List Token)} (h : p.Reached n e rest outcome)
    (hstop : (current rest).IsStop) : outcome = .ok (e, rest) :=
  h.done fun l _ => hstop.op?_eq_none l

/-- The reader of what stands between operators is done in front of one. -/
theorem Phrase.Reached.operands {n : Nat} {l : Level} {e : Expr} {rest : List Token}
    {outcome : Except SyntaxError (Expr × List Token)} (h : l.operands.Reached n e rest outcome)
    (hrest : (current rest).Follows (.level l)) : outcome = .ok (e, rest) := by
  refine h.done fun l' hl => hrest.2 l' ?_
  rw [Level.tightness_operands] at hl
  exact hl

theorem argumentsFrom_close {nested : Reader Expr} {closing : Token}
    (h : closing.kind = .rparen) (fuel : Nat) (args : List Expr) (rest : List Token) :
    argumentsFrom nested fuel args (closing :: rest) = .ok (args.reverse, rest) := by
  cases fuel with
  | zero => exact close_eq_ok h args.reverse rest
  | succ fuel =>
    rw [argumentsFrom, current_cons, if_neg (by simp [h])]
    exact close_eq_ok h args.reverse rest

mutual

/-- The reader of a phrase comes to the tree of every row that is derived as the phrase. -/
theorem Derives.reached {n : Nat} {p : Phrase} {ts : List Token} {e : Expr}
    (h : Derives n p ts e) (hts : ∀ t ∈ ts, t.IsProper) (rest : List Token)
    (hrest : (current rest).Follows p) : p.Reached n e rest (p.reader n (ts ++ rest)) :=
  match h with
  | .number kind read => operand_number kind read
  | .text kind => operand_text kind
  | .true kind word => operand_flag kind (hts _ List.mem_cons_self) word
  | .false kind word => operand_flag kind (hts _ List.mem_cons_self) word
  | .variable identifier => operand_variable identifier (hts _ List.mem_cons_self) hrest.1
  | .parentheses left inner right => by
    have hstop := Token.isStop_of_rparen right
    have hinner := inner.reached
      (fun t ht => hts t (List.mem_append_left _ (List.mem_cons_of_mem _ ht))) (_ :: rest)
      (hstop.follows _)
    exact operand_parentheses left right (hinner.stopped hstop)
  | .unary spells inner =>
    operand_unary spells (inner.reached (fun t ht => hts t (List.mem_cons_of_mem _ ht)) rest hrest)
  | .emptyCall identifier left right =>
    operand_emptyCall identifier (hts _ List.mem_cons_self) left right
  | .call identifier left inner right => by
    obtain ⟨e, left', hfirst, -, hkind, hothers⟩ := inner.reached (fun t ht =>
      hts t (List.mem_append_left _ (List.mem_cons_of_mem _ (List.mem_cons_of_mem _ ht)))) right rest
    rw [List.append_assoc]
    exact operand_call identifier (hts _ List.mem_cons_self) left hkind hfirst
      (hothers [] _ (Nat.le_refl _))
  | .single inner => level_reached ((inner.reached hts rest hrest.operands).operands hrest)
  | @Derives.binary _ _ t _ _ us _ _ left spells right => by
    have hleft := left.reached (fun t ht => hts t (List.mem_append_left _ ht)) (t :: us ++ rest)
      spells.follows
    have hright := right.reached
      (fun t ht => hts t (List.mem_append_right _ (List.mem_cons_of_mem _ ht))) rest hrest.operands
    rw [List.append_assoc]
    exact binary_reached hleft spells (hright.operands hrest)

/-- The arguments of a call are read one after the other, up to the closing parenthesis. -/
theorem DerivesAll.reached {n : Nat} {ts : List Token} {es : List Expr} (h : DerivesAll n ts es)
    (hts : ∀ t ∈ ts, t.IsProper) {closing : Token} (hclosing : closing.kind = .rparen)
    (rest : List Token) :
    ∃ e left, expression n (ts ++ closing :: rest) = .ok (e, left) ∧
      left.length ≤ (ts ++ closing :: rest).length ∧
      (current (ts ++ closing :: rest)).kind ≠ .rparen ∧ ∀ args fuel, left.length ≤ fuel →
        argumentsFrom (expression n) fuel (e :: args) left = .ok (args.reverse ++ es, rest) :=
  match h with
  | .last only => by
    have hk := (only.kind_current (closing :: rest)).1
    have hstop := Token.isStop_of_rparen hclosing
    have hread := only.reached hts (closing :: rest) (hstop.follows _)
    refine ⟨_, closing :: rest, hread.stopped hstop, by simp, hk,
      fun args fuel _ => ?_⟩
    rw [argumentsFrom_close hclosing, List.reverse_cons]
  | @DerivesAll.more _ comma _ vs d _ first between others => by
    have hk := (first.kind_current (comma :: vs ++ closing :: rest)).1
    obtain ⟨e, left, hread, hlength, -, hothers⟩ := others.reached
      (fun t ht => hts t (List.mem_append_right _ (List.mem_cons_of_mem _ ht))) hclosing rest
    have hstop := Token.isStop_of_comma between
    have hfirst := first.reached (fun t ht => hts t (List.mem_append_left _ ht))
      (comma :: vs ++ closing :: rest) (hstop.follows _)
    rw [List.append_assoc]
    refine ⟨_, _, hfirst.stopped hstop, by simp, hk, fun args fuel hfuel => ?_⟩
    cases fuel with
    | zero => cases hfuel
    | succ fuel =>
      have hmore := hothers (d :: args) fuel (Nat.le_trans hlength (Nat.le_of_succ_le_succ hfuel))
      rw [argumentsFrom, List.cons_append, current_cons, if_pos between, List.tail_cons, hread]
      simpa only [List.reverse_cons, List.append_assoc, List.singleton_append] using hmore

end

/-! ## What the parser refuses -/

/-- Every error of the reader has a wording: none is a foreign character. -/
def Worded {α : Type} (r : Reader α) : Prop :=
  ∀ ⦃ts err⦄, r ts = .error err → ∃ m, err.message? = some m

theorem expect_worded (kind : TokenKind) ⦃ts : List Token⦄ ⦃err : SyntaxError⦄
    (h : expect kind ts = .error err) : ∃ m, err.message? = some m := by
  unfold expect at h
  dsimp only at h
  split at h
  · cases h
  · cases h
    exact ⟨_, rfl⟩

theorem close_worded {α : Type} {a : α} {ts : List Token} {err : SyntaxError}
    (h : (expect .rparen ts).map (fun rest => (a, rest)) = .error err) :
    ∃ m, err.message? = some m := by
  cases he : expect .rparen ts with
  | ok rest =>
    rw [he] at h
    cases h
  | error e =>
    rw [he] at h
    cases h
    exact expect_worded .rparen he

section

variable {op? : Token → Option BinaryOp} {operand nested nestedOperand : Reader Expr}

theorem levelFrom_worded (ho : Worded operand) (fuel : Nat) (left : Expr) :
    Worded (levelFrom op? operand fuel left) := by
  intro ts err h
  induction fuel generalizing left ts with
  | zero => cases h
  | succ fuel ih =>
    rw [levelFrom] at h
    split at h
    · cases h
    · split at h
      · next e he =>
        cases h
        exact ho he
      · exact ih _ h

theorem level_worded (ho : Worded operand) : Worded (level op? operand) := by
  intro ts err h
  unfold level at h
  split at h
  · next e he =>
    cases h
    exact ho he
  · exact levelFrom_worded ho _ _ h

theorem levels_worded (ho : Worded operand) : Worded (levels operand) :=
  level_worded <| level_worded <| level_worded <| level_worded <| level_worded ho

theorem argumentsFrom_worded (ho : Worded nested) (fuel : Nat) (args : List Expr) :
    Worded (argumentsFrom nested fuel args) := by
  intro ts err h
  induction fuel generalizing args ts with
  | zero => exact close_worded h
  | succ fuel ih =>
    rw [argumentsFrom] at h
    split at h
    · split at h
      · next e he =>
        cases h
        exact ho he
      · exact ih _ h
    · exact close_worded h

theorem arguments_worded (ho : Worded nested) : Worded (arguments nested) := by
  intro ts err h
  unfold arguments at h
  split at h
  · next e he =>
    cases h
    exact expect_worded .lparen he
  · split at h
    · cases h
    · split at h
      · next e he =>
        cases h
        exact ho he
      · exact argumentsFrom_worded ho _ _ h

theorem primary_worded (ho : Worded nested) : Worded (primary nested) := by
  intro ts err h
  unfold primary at h
  dsimp only at h
  split at h
  · cases h
  · cases h
  · split at h
    · next e he =>
      cases h
      exact ho he
    · exact close_worded h
  · split_ifs at h
    cases ha : arguments nested ts.tail with
    | ok p =>
      rw [ha] at h
      cases h
    | error e =>
      rw [ha] at h
      cases h
      exact arguments_worded ho ha
  · cases h
    exact ⟨_, rfl⟩

theorem operandWith_worded (hop : Worded nestedOperand) (ho : Worded nested) :
    Worded (operandWith nestedOperand nested) := by
  intro ts err h
  unfold operandWith at h
  split at h
  · cases hx : nestedOperand ts.tail with
    | ok p =>
      rw [hx] at h
      cases h
    | error e =>
      rw [hx] at h
      cases h
      exact hop hx
  · exact primary_worded ho h

end

theorem refuseNesting_worded : Worded refuseNesting := by
  rintro ts err ⟨⟩
  exact ⟨_, rfl⟩

theorem operand_worded (n : Nat) : Worded (operand n) := by
  induction n with
  | zero => exact operandWith_worded refuseNesting_worded refuseNesting_worded
  | succ n ih => exact operandWith_worded ih (levels_worded ih)

/-- Every error of the parser has a wording. -/
theorem ofTokens_worded {ts : List Token} {err : SyntaxError} (h : ofTokens ts = .error err) :
    ∃ m, err.message? = some m := by
  unfold ofTokens at h
  split at h
  · cases h
    exact ⟨_, rfl⟩
  · split at h
    · next e he =>
      cases h
      exact levels_worded (operand_worded maxNesting) he
    · dsimp only at h
      split at h
      · cases h
      · cases h
        exact ⟨_, rfl⟩

/-! ## Whole texts -/

/-- The tokens of a text in front of its ending. -/
def body (ts : List Token) : List Token := ts.takeWhile (·.kind != .ending)

/-- Behind the body of a text there is its ending, and nothing else. -/
theorem body_of_tokensFrom {position : Nat} {cs : List Char} {ts : List Token}
    (h : tokensFrom position cs = .ok ts) : ∃ t, t.kind = .ending ∧ ts = body ts ++ [t] := by
  fun_induction tokensFrom position cs generalizing ts with
  | case1 position =>
    cases h
    exact ⟨_, rfl, rfl⟩
  | case2 position c r hb ih => exact ih h
  | case3 position c r hb fault hl => cases h
  | case4 position c r hb l hl e he ih => cases h
  | case5 position c r hb l hl ts' hts ih =>
    cases h
    obtain ⟨t, hk, hsplit⟩ := ih hts
    have hl : l.kind ≠ .ending := kind_ne_ending_of_lexeme hl
    refine ⟨t, hk, ?_⟩
    rw [body, List.takeWhile_cons_of_pos (by simpa using hl), List.cons_append]
    exact congrArg _ hsplit

theorem kind_ne_ending_of_mem_body {ts : List Token} : ∀ t ∈ body ts, t.kind ≠ .ending := by
  intro t ht
  simpa using List.mem_takeWhile_imp ht

/-- What the parser takes in front of an ending is everything in front of it. -/
theorem taken_eq {ts taken rest : List Token} {t : Token} (hts : ∀ t ∈ ts, t.kind ≠ .ending)
    (htaken : ∀ t ∈ taken, t.kind ≠ .ending) (ht : t.kind = .ending)
    (h : ts ++ [t] = taken ++ rest) (hk : (current rest).kind = .ending) : taken = ts := by
  rcases List.eq_nil_or_concat rest with rfl | ⟨rest, r, rfl⟩
  · rw [List.append_nil] at h
    exact absurd ht (htaken t (h ▸ List.mem_concat_self))
  · rw [List.concat_eq_append, ← List.append_assoc] at h
    obtain ⟨rfl, -⟩ := List.append_inj' h rfl
    cases rest with
    | nil => rw [List.append_nil]
    | cons r' rest => exact absurd hk (hts r' (List.mem_append_right _ List.mem_cons_self))

/-- The tokens of a text are parsed to a tree exactly if the grammar derives it with no more nesting
than is allowed. -/
theorem ofTokens_eq_ok_iff {ts : List Token} {t : Token} (hts : ∀ u ∈ ts ++ [t], u.IsLexical)
    (hne : ∀ u ∈ ts, u.kind ≠ .ending) (hk : t.kind = .ending) {e : Expr} :
    ofTokens (ts ++ [t]) = .ok e ↔ Derives maxNesting (.level .or) ts e := by
  constructor
  · intro h
    unfold ofTokens at h
    split_ifs at h
    split at h
    · cases h
    · next e' rest he =>
      dsimp only at h
      split_ifs at h with hrest
      cases h
      obtain ⟨taken, htaken, hd⟩ := expression_reads maxNesting hts he
      rwa [taken_eq hne hd.kind_ne_ending hk htaken hrest] at hd
  · intro h
    have hstop : (current [t]).IsStop := Token.isStop_of_ending hk
    have hread := h.reached (fun u hu => (hts u (List.mem_append_left _ hu)).proper) [t]
      (hstop.follows _)
    have hread : expression maxNesting (ts ++ [t]) = .ok (e, [t]) := hread.stopped hstop
    rw [ofTokens, if_neg (h.kind_current [t]).2, hread]
    exact if_pos hk

/-- A row of tokens of the lexer is derived as one tree at most, however deep it nests. -/
theorem Derives.unique {ts : List Token} (hts : ∀ t ∈ ts, t.IsProper) {n m : Nat} {a b : Expr}
    (ha : Derives n (.level .or) ts a) (hb : Derives m (.level .or) ts b) : a = b := by
  have hstop : (current []).IsStop := Token.isStop_of_ending rfl
  have hread : ∀ {e}, Derives (max n m) (.level .or) ts e →
      (Phrase.level .or).reader (max n m) (ts ++ []) = .ok (e, []) :=
    fun h => (h.reached hts [] (hstop.follows _)).stopped hstop
  have := (hread (ha.mono (Nat.le_max_left n m))).symm.trans
    (hread (hb.mono (Nat.le_max_right n m)))
  cases this
  rfl

/-- The parser accepts exactly its grammar: of a text whose tokens are these it makes the tree that
the grammar derives with no more than 64 levels of nesting; there is one tree at most; and in every
other case it reports what is wrong. -/
theorem parse_accepts {source : String} {ts : List Token} (h : tokenize source = .ok ts) :
    (∀ e, parse source = .ok e ↔ Derives maxNesting (.level .or) (body ts) e) ∧
    (∀ {n m a b}, Derives n (.level .or) (body ts) a → Derives m (.level .or) (body ts) b →
      a = b) ∧
    ((∀ e, ¬ Derives maxNesting (.level .or) (body ts) e) →
      ∃ err m, parse source = .error err ∧ err.message? = some m) := by
  have hts := isLexical_of_tokensFrom h
  obtain ⟨t, hk, hsplit⟩ := body_of_tokensFrom h
  have hbody : ∀ u ∈ body ts, u.IsLexical :=
    fun u hu => hts u (hsplit ▸ List.mem_append_left _ hu)
  have hparse : parse source = ofTokens (body ts ++ [t]) := by
    rw [parse, h, ← hsplit]
  have hok : ∀ e, parse source = .ok e ↔ Derives maxNesting (.level .or) (body ts) e := by
    intro e
    rw [hparse]
    exact ofTokens_eq_ok_iff (hsplit ▸ hts) kind_ne_ending_of_mem_body hk
  refine ⟨hok, fun ha hb => ha.unique (fun u hu => (hbody u hu).proper) hb, fun hnone => ?_⟩
  cases he : parse source with
  | ok e => exact absurd ((hok e).mp he) (hnone e)
  | error err =>
    rw [hparse] at he
    obtain ⟨m, hm⟩ := ofTokens_worded he
    exact ⟨err, m, rfl, hm⟩

/-- The theorem at a text with words and symbols for operators, a call and a wildcard, and at one with
a comma behind the last argument of a call. -/
theorem parse_accepts_words :
    (∃ ts e, tokenize "not f(1,-x_?)<>2or y" = .ok ts ∧
      Derives maxNesting (.level .or) (body ts) e) ∧
    ∃ ts, tokenize "f(1,)" = .ok ts ∧ ∀ e, ¬ Derives maxNesting (.level .or) (body ts) e := by
  have hread : (parse "not f(1,-x_?)<>2or y").isOk = true ∧ (parse "f(1,)").isOk = false ∧
      (tokenize "not f(1,-x_?)<>2or y").isOk = true ∧ (tokenize "f(1,)").isOk = true := by
    decide +kernel
  obtain ⟨hwords, hcomma, hwordsTokens, hcommaTokens⟩ := hread
  constructor
  · cases ht : tokenize "not f(1,-x_?)<>2or y" with
    | error err =>
      rw [ht] at hwordsTokens
      cases hwordsTokens
    | ok ts =>
      cases hp : parse "not f(1,-x_?)<>2or y" with
      | error err =>
        rw [hp] at hwords
        cases hwords
      | ok e => exact ⟨ts, e, rfl, ((parse_accepts ht).1 e).mp hp⟩
  · cases ht : tokenize "f(1,)" with
    | error err =>
      rw [ht] at hcommaTokens
      cases hcommaTokens
    | ok ts =>
      refine ⟨ts, rfl, fun e he => ?_⟩
      rw [((parse_accepts ht).1 e).mpr he] at hcomma
      cases hcomma

end LiveForm.Expr
