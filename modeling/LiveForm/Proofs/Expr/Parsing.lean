import LiveForm.Proofs.Expr.Grammar
import LiveForm.Proofs.Expr.Reading

/-!
# The names a parser takes

A parser makes the names of a tree out of the names among the tokens: every name among them ends up
in the tree, except for reserved words.  `writes_of_ofTokens` says this of the tokens of a whole
text, and that a name right behind a numeral is one of the reserved words.
-/

namespace LiveForm.Expr

/-! ## The names of a tree -/

mutual

/-- The names that an expression mentions, as variables or as functions that it calls, from left to
right. -/
def mentions : Expr → List String
  | .literal _ => []
  | .name n => [n]
  | .unary _ e => mentions e
  | .binary _ a b => mentions a ++ mentions b
  | .call f args => f :: mentionsOfAll args

/-- The names that some expressions mention. -/
def mentionsOfAll : List Expr → List String
  | [] => []
  | e :: es => mentions e ++ mentionsOfAll es

end

mutual

/-- What stands for a variable is mentioned. -/
theorem names_subset_mentions : ∀ e : Expr, names e ⊆ mentions e
  | .literal _ => List.Subset.refl _
  | .name _ => List.Subset.refl _
  | .unary _ e => names_subset_mentions e
  | .binary _ a b => by
    rw [names, mentions]
    exact List.append_subset.mpr
      ⟨List.subset_append_of_subset_left _ (names_subset_mentions a),
        List.subset_append_of_subset_right _ (names_subset_mentions b)⟩
  | .call _ args => List.subset_cons_of_subset _ (namesOfAll_subset_mentionsOfAll args)

theorem namesOfAll_subset_mentionsOfAll : ∀ es : List Expr, namesOfAll es ⊆ mentionsOfAll es
  | [] => List.Subset.refl _
  | e :: es => by
    rw [namesOfAll, mentionsOfAll]
    exact List.append_subset.mpr
      ⟨List.subset_append_of_subset_left _ (names_subset_mentions e),
        List.subset_append_of_subset_right _ (namesOfAll_subset_mentionsOfAll es)⟩

end

/-! ## Tokens that write names -/

/-- The tokens have just these names up to reserved words, and right behind a numeral no others
than reserved words. -/
structure Writes (ts : List Token) (ns : List String) : Prop where
  words : unreserved (wordsAmong ts) = unreserved ns
  parted : ts.IsChain Parted

/-- A token that stands between operands: no numeral, and as a name a reserved word. -/
structure Token.IsMark (t : Token) : Prop where
  kind : t.kind ≠ .number
  reserved : t.kind = .name → isReserved t.text = true

theorem Token.isMark_of_kind {t : Token} (hn : t.kind ≠ .number) (hw : t.kind ≠ .name) :
    t.IsMark :=
  ⟨hn, fun h => absurd h hw⟩

theorem Token.IsMark.words {t : Token} (h : t.IsMark) (ts : List Token) :
    unreserved (wordsAmong (t :: ts)) = unreserved (wordsAmong ts) := by
  by_cases hk : t.kind = .name
  · rw [wordsAmong_cons_of_name hk, unreserved_cons_of_isReserved (h.reserved hk)]
  · rw [wordsAmong_cons_of_ne_name hk]

namespace Writes

variable {ts us : List Token} {ns ms : List String} {t : Token}

/-- One token writes no name, unless it is a name that is not reserved. -/
theorem single (h : t.kind = .name → isReserved t.text = true) : Writes [t] [] := by
  refine ⟨?_, List.isChain_singleton t⟩
  by_cases hk : t.kind = .name
  · rw [wordsAmong_cons_of_name hk, unreserved_cons_of_isReserved (h hk)]
    rfl
  · rw [wordsAmong_cons_of_ne_name hk]
    rfl

theorem name (h : t.kind = .name) : Writes [t] [t.text] := by
  refine ⟨?_, List.isChain_singleton t⟩
  rw [wordsAmong_cons_of_name h]
  rfl

theorem cons (ht : t.IsMark) (h : Writes ts ns) : Writes (t :: ts) ns :=
  ⟨(ht.words ts).trans h.words,
    List.isChain_cons.mpr ⟨fun _ _ hk => absurd hk ht.kind, h.parted⟩⟩

/-- A mark joins what stands on its two sides. -/
theorem join (h : Writes ts ns) (ht : t.IsMark) (h' : Writes us ms) :
    Writes (ts ++ t :: us) (ns ++ ms) := by
  refine ⟨?_, List.isChain_append.mpr ⟨h.parted, (cons ht h').parted, ?_⟩⟩
  · rw [wordsAmong_append, unreserved_append, h.words, (cons ht h').words, unreserved_append]
  · intro _ _ u hu _ hname
    cases hu
    exact ht.reserved hname

/-- A mark closes what stands in front of it. -/
theorem concat (h : Writes ts ns) (ht : t.IsMark) : Writes (ts ++ [t]) ns := by
  have hnone : Writes [] [] := ⟨rfl, List.isChain_nil⟩
  have := h.join ht hnone
  rwa [List.append_nil] at this

end Writes

/-! ## Derivations -/

/-- The spellings of operators are symbols and reserved words. -/
theorem Token.Spells.isMark {α : Type} {table : List (String × α)} {t : Token} {op : α}
    (htable : ∀ p ∈ table, isReserved p.1 = true ∨ p.1 ∈ operators) (h : t.Spells table op)
    (ht : t.IsProper) : t.IsMark := by
  refine ⟨fun hk => ?_, fun hk => ?_⟩
  · rcases h.1 with h | h <;> rw [hk] at h <;> cases h
  · rcases htable _ h.2 with hreserved | hsymbol
    · exact hreserved
    · exact absurd hsymbol (ht hk)

theorem prefixes_reserved : ∀ p ∈ prefixes, isReserved p.1 = true ∨ p.1 ∈ operators := by decide

theorem Level.operators_reserved (l : Level) :
    ∀ p ∈ l.operators, isReserved p.1 = true ∨ p.1 ∈ Expr.operators := by
  cases l <;> decide

mutual

/-- A row of tokens writes the names of the tree that it is derived as. -/
theorem Derives.writes {n : Nat} {p : Phrase} {ts : List Token} {e : Expr} (h : Derives n p ts e)
    (hts : ∀ t ∈ ts, t.IsProper) : Writes ts (mentions e) :=
  match h with
  | .number kind _ => Writes.single fun hk => by rw [kind] at hk; cases hk
  | .text kind => Writes.single fun hk => by rw [kind] at hk; cases hk
  | .true _ word => Writes.single fun _ => word ▸ by decide
  | .false _ word => Writes.single fun _ => word ▸ by decide
  | .variable identifier => Writes.name identifier.1
  | .parentheses left inner right => by
    have hi := inner.writes fun t ht =>
      hts t (List.mem_append_left _ (List.mem_cons_of_mem _ ht))
    exact (hi.cons (Token.isMark_of_kind (by simp [left]) (by simp [left]))).concat
      (Token.isMark_of_kind (by simp [right]) (by simp [right]))
  | .unary spells inner =>
    (inner.writes fun t ht => hts t (List.mem_cons_of_mem _ ht)).cons
      (spells.isMark prefixes_reserved (hts _ List.mem_cons_self))
  | .emptyCall identifier left right =>
    (Writes.name identifier.1).join (Token.isMark_of_kind (by simp [left]) (by simp [left]))
      (Writes.single (by simp [right]))
  | .call identifier left inner right => by
    have hi := inner.writes fun t ht =>
      hts t (List.mem_append_left _ (List.mem_cons_of_mem _ (List.mem_cons_of_mem _ ht)))
    exact (Writes.name identifier.1).join
      (Token.isMark_of_kind (by simp [left]) (by simp [left]))
      (hi.concat (Token.isMark_of_kind (by simp [right]) (by simp [right])))
  | .single inner => inner.writes hts
  | .binary left spells right =>
    (left.writes fun t ht => hts t (List.mem_append_left _ ht)).join
      (spells.isMark (Level.operators_reserved _)
        (hts _ (List.mem_append_right _ List.mem_cons_self)))
      (right.writes fun t ht => hts t (List.mem_append_right _ (List.mem_cons_of_mem _ ht)))

theorem DerivesAll.writes {n : Nat} {ts : List Token} {es : List Expr} (h : DerivesAll n ts es)
    (hts : ∀ t ∈ ts, t.IsProper) : Writes ts (mentionsOfAll es) :=
  match h with
  | .last only => by
    rw [mentionsOfAll, mentionsOfAll, List.append_nil]
    exact only.writes hts
  | .more first between others =>
    (first.writes fun t ht => hts t (List.mem_append_left _ ht)).join
      (Token.isMark_of_kind (by simp [between]) (by simp [between]))
      (others.writes fun t ht => hts t (List.mem_append_right _ (List.mem_cons_of_mem _ ht)))

end

/-! ## Whole texts -/

/-- The tokens of a whole text write the names of the tree that they are parsed to. -/
theorem writes_of_ofTokens {ts : List Token} {e : Expr} (hts : ∀ t ∈ ts, t.IsLexical)
    (hclosed : ts.IsChain fun t _ => t.kind ≠ .ending) (h : ofTokens ts = .ok e) :
    Writes ts (mentions e) := by
  unfold ofTokens at h
  split at h
  · cases h
  · split at h
    · cases h
    · next e' rest he =>
      dsimp only at h
      split at h
      · next hk =>
        cases h
        obtain ⟨taken, rfl, hd⟩ := expression_reads maxNesting hts he
        have hw := hd.writes fun t ht => (hts t (List.mem_append_left _ ht)).proper
        rcases rest with _ | ⟨t, _ | ⟨_, _⟩⟩
        · rwa [List.append_nil]
        · have hk : t.kind = .ending := hk
          exact hw.concat (Token.isMark_of_kind (by simp [hk]) (by simp [hk]))
        · exact absurd hk (List.isChain_cons_cons.mp hclosed.right_of_append).1
      · cases h

end LiveForm.Expr
