import LiveForm.Proofs.Expr.Parsing
import LiveForm.Proofs.Name

/-!
# The variables of a text cover what its evaluation reads

`variablesOf` finds the names of a text without parsing it.  `mem_variablesOf_iff` says that these
are the names in the tree of a text that can be parsed, up to reserved words.  So two lookups that
agree on every variable that one of these names covers, and on the reserved words that the text
reads as variables, agree on all that an evaluation reads.
-/

namespace LiveForm

/-! ## Blanks around a text -/

namespace Text

theorem trimChars_split (cs : List Char) :
    ∃ front back, (∀ c ∈ front, isBlank c = true) ∧ (∀ c ∈ back, isBlank c = true) ∧
      cs = front ++ (trimChars cs ++ back) := by
  refine ⟨cs.takeWhile isBlank, ((dropBlanks cs).reverse.takeWhile isBlank).reverse,
    fun _ h => List.mem_takeWhile_imp h,
    fun _ h => List.mem_takeWhile_imp (List.mem_reverse.mp h), ?_⟩
  rw [trimChars, dropBlanks, ← List.reverse_append, dropBlanks, List.takeWhile_append_dropWhile,
    List.reverse_reverse, List.takeWhile_append_dropWhile]

end Text

namespace Expr

open Text

theorem namesIn_blanks {p : List Char} (hp : ∀ c ∈ p, isBlank c = true) (r : List Char) :
    namesIn false (cutQuoted (p ++ r)) = namesIn false (cutQuoted r) := by
  have hplain : ∀ c ∈ p, isPlain c = true := fun c hc => isPlain_of_isBlank (hp c hc)
  rw [cutQuoted_append fun c hc => isQuote_of_isPlain (hplain c hc)]
  by_cases h : p = []
  · rw [h, List.nil_append]
  · rw [namesIn_plain_append hplain h]

/-- The search finds the names that a parsed text mentions, each once and in the same order, up to
reserved words, also when blanks are around the text. -/
theorem variablesOf_eq {source text : String} {front back : List Char}
    (hfront : ∀ c ∈ front, isBlank c = true) (hback : ∀ c ∈ back, isBlank c = true)
    (hsource : source.toList = front ++ (text.toList ++ back)) {e : Expr}
    (h : parse text = .ok e) : variablesOf source = (unreserved (mentions e)).eraseDups := by
  unfold parse at h
  split at h
  · cases h
  · next ts hts =>
    rw [tokenize] at hts
    have hw := writes_of_ofTokens (isLexical_of_tokensFrom hts) (isChain_of_tokensFrom hts) h
    have hnames := unreserved_namesIn hback hts hw.parted fun h : false = true =>
      absurd h Bool.false_ne_true
    rw [variablesOf, hsource, namesIn_blanks hfront, ← hw.words, ← hnames]
    rfl

/-- The variables of a text that can be parsed are the names that it mentions, as variables or as
functions that it calls, up to reserved words. -/
theorem mem_variablesOf_iff {source : String} {e : Expr} (h : parse source = .ok e) (n : String) :
    n ∈ variablesOf source ↔ n ∈ mentions e ∧ isReserved n = false := by
  have hnone : ∀ c ∈ ([] : List Char), isBlank c = true := List.forall_mem_nil _
  have hsource : source.toList = [] ++ (source.toList ++ []) := by
    rw [List.nil_append, List.append_nil]
  rw [variablesOf_eq hnone hnone hsource h, List.mem_eraseDups, unreserved, List.mem_filter,
    Bool.not_eq_true']

/-- The theorem at a text with a word glued to a numeral, an escaped quote, a wildcard, and a
function of the library inside the arguments of another one. -/
theorem mem_variablesOf_iff_glued :
    ∃ e, parse "2.or'it\\'s a' + rate(x_?_q, 1e3*sum(y))" = .ok e ∧
      mentions e = ["rate", "x_?_q", "sum", "y"] ∧
      "rate" ∈ variablesOf "2.or'it\\'s a' + rate(x_?_q, 1e3*sum(y))" ∧
      "sum" ∉ variablesOf "2.or'it\\'s a' + rate(x_?_q, 1e3*sum(y))" ∧
      "a" ∉ variablesOf "2.or'it\\'s a' + rate(x_?_q, 1e3*sum(y))" := by
  have hparse : (parse "2.or'it\\'s a' + rate(x_?_q, 1e3*sum(y))").toOption.map mentions =
      some ["rate", "x_?_q", "sum", "y"] := by
    decide +kernel
  obtain ⟨e, he, hm⟩ := Option.map_eq_some_iff.mp hparse
  cases hp : parse "2.or'it\\'s a' + rate(x_?_q, 1e3*sum(y))" with
  | error fault =>
    rw [hp] at he
    cases he
  | ok e' =>
    rw [hp] at he
    cases he
    have hiff := mem_variablesOf_iff hp
    rw [hm] at hiff
    refine ⟨e, rfl, hm, (hiff "rate").mpr ?_, fun h => ?_, fun h => ?_⟩
    · exact ⟨by decide, by decide⟩
    · exact absurd ((hiff "sum").mp h).2 (by decide)
    · exact absurd ((hiff "a").mp h).1 (by decide)

/-- The search over a text finds the names of the tree that the text without the blanks around it
is parsed to. -/
theorem mem_variablesOf {source : String} {e : Expr} (h : parse (trim source) = .ok e) {n : String}
    (hn : n ∈ names e) (hr : isReserved n = false) : n ∈ variablesOf source := by
  obtain ⟨front, back, hfront, hback, hsplit⟩ := trimChars_split source.toList
  have hsource : source.toList = front ++ ((trim source).toList ++ back) := by
    rw [trim, String.toList_ofList]
    exact hsplit
  rw [variablesOf_eq hfront hback hsource h, List.mem_eraseDups, unreserved, List.mem_filter, hr]
  exact ⟨names_subset_mentions e hn, rfl⟩

/-- The reserved words that a text reads as variables. -/
def wordsRead (source : String) : List String :=
  match parse (trim source) with
  | .ok e => (names e).filter isReserved
  | .error _ => []

/-- Two lookups agree on all that a text has as variables: on what the names found in it cover, and
on the reserved words that it reads as variables. -/
def AgreeOn (source : String) (l l' : String → Value) : Prop :=
  (∀ v, (∃ n ∈ variablesOf source, matchesVariable n v = true) → l v = l' v) ∧
    ∀ n ∈ wordsRead source, l n = l' n

theorem not_isWildcard_of_isReserved {n : String} (h : isReserved n = true) :
    isWildcard n = false :=
  forall_reserved (P := fun w => isWildcard w = false) (by decide) (by decide) h

theorem agreeAt_of_agreeOn {source : String} {l l' : String → Value} (h : AgreeOn source l l')
    {rows : List Int} (hrows : ∀ i ∈ rows, 0 ≤ i) {e : Expr} (he : parse (trim source) = .ok e) :
    ∀ n ∈ names e, AgreeAt rows l l' n := by
  intro n hn
  cases hr : isReserved n with
  | true =>
    have hw : n ∈ wordsRead source := by
      rw [wordsRead, he]
      exact List.mem_filter.mpr ⟨hn, hr⟩
    refine ⟨h.2 n hw, fun i _ v hv => ?_⟩
    rw [eq_of_rowVariable (not_isWildcard_of_isReserved hr) hv]
    exact h.2 n hw
  | false =>
    have hv := mem_variablesOf he hn hr
    exact ⟨h.1 n ⟨n, hv, matchesVariable_self n⟩,
      fun i hi v hrow => h.1 v ⟨n, hv, matchesVariable_rowVariable (hrows i hi) hrow⟩⟩

end Expr

end LiveForm
