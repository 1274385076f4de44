import LiveForm.Proofs.Expr.Covering
import LiveForm.Proofs.Lookup

/-!
# What an evaluator answers

The trees that an evaluator keeps are those that their texts are parsed to, so that its answers
depend on the text, the lookup and the rows only.  `evaluate_eq_of_agreeOn` says on which variables
of the lookup they depend.
-/

namespace LiveForm

open LiveForm.Expr

namespace Expr

/-- The result of a text over a context, parsed afresh, zero if it has none. -/
def outcome (locale : NumberLocale) (precision : Int) (source : String) (lookup : String → Value)
    (rows : List Int) : Eval Value × List Notice :=
  forgive source <|
    match parse (Text.trim source) with
    | .error e => .error (.malformed e)
    | .ok tree => do finalize precision (← eval ⟨lookup, rows, locale⟩ tree)

/-- The result of a text depends on what the lookup gives for the variables of the text only. -/
theorem outcome_congr {source : String} {l l' : String → Value} (h : AgreeOn source l l')
    {rows : List Int} (hrows : ∀ i ∈ rows, 0 ≤ i) (locale : NumberLocale) (precision : Int) :
    outcome locale precision source l rows = outcome locale precision source l' rows := by
  unfold outcome
  cases hp : parse (Text.trim source) with
  | error e => rfl
  | ok tree =>
    have heval : eval ⟨l, rows, locale⟩ tree = eval ⟨l', rows, locale⟩ tree :=
      evalWithin_congr _ (agreeAt_of_agreeOn h hrows hp)
    simp only [heval]

end Expr

namespace Evaluator

/-- Every tree kept is the one that its text is parsed to. -/
def Sound (ev : Evaluator) : Prop :=
  ∀ text t, (text, t) ∈ ev.kept → parse text = .ok t.tree

variable {ev : Evaluator}

theorem sound_clear (ev : Evaluator) : ev.clear.Sound := by
  intro text t h
  cases h

theorem Sound.compile (h : ev.Sound) (source : String) :
    (ev.compile source).1.map (·.tree) = parse (Text.trim source) ∧ (ev.compile source).2.Sound ∧
      (ev.compile source).2.locale = ev.locale ∧
      (ev.compile source).2.precision = ev.precision := by
  unfold Evaluator.compile
  cases hf : ev.find? source with
  | some t =>
    refine ⟨?_, h, rfl, rfl⟩
    rw [h _ _ (mem_of_lookup hf)]
    rfl
  | none =>
    dsimp only
    cases hp : parse (Text.trim source) with
    | error e => exact ⟨rfl, h, rfl, rfl⟩
    | ok tree =>
      refine ⟨rfl, ?_, rfl, rfl⟩
      intro text t ht
      rcases List.mem_cons.mp ht with ht | ht
      · cases ht
        exact hp
      · exact h _ _ ht

/-- What an evaluator answers does not depend on what it keeps, and it goes on to keep the trees of
their texts. -/
theorem Sound.evaluate (h : ev.Sound) (source : String) (lookup : String → Value)
    (rows : List Int) :
    (ev.evaluate source lookup rows).1 = outcome ev.locale ev.precision source lookup rows ∧
      (ev.evaluate source lookup rows).2.Sound ∧
      (ev.evaluate source lookup rows).2.locale = ev.locale ∧
      (ev.evaluate source lookup rows).2.precision = ev.precision := by
  obtain ⟨htree, hsound, hlocale, hprecision⟩ := h.compile source
  unfold Evaluator.evaluate Evaluator.evaluateStrict outcome
  rw [← htree]
  cases hc : ev.compile source with
  | mk r ev' =>
    rw [hc] at hsound hlocale hprecision
    dsimp only at hsound hlocale hprecision
    cases r with
    | error e => exact ⟨rfl, hsound, hlocale, hprecision⟩
    | ok t =>
      dsimp only [Except.map]
      rw [hlocale, hprecision]
      exact ⟨rfl, hsound, rfl, rfl⟩

/-- The evaluators that come of a new one by use. -/
inductive Reachable (locale : NumberLocale) (precision : Int) : Evaluator → Prop where
  | new : Reachable locale precision { locale, precision }
  | evaluate {ev : Evaluator} (h : Reachable locale precision ev) (source : String)
    (lookup : String → Value) (rows : List Int) :
    Reachable locale precision (ev.evaluate source lookup rows).2
  | clear {ev : Evaluator} (h : Reachable locale precision ev) :
    Reachable locale precision ev.clear

theorem Reachable.sound {locale : NumberLocale} {precision : Int}
    (h : Reachable locale precision ev) :
    ev.Sound ∧ ev.locale = locale ∧ ev.precision = precision := by
  induction h with
  | new => exact ⟨fun _ _ h => (List.not_mem_nil h).elim, rfl, rfl⟩
  | evaluate _ source lookup rows ih =>
    obtain ⟨hs, hl, hp⟩ := ih
    obtain ⟨-, hs', hl', hp'⟩ := hs.evaluate source lookup rows
    exact ⟨hs', hl'.trans hl, hp'.trans hp⟩
  | @clear ev _ ih => exact ⟨sound_clear ev, ih.2⟩

/-- An evaluation reads no other variables than those that a name found in the text covers, and the
reserved words that the text uses as variables: on two lookups that agree on these, it gives the
same value, or lets the same error escape. -/
theorem evaluate_eq_of_agreeOn {locale : NumberLocale} {precision : Int}
    (hev : Reachable locale precision ev) {source : String} {rows : List Int}
    (hrows : ∀ i ∈ rows, 0 ≤ i) {l l' : String → Value} (h : AgreeOn source l l') :
    (ev.evaluate source l rows).1 = (ev.evaluate source l' rows).1 := by
  obtain ⟨hs, -, -⟩ := hev.sound
  rw [(hs.evaluate source l rows).1, (hs.evaluate source l' rows).1]
  exact outcome_congr h hrows _ _

/-- The theorem at a text with a wildcard and a word used as a variable, for two lookups that differ
at a variable of no account. -/
theorem evaluate_eq_of_agreeOn_rows :
    (({} : Evaluator).evaluate "a + sum(r_?_b) + max"
        (fun v => if v = "z" then .number 1 else .number 2) [0, 1]).1 =
      (({} : Evaluator).evaluate "a + sum(r_?_b) + max" (fun _ => .number 2) [0, 1]).1 := by
  refine evaluate_eq_of_agreeOn .new (by decide) ⟨?_, ?_⟩
  · have hall : ∀ n ∈ variablesOf "a + sum(r_?_b) + max", matchesVariable n "z" = false := by
      decide +kernel
    rintro v ⟨n, hn, hm⟩
    have hv : v ≠ "z" := by
      rintro rfl
      rw [hall n hn] at hm
      cases hm
    exact if_neg hv
  · have hall : ∀ n ∈ wordsRead "a + sum(r_?_b) + max", n ≠ "z" := by
      decide +kernel
    intro n hn
    exact if_neg (hall n hn)

/-- Without the words or with rows below zero the variables of the text are not enough: two lookups
that agree on all variables covered can give different results. -/
theorem evaluate_ne_of_covered :
    ((∀ v, (∃ n ∈ variablesOf "sum", matchesVariable n v = true) →
        (fun _ => .number 5 : String → Value) v = (fun _ => .number 0) v) ∧
      (({} : Evaluator).evaluate "sum" (fun _ => .number 5) []).1 ≠
        (({} : Evaluator).evaluate "sum" (fun _ => .number 0) []).1) ∧
    ((∀ v, (∃ n ∈ variablesOf "sum(r_?_x)", matchesVariable n v = true) →
        (fun v => if v = "r_-1_x" then .number 5 else .number 0 : String → Value) v =
          (fun _ => .number 0) v) ∧
      (({} : Evaluator).evaluate "sum(r_?_x)"
          (fun v => if v = "r_-1_x" then .number 5 else .number 0) [-1]).1 ≠
        (({} : Evaluator).evaluate "sum(r_?_x)" (fun _ => .number 0) [-1]).1) := by
  refine ⟨⟨?_, by decide +kernel⟩, ?_, by decide +kernel⟩
  · have hnone : variablesOf "sum" = [] := by decide +kernel
    rintro v ⟨n, hn, -⟩
    rw [hnone] at hn
    cases hn
  · have hall : ∀ n ∈ variablesOf "sum(r_?_x)", matchesVariable n "r_-1_x" = false := by
      decide +kernel
    rintro v ⟨n, hn, hm⟩
    have hv : v ≠ "r_-1_x" := by
      rintro rfl
      rw [hall n hn] at hm
      cases hm
    exact if_neg hv

end Evaluator

end LiveForm
