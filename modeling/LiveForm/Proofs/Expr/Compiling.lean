import LiveForm.Proofs.Expr.Blanks
import LiveForm.Proofs.Expr.Evaluating
import Mathlib.Data.Finset.Card
import Mathlib.Data.List.DropRight

/-!
# What an evaluator keeps

An evaluator keeps the tree of each text that it has parsed, and hands it out again for every text
that differs from it by the blanks around it.  Nothing of that is seen in its answers: each of them
is the one that a new evaluator gives, and the tree is the one of the text with its blanks
(`answers_afresh`).  What is kept are the texts that were parsed since it was all let go (`Keeps`).
-/

namespace LiveForm.Evaluator

open LiveForm.Expr

/-! ## Uses -/

/-- What an evaluator is used for. -/
inductive Use where
  | compile (source : String)
  | evaluate (source : String) (lookup : String → Value) (rows : List Int)
  | evaluateStrict (source : String) (lookup : String → Value) (rows : List Int)
  | clear

/-- The text that a use is about. -/
def Use.source? : Use → Option String
  | compile source => some source
  | evaluate source _ _ => some source
  | evaluateStrict source _ _ => some source
  | clear => none

/-- What comes of a use. -/
inductive Outcome where
  | compiled (tree : Except SyntaxError LiveForm.Expr)
  | evaluated (result : Eval Value × List Notice)
  | evaluatedStrictly (result : Eval Value)
  | cleared

/-- Uses an evaluator once. -/
def use (ev : Evaluator) : Use → Outcome × Evaluator
  | .compile source =>
    let (r, ev) := ev.compile source
    (.compiled (r.map (·.tree)), ev)
  | .evaluate source lookup rows =>
    let (r, ev) := ev.evaluate source lookup rows
    (.evaluated r, ev)
  | .evaluateStrict source lookup rows =>
    let (r, ev) := ev.evaluateStrict source lookup rows
    (.evaluatedStrictly r, ev)
  | .clear => (.cleared, ev.clear)

/-- Uses an evaluator again and again. -/
def useAll (ev : Evaluator) : List Use → List Outcome × Evaluator
  | [] => ([], ev)
  | u :: us =>
    let (outcome, ev) := ev.use u
    let (outcomes, ev) := ev.useAll us
    (outcome :: outcomes, ev)

variable {ev ev' : Evaluator}

theorem useAll_concat (ev : Evaluator) (us : List Use) (u : Use) :
    (ev.useAll (us ++ [u])).2 = ((ev.useAll us).2.use u).2 := by
  induction us generalizing ev with
  | nil => rfl
  | cons v us ih => exact ih (ev.use v).2

/-! ## Answers -/

/-- The result of a strict evaluation, given the tree. -/
def strictResult (locale : NumberLocale) (precision : Int) (lookup : String → Value)
    (rows : List Int) : Except SyntaxError LiveForm.Expr → Eval Value
  | .error e => .error (.malformed e)
  | .ok tree => do finalize precision (← eval ⟨lookup, rows, locale⟩ tree)

theorem locale_compile (ev : Evaluator) (source : String) :
    (ev.compile source).2.locale = ev.locale ∧ (ev.compile source).2.precision = ev.precision := by
  unfold Evaluator.compile
  split
  · exact ⟨rfl, rfl⟩
  · split <;> exact ⟨rfl, rfl⟩

/-- An evaluation compiles its text and has no other effect. -/
theorem evaluateStrict_eq (ev : Evaluator) (source : String) (lookup : String → Value)
    (rows : List Int) :
    ev.evaluateStrict source lookup rows =
      (strictResult ev.locale ev.precision lookup rows ((ev.compile source).1.map (·.tree)),
        (ev.compile source).2) := by
  obtain ⟨hlocale, hprecision⟩ := locale_compile ev source
  unfold Evaluator.evaluateStrict
  cases hc : ev.compile source with
  | mk r ev' =>
    rw [hc] at hlocale hprecision
    cases r with
    | error e => rfl
    | ok t =>
      dsimp only at hlocale hprecision ⊢
      rw [hlocale, hprecision]
      rfl

theorem evaluate_eq (ev : Evaluator) (source : String) (lookup : String → Value)
    (rows : List Int) :
    ev.evaluate source lookup rows =
      (forgive source (ev.evaluateStrict source lookup rows).1, (ev.compile source).2) := by
  unfold Evaluator.evaluate
  rw [evaluateStrict_eq]

/-- A use compiles its text, if it has one, and has no other effect. -/
theorem snd_use (ev : Evaluator) (u : Use) :
    (ev.use u).2 = match u.source? with
      | some source => (ev.compile source).2
      | none => ev.clear := by
  cases u with
  | compile source => rfl
  | evaluate source lookup rows => exact congrArg Prod.snd (evaluate_eq ev source lookup rows)
  | evaluateStrict source lookup rows =>
    exact congrArg Prod.snd (evaluateStrict_eq ev source lookup rows)
  | clear => rfl

theorem locale_use (ev : Evaluator) (u : Use) :
    (ev.use u).2.locale = ev.locale ∧ (ev.use u).2.precision = ev.precision := by
  rw [snd_use]
  split
  · exact locale_compile ev _
  · exact ⟨rfl, rfl⟩

theorem Sound.use (h : ev.Sound) (u : Use) : (ev.use u).2.Sound := by
  rw [snd_use]
  split
  · exact (h.compile _).2.1
  · exact sound_clear ev

/-- Two evaluators that keep the right trees answer alike. -/
theorem Sound.use_congr (h : ev.Sound) (h' : ev'.Sound) (hlocale : ev.locale = ev'.locale)
    (hprecision : ev.precision = ev'.precision) (u : Use) : (ev.use u).1 = (ev'.use u).1 := by
  have htree (source : String) : (ev.compile source).1.map (·.tree) =
      (ev'.compile source).1.map (·.tree) :=
    (h.compile source).1.trans (h'.compile source).1.symm
  cases u with
  | compile source => exact congrArg Outcome.compiled (htree source)
  | evaluate source lookup rows =>
    simp only [Evaluator.use, evaluate_eq, evaluateStrict_eq, htree, hlocale, hprecision]
  | evaluateStrict source lookup rows =>
    simp only [Evaluator.use, evaluateStrict_eq, htree, hlocale, hprecision]
  | clear => rfl

/-! ## What is kept -/

/-- The trees that are kept are those of the texts among these that can be parsed, one for each. -/
structure Keeps (ev : Evaluator) (texts : List String) : Prop where
  sound : ev.Sound
  nodup : (ev.kept.map (·.1)).Nodup
  mem_iff (text : String) : text ∈ ev.kept.map (·.1) ↔ text ∈ texts ∧ (parse text).isOk = true

namespace Keeps

variable {texts : List String}

theorem new (locale : NumberLocale) (precision : Int) :
    Keeps { locale, precision } [] where
  sound _ _ h := absurd h List.not_mem_nil
  nodup := List.nodup_nil
  mem_iff text := by simp

theorem clear (ev : Evaluator) : Keeps ev.clear [] where
  sound := sound_clear ev
  nodup := List.nodup_nil
  mem_iff text := by simp [Evaluator.clear]

theorem cacheSize (h : Keeps ev texts) :
    ev.cacheSize = (texts.filter fun text => (parse text).isOk).toFinset.card := by
  have hsame : (ev.kept.map (·.1)).toFinset =
      (texts.filter fun text => (parse text).isOk).toFinset := by
    ext text
    rw [List.mem_toFinset, List.mem_toFinset, List.mem_filter, h.mem_iff]
  rw [← hsame, List.toFinset_card_of_nodup h.nodup, List.length_map, Evaluator.cacheSize]

/-- A text that was not kept is kept once it is parsed. -/
theorem compile (h : Keeps ev texts) (source : String) :
    Keeps (ev.compile source).2 (texts ++ [Text.trim source]) := by
  have hsound := (h.sound.compile source).2.1
  have hmem (text : String) : (text ∈ texts ++ [Text.trim source] ∧ (parse text).isOk = true) ↔
      text ∈ ev.kept.map (·.1) ∨ text = Text.trim source ∧ (parse text).isOk = true := by
    rw [h.mem_iff, List.mem_append, List.mem_singleton, or_and_right]
  revert hsound
  unfold Evaluator.compile
  cases hfind : ev.find? source with
  | some t =>
    intro hsound
    refine ⟨hsound, h.nodup, fun text => ?_⟩
    have hkept : Text.trim source ∈ ev.kept.map (·.1) := List.mem_map_of_mem (mem_of_lookup hfind)
    rw [hmem]
    exact ⟨Or.inl, fun hor => hor.elim id fun hand => hand.1 ▸ hkept⟩
  | none =>
    dsimp only
    cases hp : parse (Text.trim source) with
    | error e =>
      intro hsound
      refine ⟨hsound, h.nodup, fun text => ?_⟩
      have hfails : ¬ (text = Text.trim source ∧ (parse text).isOk = true) := by
        rintro ⟨rfl, hok⟩
        rw [hp] at hok
        cases hok
      rw [hmem, or_iff_left hfails]
    | ok tree =>
      intro hsound
      have hout : Text.trim source ∉ ev.kept.map (·.1) := by
        intro hkept
        obtain ⟨p, hp, heq⟩ := List.mem_map.mp hkept
        have hne := List.lookup_eq_none_iff.mp hfind p hp
        rw [heq] at hne
        exact absurd rfl (bne_iff_ne.mp hne)
      refine ⟨hsound, List.nodup_cons.mpr ⟨hout, h.nodup⟩, fun text => ?_⟩
      have hok : text = Text.trim source → (parse text).isOk = true := by
        rintro rfl
        rw [hp]
        rfl
      rw [hmem, and_iff_left_of_imp hok, List.map_cons, List.mem_cons, or_comm]

end Keeps

/-- The texts, without the blanks around them, that an evaluator was used for since it was last
cleared. -/
def textsAsked (us : List Use) : List String :=
  (us.rtakeWhile (·.source?.isSome)).filterMap fun u => u.source?.map Text.trim

theorem Keeps.use {us : List Use} (h : Keeps ev (textsAsked us)) (u : Use) :
    Keeps (ev.use u).2 (textsAsked (us ++ [u])) := by
  rw [snd_use]
  cases hu : u.source? with
  | some source =>
    have hasked : textsAsked (us ++ [u]) = textsAsked us ++ [Text.trim source] := by
      rw [textsAsked, List.rtakeWhile_concat_pos _ _ _ (by rw [hu]; rfl), List.filterMap_append]
      simp [hu, textsAsked]
    rw [hasked]
    exact h.compile source
  | none =>
    have hasked : textsAsked (us ++ [u]) = [] := by
      rw [textsAsked, List.rtakeWhile_concat_neg _ _ _ (by simp [hu]), List.filterMap_nil]
    rw [hasked]
    exact .clear ev

theorem keeps_useAll (locale : NumberLocale) (precision : Int) (us : List Use) :
    Keeps (useAll { locale, precision } us).2 (textsAsked us) := by
  induction us using List.reverseRecOn with
  | nil => exact .new locale precision
  | append_singleton us u ih =>
    rw [useAll_concat]
    exact ih.use u

/-! ## Answers of a whole course -/

theorem Sound.useAll {new : Evaluator} (hnew : new.Sound) (h : ev.Sound)
    (hlocale : ev.locale = new.locale) (hprecision : ev.precision = new.precision)
    (us : List Use) : (ev.useAll us).1 = us.map fun u => (new.use u).1 := by
  induction us generalizing ev with
  | nil => rfl
  | cons u us ih =>
    obtain ⟨hl, hp⟩ := locale_use ev u
    rw [List.map_cons, ← h.use_congr hnew hlocale hprecision u,
      ← ih (h.use u) (hl.trans hlocale) (hp.trans hprecision)]
    rfl

/-- What an evaluator keeps is not seen.  However it was used before, it answers as a new one of the
same convention and precision does; it keeps as many trees as there are different texts, the blanks
around them aside, that it has parsed since it was last cleared; and it compiles a text to the tree
that the text with its blanks is parsed to. -/
theorem answers_afresh (locale : NumberLocale) (precision : Int) (us : List Use) :
    (useAll { locale, precision } us).1 =
        us.map (fun u => (use { locale, precision } u).1) ∧
      (useAll { locale, precision } us).2.cacheSize =
        ((textsAsked us).filter fun text => (parse text).isOk).toFinset.card ∧
      ∀ source tree,
        ((useAll { locale, precision } us).2.compile source).1.map (·.tree) = .ok tree ↔
          parse source = .ok tree := by
  have hkeeps := keeps_useAll locale precision us
  have hnew := (Keeps.new locale precision).sound
  refine ⟨hnew.useAll hnew rfl rfl us, hkeeps.cacheSize, fun source tree => ?_⟩
  rw [(hkeeps.sound.compile source).1]
  exact parse_trim_eq_ok_iff

/-- Texts that differ by the blanks around them are kept once, and those that are refused are not
kept. -/
example : (useAll { locale := .id, precision := 2 }
    [.compile "a+1", .clear, .compile "a+b", .compile " a+b\n", .compile "a+"]).2.cacheSize = 1 := by
  decide +kernel

end LiveForm.Evaluator
