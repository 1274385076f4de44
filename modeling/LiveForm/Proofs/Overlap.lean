import LiveForm.Graph.Link
import LiveForm.Proofs.Name

/-!
# Dependencies that share a variable

Two sets of dependencies share a variable if a name on each side covers it.  Whether they overlap is
found out by comparing names, not variables: a name is looked for among those that the other one
covers.  That is enough as long as one of the two names is no wildcard, because a name without a
wildcard covers nothing but itself.  Two different wildcards never overlap, also where there are
variables that both of them cover.
-/

namespace LiveForm

open Text

namespace Name

/-! ## What a pattern covers -/

theorem covers_cons {c : Char} (hc : c ≠ '?') (p cs : List Char) :
    covers (c :: p) cs = true ↔ ∃ ds, cs = c :: ds ∧ covers p ds = true := by
  cases cs with
  | nil => simp [covers]
  | cons d ds =>
    rw [covers, Bool.and_eq_true, beq_iff_eq]
    · constructor
      · rintro ⟨rfl, h⟩
        exact ⟨ds, rfl, h⟩
      · rintro ⟨ds, heq, h⟩
        cases heq
        exact ⟨rfl, h⟩
    · exact fun h => hc h

/-- A run of digits is in front of a text for which the rest holds. -/
theorem coversRun_iff {rest : List Char → Bool} {cs : List Char} :
    coversRun rest cs = true ↔ ∃ digits ds, digits ≠ [] ∧
      (∀ c ∈ digits, isDecimalDigit c = true) ∧ rest ds = true ∧ cs = digits ++ ds := by
  constructor
  · intro h
    induction cs with
    | nil => simp [coversRun] at h
    | cons d cs ih =>
      simp only [coversRun, Bool.and_eq_true, Bool.or_eq_true] at h
      obtain ⟨hd, hrest | hmore⟩ := h
      · exact ⟨[d], cs, by simp, by simpa using hd, hrest, rfl⟩
      · obtain ⟨digits, ds, -, hdigits, hds, rfl⟩ := ih hmore
        exact ⟨d :: digits, ds, by simp, List.forall_mem_cons.mpr ⟨hd, hdigits⟩, hds, rfl⟩
  · rintro ⟨digits, ds, hne, hdigits, hds, rfl⟩
    exact coversRun_append hdigits hne hds

/-- What a pattern covers holds no wildcard. -/
theorem not_mem_of_covers {p cs : List Char} (h : covers p cs = true) : '?' ∉ cs := by
  induction p generalizing cs with
  | nil =>
    rw [covers, List.isEmpty_iff] at h
    simp [h]
  | cons c p ih =>
    by_cases hc : c = '?'
    · subst hc
      rw [covers, coversRun_iff] at h
      obtain ⟨digits, ds, -, hdigits, hds, rfl⟩ := h
      have hfront : '?' ∉ digits := fun hmem => absurd (hdigits _ hmem) (by decide)
      simp [hfront, ih hds]
    · obtain ⟨ds, rfl, hds⟩ := (covers_cons hc p cs).mp h
      simp [Ne.symm hc, ih hds]

theorem not_mem_fill {text : List Char} (h : '?' ∉ text) (p : List Char) : '?' ∉ fill p text := by
  intro hmem
  obtain ⟨c, -, hmem⟩ := List.mem_flatMap.mp hmem
  split at hmem
  · exact h hmem
  · next hc =>
    rw [List.mem_singleton] at hmem
    exact hc (beq_iff_eq.mpr hmem.symm)

end Name

theorem isWildcard_eq_false_iff {n : String} : isWildcard n = false ↔ '?' ∉ n.toList := by
  simp [isWildcard]

/-- A name without a wildcard covers nothing but itself. -/
theorem matchesVariable_of_concrete {n v : String} (hn : isWildcard n = false) :
    matchesVariable n v = true ↔ n = v := by
  simp [matchesVariable, hn]

/-- What a name covers begins as the name does, if that is not with a wildcard. -/
theorem exists_of_matchesVariable {n v : String} {c : Char} {p : List Char} (hc : c ≠ '?')
    (hn : n.toList = c :: p) (h : matchesVariable n v = true) : ∃ ds, v.toList = c :: ds := by
  rw [matchesVariable, Bool.or_eq_true, beq_iff_eq, Bool.and_eq_true] at h
  rcases h with rfl | ⟨-, h⟩
  · exact ⟨p, hn⟩
  · rw [hn, Name.covers_cons hc] at h
    obtain ⟨ds, hv, -⟩ := h
    exact ⟨ds, hv⟩

/-! ## Shared variables -/

/-- The variable is no wildcard, and both names cover it. -/
def Shared (a b v : String) : Prop :=
  isWildcard v = false ∧ matchesVariable a v = true ∧ matchesVariable b v = true

/-- The two names are wildcards, and not the same one. -/
def Wildcards (a b : String) : Prop := isWildcard a = true ∧ isWildcard b = true ∧ a ≠ b

theorem Shared.symm {a b v : String} (h : Shared a b v) : Shared b a v := ⟨h.1, h.2.2, h.2.1⟩

theorem Wildcards.symm {a b : String} (h : Wildcards a b) : Wildcards b a := ⟨h.2.1, h.1, h.2.2.symm⟩

/-- Each name covers some variable, also if it is a wildcard. -/
theorem exists_shared_self (n : String) : ∃ v, Shared n n v := by
  have hzero : ∀ c ∈ ['0'], isDecimalDigit c = true := by
    intro c hc
    rw [List.mem_singleton.mp hc]
    decide
  have hcovers := matchesVariable_fill hzero (List.cons_ne_nil _ _) n
  refine ⟨.ofList (Name.fill n.toList ['0']), ?_, hcovers, hcovers⟩
  rw [isWildcard_eq_false_iff, String.toList_ofList]
  exact Name.not_mem_fill (by decide) _

/-- A name and one that it covers share a variable, and only one of them may be a wildcard. -/
theorem shared_of_matchesVariable {a b : String} (h : matchesVariable a b = true) :
    ¬ Wildcards a b ∧ ∃ v, Shared a b v := by
  by_cases hab : a = b
  · subst hab
    exact ⟨fun hw => hw.2.2 rfl, exists_shared_self a⟩
  · have hcovers : isWildcard a = true ∧ Name.covers a.toList b.toList = true := by
      simpa [matchesVariable, hab] using h
    have hb := isWildcard_eq_false_iff.mpr (Name.not_mem_of_covers hcovers.2)
    refine ⟨fun hw => ?_, b, hb, h, matchesVariable_self b⟩
    rw [hw.2.1] at hb
    cases hb

theorem matchesVariable_of_shared {a b v : String} (ha : isWildcard a = false)
    (h : Shared a b v) : matchesVariable b a = true := by
  obtain rfl := (matchesVariable_of_concrete ha).mp h.2.1
  exact h.2.2

/-- One of two names covers the other one if and only if they share a variable and are not two
wildcards that differ. -/
theorem covered_iff_shared {a b : String} :
    matchesVariable a b = true ∨ matchesVariable b a = true ↔
      ¬ Wildcards a b ∧ ∃ v, Shared a b v := by
  constructor
  · rintro (h | h)
    · exact shared_of_matchesVariable h
    · obtain ⟨hw, v, hv⟩ := shared_of_matchesVariable h
      exact ⟨fun hba => hw hba.symm, v, hv.symm⟩
  · rintro ⟨hw, v, hv⟩
    cases ha : isWildcard a with
    | false => exact Or.inr (matchesVariable_of_shared ha hv)
    | true =>
      cases hb : isWildcard b with
      | false => exact Or.inl (matchesVariable_of_shared hb hv.symm)
      | true =>
        obtain rfl : a = b := by
          by_contra hne
          exact hw ⟨ha, hb, hne⟩
        exact Or.inl (matchesVariable_self a)

/-! ## Overlap -/

variable {left right : List String}

theorem dependenciesOverlap_iff : dependenciesOverlap left right = true ↔
    ∃ a ∈ left, ∃ b ∈ right, matchesVariable a b = true ∨ matchesVariable b a = true := by
  simp [dependenciesOverlap]

theorem dependenciesOverlap_comm (left right : List String) :
    dependenciesOverlap left right = dependenciesOverlap right left := by
  have hswap : ∀ left right, dependenciesOverlap left right = true →
      dependenciesOverlap right left = true := by
    intro left right h
    obtain ⟨a, ha, b, hb, h⟩ := dependenciesOverlap_iff.mp h
    exact dependenciesOverlap_iff.mpr ⟨b, hb, a, ha, h.symm⟩
  exact Bool.eq_iff_iff.mpr ⟨hswap left right, hswap right left⟩

theorem reads_iff {names : List String} {v : String} :
    reads names v = true ↔ ∃ n ∈ names, matchesVariable n v = true := by
  simp [reads]

/-- Two sets of dependencies overlap if and only if a name on each side covers the same variable and
these two are not different wildcards.  So where different wildcards share no variable the sets
overlap if and only if they have one in common. -/
theorem dependenciesOverlap_agrees (left right : List String) :
    (dependenciesOverlap left right = true ↔
      ∃ a ∈ left, ∃ b ∈ right, ¬ Wildcards a b ∧ ∃ v, Shared a b v) ∧
    ((∀ a ∈ left, ∀ b ∈ right, Wildcards a b → ¬ ∃ v, Shared a b v) →
      (dependenciesOverlap left right = true ↔
        ∃ v, isWildcard v = false ∧ reads left v = true ∧ reads right v = true)) := by
  have hoverlap : dependenciesOverlap left right = true ↔
      ∃ a ∈ left, ∃ b ∈ right, ¬ Wildcards a b ∧ ∃ v, Shared a b v := by
    rw [dependenciesOverlap_iff]
    simp only [covered_iff_shared]
  refine ⟨hoverlap, fun hnone => hoverlap.trans ?_⟩
  constructor
  · rintro ⟨a, ha, b, hb, -, v, hv, hva, hvb⟩
    exact ⟨v, hv, reads_iff.mpr ⟨a, ha, hva⟩, reads_iff.mpr ⟨b, hb, hvb⟩⟩
  · rintro ⟨v, hv, hleft, hright⟩
    obtain ⟨a, ha, hva⟩ := reads_iff.mp hleft
    obtain ⟨b, hb, hvb⟩ := reads_iff.mp hright
    have hshared : ∃ v, Shared a b v := ⟨v, hv, hva, hvb⟩
    exact ⟨a, ha, b, hb, fun hw => hnone a ha b hb hw hshared, hshared⟩

/-- A family of rows and one of its rows, beside a family that has no variable in common with it. -/
theorem dependenciesOverlap_agrees_row :
    (∀ a ∈ ["fees_?_rate", "rows_?_amount"], ∀ b ∈ ["rows_?_amount", "rows_12_amount"],
      Wildcards a b → ¬ ∃ v, Shared a b v) ∧
    dependenciesOverlap ["fees_?_rate", "rows_?_amount"] ["rows_?_amount", "rows_12_amount"] = true ∧
    ∃ v, isWildcard v = false ∧ reads ["fees_?_rate", "rows_?_amount"] v = true ∧
      reads ["rows_?_amount", "rows_12_amount"] v = true := by
  have hnone : ∀ a ∈ ["fees_?_rate", "rows_?_amount"], ∀ b ∈ ["rows_?_amount", "rows_12_amount"],
      Wildcards a b → ¬ ∃ v, Shared a b v := by
    intro a ha b hb hw
    obtain rfl | rfl : a = "fees_?_rate" ∨ a = "rows_?_amount" := by simpa using ha
    · obtain rfl | rfl : b = "rows_?_amount" ∨ b = "rows_12_amount" := by simpa using hb
      · -- The two families differ in their first letters
        rintro ⟨v, -, hva, hvb⟩
        obtain ⟨as, has⟩ := exists_of_matchesVariable (c := 'f') (by decide) rfl hva
        obtain ⟨bs, hbs⟩ := exists_of_matchesVariable (c := 'r') (by decide) rfl hvb
        simp [has] at hbs
      · exact absurd hw.2.1 (by decide)
    · obtain rfl | rfl : b = "rows_?_amount" ∨ b = "rows_12_amount" := by simpa using hb
      · exact absurd rfl hw.2.2
      · exact absurd hw.2.1 (by decide)
  have hoverlap : dependenciesOverlap ["fees_?_rate", "rows_?_amount"]
      ["rows_?_amount", "rows_12_amount"] = true := by decide +kernel
  exact ⟨hnone, hoverlap, ((dependenciesOverlap_agrees _ _).2 hnone).mp hoverlap⟩

/-- Two wildcards that have their digits in different places cover the same variable, and do not
overlap; nor are two outputs linked that depend on them. -/
theorem wildcards_never_overlap :
    Shared "form_?_details_5_value" "form_3_details_?_value" "form_3_details_5_value" ∧
    dependenciesOverlap ["form_?_details_5_value"] ["form_3_details_?_value"] = false ∧
    (LinkGraph.build [("a", ["form_?_details_5_value"]), ("b", ["form_3_details_?_value"])]).areLinked
      "a" "b" = false := by
  exact ⟨⟨by decide, by decide +kernel, by decide +kernel⟩, by decide +kernel, by decide +kernel⟩

end LiveForm
