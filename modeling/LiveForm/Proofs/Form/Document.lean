import LiveForm.Form.Document
import LiveForm.Proofs.Form.Tree
import LiveForm.Proofs.Sequence
import LiveForm.Proofs.Value.Entered

/-!
# What a document enters

The fields of a document's inputs keep their texts while the other fields are added (`read_tree`),
so a number given as an input is what is read from its field, unless its text is misleading
(`reads_input`).  Two texts that are: `misreads_input`.
-/

namespace LiveForm

namespace FormTree

theorem read_withField (t : FormTree) (name text scope field : String) :
    (t.withField name text scope).read field =
      if field = name then some text else t.read field := by
  unfold read find? withField
  rw [lookup_put]
  split <;> rfl

theorem read_withOutput (t : FormTree) (spec : OutputSpec) (text field : String) :
    (t.withOutput spec text).read field =
      if field = spec.id then some text else t.read field := by
  unfold read find? withOutput
  rw [lookup_put]
  split <;> rfl

/-- Additions of other fields leave the text of a field as it is. -/
theorem read_foldlM {α : Type} {add : FormTree → α → Except TreeError FormTree} (name : α → String)
    {field : String} (hadd : ∀ t a t', add t a = .ok t' → name a ≠ field →
      t'.read field = t.read field) {as : List α} (has : ∀ a ∈ as, name a ≠ field)
    {t t' : FormTree} (h : as.foldlM add t = .ok t') : t'.read field = t.read field := by
  induction as generalizing t with
  | nil =>
    cases h
    rfl
  | cons a as ih =>
    rw [List.foldlM_cons] at h
    obtain ⟨t₁, ha, h⟩ := bind_eq_ok_iff.mp h
    rw [ih (fun b hb => has b (List.mem_cons_of_mem _ hb)) h,
      hadd t a t₁ ha (has a List.mem_cons_self)]

end FormTree

namespace FormDocument

open FormTree

variable {doc : FormDocument} {tree : FormTree} {name : String} {v : Value}

/-- The field of an input has the plain text of its value, unless it is an output's as well. -/
theorem read_tree (htree : doc.tree = .ok tree) (hnames : (doc.inputs.map (·.1)).Nodup)
    (hv : (name, v) ∈ doc.inputs) (houtputs : ∀ o ∈ doc.outputs, o.spec.id ≠ name) :
    ∃ s, v.plainText = .ok s ∧ tree.read name = some s := by
  obtain ⟨before, behind, hsplit⟩ := List.append_of_mem hv
  have hbehind : ∀ p ∈ behind, p.1 ≠ name := by
    intro p hp heq
    rw [hsplit, List.map_append, List.map_cons, List.nodup_append, List.nodup_cons] at hnames
    exact hnames.2.1.1 (List.mem_map.mpr ⟨p, hp, heq⟩)
  have hadd : ∀ (t : FormTree) (p : String × Value) t', t.addField p.1 p.2 "" = .ok t' →
      p.1 ≠ name → t'.read name = t.read name := by
    intro t p t' ht hp
    obtain ⟨text, -, rfl⟩ := addField_eq_ok.mp ht
    rw [read_withField, if_neg hp.symm]
  have haddOutput : ∀ (t : FormTree) (o : OutputDeclaration) t',
      t.addOutput o.spec o.value = .ok t' → o.spec.id ≠ name → t'.read name = t.read name := by
    intro t o t' ht ho
    obtain ⟨text, -, rfl⟩ := addOutput_eq_ok.mp ht
    rw [read_withOutput, if_neg ho.symm]
  obtain ⟨inputs, hinputs, htree⟩ := bind_eq_ok_iff.mp htree
  obtain ⟨outputs, houts, htree⟩ := bind_eq_ok_iff.mp htree
  cases htree
  rw [hsplit, List.foldlM_append] at hinputs
  obtain ⟨t₁, -, hinputs⟩ := bind_eq_ok_iff.mp hinputs
  rw [List.foldlM_cons] at hinputs
  obtain ⟨t₂, hfield, hinputs⟩ := bind_eq_ok_iff.mp hinputs
  obtain ⟨s, hs, rfl⟩ := addField_eq_ok.mp hfield
  refine ⟨s, hs, ?_⟩
  show outputs.read name = some s
  rw [read_foldlM (fun o => o.spec.id) haddOutput houtputs houts,
    read_foldlM (·.1) hadd hbehind hinputs, read_withField, if_pos rfl]

/-- A number that is given as an input is what is read from its field. -/
theorem reads_input {x : Binary64} (l : NumberLocale) (htree : doc.tree = .ok tree)
    (hnames : (doc.inputs.map (·.1)).Nodup) (hv : (name, v) ∈ doc.inputs)
    (houtputs : ∀ o ∈ doc.outputs, o.spec.id ≠ name) (hx : v.IsFloat x) :
    ∃ s, v.plainText = .ok s ∧ tree.read name = some s ∧
      (¬ Value.Misleading l s → ∃ y, (Value.text s).toNumber? l = some y ∧ y.eqv x = true) := by
  obtain ⟨s, hs, hread⟩ := read_tree htree hnames hv houtputs
  obtain ⟨s', hs', hnumber⟩ := Value.toNumber?_plainText l hx
  rw [hs] at hs'
  cases hs'
  exact ⟨s, hs, hread, hnumber⟩

/-- The theorem at a number with one decimal, read under the convention that could mislead. -/
theorem reads_input_price :
    ∃ tree s y,
      (FormDocument.mk [("price", .number (.ofDecimal false 125 (-1)))] [] none []).tree =
        .ok tree ∧
      tree.read "price" = some s ∧ ¬ Value.Misleading .id s ∧
      (Value.text s).toNumber? .id = some y ∧ y.eqv (.ofDecimal false 125 (-1)) = true := by
  have hmem : ("price", Value.number (.ofDecimal false 125 (-1))) ∈
      (FormDocument.mk [("price", .number (.ofDecimal false 125 (-1)))] [] none []).inputs :=
    List.mem_cons_self
  have hfloat : (Value.number (.ofDecimal false 125 (-1))).IsFloat (.ofDecimal false 125 (-1)) :=
    .number (by decide +kernel)
  obtain ⟨s, hs, hread, hnumber⟩ := reads_input .id rfl (by decide) hmem
    (fun _ h => absurd h List.not_mem_nil) hfloat
  have hplain : ¬ Value.Misleading .id s := by
    rw [← show Value.numberText (.ofDecimal false 125 (-1)) = s from Except.ok.inj hs]
    decide +kernel
  obtain ⟨y, hy, heqv⟩ := hnumber hplain
  exact ⟨_, _, y, rfl, hread, hplain, hy, heqv⟩

/-- Three digits behind a point are taken for thousands, and a negative exponent for more digits. -/
theorem misreads_input :
    ((FormDocument.mk [("rate", .number (.ofDecimal false 125 (-3)))] [] none []).tree.toOption.bind
      fun t => (t.read "rate").bind fun s => (Value.text s).toNumber? .id) = some 125 ∧
    ((FormDocument.mk [("rate", .number (.ofDecimal false 1 (-7)))] [] none []).tree.toOption.bind
      fun t => (t.read "rate").bind fun s => (Value.text s).toNumber? .en) = some 107 := by
  decide +kernel

end FormDocument

end LiveForm
