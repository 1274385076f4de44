import LiveForm.Proofs.Engine.Showing
import LiveForm.Proofs.Form.Rereading

/-!
# The displayed text of an output

The text of an output is the one that was written last, and only if none was written the value in
its format.  The two agree: a value is written when it is stored, and where the text is there
already nothing need be.  But what was written is kept when the output is declared again as it was
computed, though it may be in another format, or the output not to be written any more.
-/

namespace LiveForm

open Engine
open Machine (after Runs)

variable {settings : Settings} {mode : YieldMode} {e e' : Engine} {n m : OutputNode}
  {spec : OutputSpec}

/-! ## A node and its text -/

/-- The value of a node can be displayed, and what was written for it is its display. -/
structure OutputNode.Faithful (locale : NumberLocale) (n : OutputNode) : Prop where
  value : n.lastValue = .absent ∨ n.lastValue.Displayable
  written : ∀ text, n.lastWritten = some text →
    n.autoApply = true ∧ (n.lastValue.display locale n.format).1 = .ok text

namespace OutputNode

theorem Blank.faithful (h : n.Blank) (locale : NumberLocale) : n.Faithful locale := by
  refine ⟨Or.inl h.lastValue, fun text ht => ?_⟩
  rw [h.lastWritten] at ht
  cases ht

/-- A node that remembers what another one does has its text if it is shown alike. -/
theorem Resumes.faithful {locale : NumberLocale} (h : m.Resumes n) (hn : n.Faithful locale)
    (hshown : n.autoApply = true → m.format = n.format ∧ m.autoApply = true) :
    m.Faithful locale := by
  refine ⟨h.lastValue ▸ hn.value, fun text ht => ?_⟩
  rw [h.lastWritten] at ht
  obtain ⟨happly, hdisplay⟩ := hn.written text ht
  obtain ⟨hformat, happly'⟩ := hshown happly
  rw [h.lastValue, hformat]
  exact ⟨happly', hdisplay⟩

/-- Whatever a node is linked with, its text is its value's. -/
theorem Faithful.linked {locale : NumberLocale} (h : n.Faithful locale) (linked : List String) :
    ({ n with linked } : OutputNode).Faithful locale :=
  ⟨h.value, h.written⟩

/-- What was written for a value that is stored is its display, also if nothing need be written. -/
theorem Faithful.store (h : n.Faithful e.locale) {v : Value} (hv : v.Displayable) :
    (n.store v (e.toWrite n v)).Faithful e.locale := by
  refine ⟨Or.inr hv, fun text ht => ?_⟩
  cases hwrite : e.toWrite n v with
  | some written =>
    rw [hwrite] at ht
    cases ht
    have hdisplay : n.autoApply = true ∧ (v.display e.locale n.format).1 = .ok text :=
      display_of_toWrite hwrite
    exact hdisplay
  | none =>
    rw [hwrite] at ht
    have hlast : n.lastWritten = some text := ht
    obtain ⟨happly, -⟩ := h.written text hlast
    obtain ⟨text', htext⟩ := hv.display e.locale n.format
    have hkeep := shown_of_toWrite_none hwrite happly htext
    rw [hlast] at hkeep
    cases hkeep
    exact ⟨happly, htext⟩

end OutputNode

namespace Engine

/-- The text of a node is its value's. -/
theorem displayNode_of_faithful (h : n.Faithful e.locale) :
    ∃ text, (n.lastValue.display e.locale n.format).1 = .ok text ∧
      (e.displayNode n).1 = .ok text := by
  unfold displayNode
  cases hw : n.lastWritten with
  | some text => exact ⟨text, (h.written text hw).2, rfl⟩
  | none =>
    have hdisplays : ∃ text, (n.lastValue.display e.locale n.format).1 = .ok text := by
      rcases h.value with habsent | hv
      · rw [habsent]
        exact ⟨"", Value.display_absent e.locale n.format⟩
      · exact hv.display e.locale n.format
    obtain ⟨text, htext⟩ := hdisplays
    refine ⟨text, htext, ?_⟩
    dsimp only
    rw [htext]
    rfl

/-! ## Nodes and declarations -/

/-- No output that is written to its field is declared to be shown in another way, unless it is
computed in another way too. -/
def Agrees (e : Engine) : Prop :=
  ∀ n ∈ e.registry.nodes, n.autoApply = true →
    ∀ spec ∈ Registry.declaration? (e.tree.outputSpecs none) n.id,
      n.sameComputation (.ofSpec spec) = true → spec.format = n.format ∧ spec.autoApply = true

instance : Decidable e.Agrees :=
  inferInstanceAs (Decidable (∀ n ∈ e.registry.nodes, n.autoApply = true →
    ∀ spec ∈ Registry.declaration? (e.tree.outputSpecs none) n.id,
      n.sameComputation (.ofSpec spec) = true → spec.format = n.format ∧ spec.autoApply = true))

/-- The operation declares no output that is written to its field in such a way. -/
def Retains (e : Engine) (op : Operation) : Prop :=
  ∀ tree, op.change e.tree = .ok tree → Agrees { e with tree }

/-- The outputs are declared to be shown as they are, and what was written for them is what their
values display. -/
structure Displaying (e : Engine) : Prop where
  agrees : e.Agrees
  faithful : ∀ n ∈ e.registry.nodes, n.Faithful e.locale

/-- Reading the form again leaves the nodes in line with it. -/
theorem agrees_rescan (e : Engine) : e.rescan.1.Agrees := by
  intro n hn happly spec hspec _
  obtain ⟨m, hm, linked, rfl⟩ := exists_of_mem_rescan hn
  rw [tree_rescan] at hspec
  obtain ⟨spec', hspec', hsuits⟩ := Registry.suits_declaration _ _ m hm
  have hsame : spec' = spec := Option.some.inj (hspec'.symm.trans hspec)
  subst hsame
  exact ⟨hsuits.format.symm, hsuits.autoApply.symm.trans happly⟩

theorem Displaying.rescan (h : e.Displaying) : e.rescan.1.Displaying := by
  refine ⟨agrees_rescan e, fun n hn => ?_⟩
  obtain ⟨m, hm, linked, rfl⟩ := exists_of_mem_rescan hn
  rw [locale_rescan]
  suffices hfaithful : m.Faithful e.locale from hfaithful.linked linked
  obtain ⟨spec, hspec, hsuits⟩ := Registry.suits_declaration _ _ m hm
  rcases Registry.blank_or_resumes_sync _ _ m hm with hblank | ⟨k, hk, hresumes⟩
  · exact hblank.faithful e.locale
  · refine hresumes.faithful (h.faithful k hk) fun happly => ?_
    rw [hresumes.id_eq] at hspec
    rw [hsuits.format, hsuits.autoApply]
    exact h.agrees k hk happly spec hspec (hresumes.sameComputation hsuits)

theorem Displaying.withValue (h : e.Displaying) (hc : Sound settings mode e)
    (hn : n ∈ e.registry.nodes) {v : Value} (hv : v.Displayable) :
    (e.withValue n v).Displaying := by
  refine ⟨fun m' hm' => ?_, fun m' hm' => ?_⟩
  · rw [outputSpecs_withValue]
    obtain ⟨m, hm, rfl⟩ := Registry.mem_modify.mp hm'
    -- A value that is stored changes nothing of what is declared
    split
    · exact h.agrees m hm
    · exact h.agrees m hm
  · obtain ⟨m, hm, rfl⟩ := Registry.mem_modify.mp hm'
    split
    · next hid =>
      obtain rfl : m = n := Registry.eq_of_mem hc.ids hm hn (beq_iff_eq.mp hid)
      exact (h.faithful m hm).store hv
    · exact h.faithful m hm

theorem lasts_displaying : Lasts settings mode Displaying where
  congr {e e'} h hholdings := by
    simp only [holdings, Prod.mk.injEq] at hholdings
    obtain ⟨hsettings, hfields, hregistry, -⟩ := hholdings
    refine ⟨?_, ?_⟩
    · unfold Agrees FormTree.outputSpecs
      rw [hregistry, hfields]
      exact h.agrees
    · unfold locale
      rw [hregistry, hsettings]
      exact h.faithful
  rescan _ h := h.rescan
  withValue hc hn hv h := h.withValue hc hn hv
  bound name h := by
    rcases bound_cases _ name with heq | ⟨rows, -, heq⟩ | heq
    · exact heq.symm ▸ h
    · exact heq.symm ▸ ⟨h.agrees, h.faithful⟩
    · exact heq.symm ▸ ⟨h.agrees, h.faithful⟩

/-- Whatever is done to a form, the text of each output is its value in its format, as long as no
output that is written to its field is declared again as it was computed in another format or as one
that is not written. -/
theorem display_agrees {c : Running}
    (arises : Arises settings mode (fun _ => True) Retains c) {id : String}
    (found : c.state.registry.find? id = some n) :
    ∃ v text, c.state.value id = .ok v ∧ (v.display c.state.locale n.format).1 = .ok text ∧
      (c.state.display id).1 = .ok text := by
  have hdisplaying : c.state.Displaying := lasts_displaying.arises
    (fun _ _ _ _ => ⟨fun _ hn => absurd hn List.not_mem_nil,
      fun _ hn => absurd hn List.not_mem_nil⟩)
    (fun _ hp hop hchange => ⟨hop _ hchange, hp.faithful⟩) arises
  obtain ⟨hmem, -⟩ := Registry.mem_of_find? found
  obtain ⟨text, hvalue, htext⟩ := displayNode_of_faithful (hdisplaying.faithful n hmem)
  have hnode : c.state.node id = .ok n := by
    unfold node
    rw [found]
  refine ⟨n.lastValue, text, ?_, hvalue, ?_⟩
  · unfold Engine.value
    rw [hnode]
    rfl
  · unfold display
    rw [hnode]
    exact htext

/-- The engine is attached to an output that shows a field. -/
theorem arises_attachedShown {permits : Engine → Operation → Prop}
    (h : permits (Engine.create shownTree {} .immediate false) (.attach true)) :
    Arises {} .immediate (fun _ => True) permits
      ⟨attachedShown.state, [], attachedShown.reply⟩ := by
  obtain ⟨hstack, -⟩ := attachedShown_ends
  have harises : Arises {} .immediate (fun _ => True) permits attachedShown :=
    (Arises.perform (.create proper_shownTree trivial false) h).run
      (fun _ _ => .returned default) 100
  exact List.isEmpty_iff.mp hstack ▸ harises

/-- An output that is declared with another expression is displayed in its new format. -/
theorem display_agrees_redeclared :
    ∃ v text, (redeclared "x + 1" (some "percent")).state.value "a" = .ok v ∧
      (v.display (redeclared "x + 1" (some "percent")).state.locale (some "percent")).1 = .ok text ∧
      ((redeclared "x + 1" (some "percent")).state.display "a").1 = .ok text := by
  have hattach : Retains (Engine.create shownTree {} .immediate false) (.attach true) :=
    fun _ _ _ hn => absurd hn List.not_mem_nil
  have hretains : Retains attachedShown.state
      (.addOutput { id := "a", expression := "x + 1", format := some "percent" } .absent true) := by
    intro tree htree
    cases htree
    decide +kernel
  have harises : Arises {} .immediate (fun _ => True) Retains
      (redeclared "x + 1" (some "percent")) :=
    ((arises_attachedShown hattach).perform hretains).run (fun _ _ => .returned default) 100
  have hfound : ((redeclared "x + 1" (some "percent")).state.registry.find? "a").any
      (fun n => n.format == some "percent") = true := by
    decide +kernel
  obtain ⟨n, hn, hformat⟩ := (Option.any_eq_true _ _).mp hfound
  have hagrees := display_agrees harises hn
  rw [beq_iff_eq.mp hformat] at hagrees
  exact hagrees

/-- An output that is declared as it was computed, but as a percentage, is still displayed in its
old format. -/
theorem display_stays :
    ∃ c, Arises {} .immediate (fun _ => True) (fun _ _ => True) c ∧ c.stack = [] ∧
      c.state.phase = .idle ∧ ∃ n ∈ c.state.registry.find? "a",
        c.state.value "a" = .ok n.lastValue ∧
        (n.lastValue.display c.state.locale n.format).1 = .ok "500.00%" ∧
        (c.state.display "a").1 = .ok "5" := by
  have harises : Arises {} .immediate (fun _ => True) (fun _ _ => True)
      (redeclared "x" (some "percent")) :=
    (Arises.perform (arises_attachedShown trivial) trivial).run (fun _ _ => .returned default) 100
  exact ⟨_, harises, List.isEmpty_iff.mp (by decide +kernel), by decide +kernel, by decide +kernel⟩

end Engine

end LiveForm
