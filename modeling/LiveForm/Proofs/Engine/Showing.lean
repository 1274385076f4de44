import LiveForm.Proofs.Engine.Lasting
import LiveForm.Proofs.Engine.Sweep

/-!
# Outputs that show their values

The caches of a node, its last value and the text written last, are kept when the form is read
again, though the field may be another one by then.  As long as no output is declared again that is
computed as it was, they are about the field that is there, and a recompute leaves every output
showing its value in its declared format.
-/

namespace LiveForm

open Engine
open Machine (after Runs)

variable {settings : Settings} {mode : YieldMode} {e e' : Engine} {n m : OutputNode}
  {spec : OutputSpec}

namespace Engine

/-- The field of a node shows its last value. -/
def Shows (e : Engine) (n : OutputNode) : Prop :=
  ∃ text, (n.lastValue.display e.locale n.format).1 = .ok text ∧ e.tree.read n.field = some text

/-- A node is in line with a declaration, and what it remembers is about the field that is there. -/
structure Serves (e : Engine) (n : OutputNode) (spec : OutputSpec) : Prop where
  field : n.field = spec.id
  format : n.format = spec.format
  autoApply : n.autoApply = spec.autoApply
  shown : n.evaluated = true → n.autoApply = true → e.Shows n
  written : ∀ text, n.lastWritten = some text → e.tree.read n.field = some text

/-- The declared outputs have distinct variables, and a node that is computed as its declaration
says is in line with it. -/
structure Tidy (e : Engine) : Prop where
  distinct : e.tree.Distinct
  serves : ∀ n ∈ e.registry.nodes, ∀ spec ∈ e.tree.outputSpecs none,
    variableName spec.id = n.id → n.sameComputation (.ofSpec spec) = true → e.Serves n spec

/-- Each node is in line with a declaration. -/
def Serving (e : Engine) : Prop :=
  ∀ n ∈ e.registry.nodes, ∃ spec ∈ e.tree.outputSpecs none, e.Serves n spec

/-- It matters only what the field shows. -/
theorem Serves.congr (h : e.Serves n spec) (hlocale : e'.locale = e.locale)
    (hread : e'.tree.read n.field = e.tree.read n.field) : e'.Serves n spec := by
  refine ⟨h.field, h.format, h.autoApply, fun hv ha => ?_, fun text ht => ?_⟩
  · obtain ⟨text, hd, hr⟩ := h.shown hv ha
    exact ⟨text, hlocale ▸ hd, hread.trans hr⟩
  · exact hread.trans (h.written text ht)

/-! ## Storing a value -/

theorem outputSpecs_withValue (e : Engine) (n : OutputNode) (v : Value) :
    (e.withValue n v).tree.outputSpecs none = e.tree.outputSpecs none := by
  unfold withValue
  cases e.toWrite n v with
  | none => rfl
  | some text => exact FormTree.outputSpecs_of_shape (FormTree.shape_write _ _ _) none

/-- A node whose value is stored shows it. -/
theorem Serves.store (hp : e.tree.Proper) (hspec : spec ∈ e.tree.outputSpecs none) {v : Value}
    (hv : v.Displayable) (h : e.Serves n spec) :
    (e.withValue n v).Serves (n.store v (e.toWrite n v)) spec := by
  obtain ⟨text, htext⟩ := hv.display e.locale n.format
  have hfound : (e.tree.find? n.field).isSome = true := by
    obtain ⟨f, hf, -⟩ := (FormTree.mem_outputSpecs hp).mp hspec
    rw [h.field, hf]
    rfl
  unfold withValue
  cases hwrite : e.toWrite n v with
  | none =>
    refine ⟨h.field, h.format, h.autoApply, fun _ ha => ⟨text, htext, ?_⟩, fun t ht => ?_⟩
    -- Nothing is written although writing is wanted, so that the field shows the text already
    · have hkeep := shown_of_toWrite_none hwrite ha htext
      cases hw : n.lastWritten with
      | none =>
        rw [hw] at hkeep
        exact hkeep
      | some t =>
        rw [hw] at hkeep
        rw [← hkeep]
        exact h.written t hw
    · exact h.written t ht
  | some written =>
    have hread : (e.tree.write n.field written).read n.field = some written :=
      FormTree.read_write_self hfound
    refine ⟨h.field, h.format, h.autoApply,
      fun _ _ => ⟨written, (display_of_toWrite hwrite).2, hread⟩, fun t ht => ?_⟩
    cases ht
    exact hread

/-- A node that is in line stays so when a value is stored, its own or that of another one. -/
theorem serves_withValue (hc : Sound settings mode e) (hn : n ∈ e.registry.nodes) {v : Value}
    (hv : v.Displayable) {m' : OutputNode} (hm' : m' ∈ (e.withValue n v).registry.nodes) :
    ∃ m ∈ e.registry.nodes, m'.id = m.id ∧
      (∀ spec, m'.sameComputation (.ofSpec spec) = m.sameComputation (.ofSpec spec)) ∧
      ∀ spec ∈ e.tree.outputSpecs none, e.Serves m spec → (e.withValue n v).Serves m' spec := by
  obtain ⟨m, hm, rfl⟩ := Registry.mem_modify.mp hm'
  by_cases hid : m.id = n.id
  · obtain rfl : m = n := Registry.eq_of_mem hc.ids hm hn hid
    rw [if_pos (beq_self_eq_true _)]
    exact ⟨m, hm, rfl, fun _ => rfl, fun spec hspec h => h.store hc.tree hspec hv⟩
  · rw [if_neg (by simpa using hid)]
    refine ⟨m, hm, rfl, fun _ => rfl, fun spec _ h => h.congr rfl ?_⟩
    have hfield : m.field ≠ n.field := fun hf => hid <| by
      rw [(hc.nodes m hm).id_eq, (hc.nodes n hn).id_eq, hf]
    unfold withValue
    cases e.toWrite n v with
    | none => rfl
    | some text => exact FormTree.read_write_of_ne hfield

theorem Serving.withValue (h : e.Serving) (hc : Sound settings mode e)
    (hn : n ∈ e.registry.nodes) {v : Value} (hv : v.Displayable) : (e.withValue n v).Serving := by
  intro m' hm'
  obtain ⟨m, hm, -, -, hserves⟩ := serves_withValue hc hn hv hm'
  obtain ⟨spec, hspec, hm⟩ := h m hm
  exact ⟨spec, outputSpecs_withValue e n v ▸ hspec, hserves spec hspec hm⟩

/-! ## Reading the form again -/

/-- A node that is derived from a declaration is in line with it. -/
theorem Tidy.derives (h : e.Tidy) (hspec : spec ∈ e.tree.outputSpecs none)
    (hn : e.registry.Derives spec n) : e.Serves n spec := by
  cases hn with
  | fresh unknown serial => exact ⟨rfl, rfl, rfl, nofun, nofun⟩
  | redeclared m known =>
    obtain ⟨hmem, hid⟩ := Registry.mem_of_find? known
    obtain ⟨hformat, happly, hkept⟩ := m.redeclare_kept spec
    have hfield := m.redeclare_field spec
    rcases hkept with ⟨hsame, hresumes⟩ | hblank
    -- It is computed as before, so that it was in line before
    · have hserves := h.serves m hmem spec hspec hid.symm hsame
      refine ⟨hfield, hformat, happly, fun hv ha => ?_, fun text ht => ?_⟩
      · rw [hresumes.evaluated] at hv
        rw [happly, ← hserves.autoApply] at ha
        obtain ⟨text, hd, hr⟩ := hserves.shown hv ha
        refine ⟨text, ?_, ?_⟩
        · rw [hresumes.lastValue, hformat, ← hserves.format]
          exact hd
        · rw [hfield, ← hserves.field]
          exact hr
      · rw [hresumes.lastWritten] at ht
        rw [hfield, ← hserves.field]
        exact hserves.written text ht
    · refine ⟨hfield, hformat, happly, fun hv => ?_, fun text ht => ?_⟩
      · rw [hblank.evaluated] at hv
        cases hv
      · rw [hblank.lastWritten] at ht
        cases ht

theorem Serves.linked (h : e.Serves n spec) (linked : List String) :
    e.Serves { n with linked } spec :=
  ⟨h.field, h.format, h.autoApply, h.shown, h.written⟩

theorem Tidy.serving_rescan (h : e.Tidy) (hp : e.tree.Proper) : e.rescan.1.Serving := by
  intro n hn
  obtain ⟨m, spec, hspec, hderives, linked, rfl⟩ := derived_rescan hp h.distinct hn
  refine ⟨spec, tree_rescan e ▸ hspec, ((h.derives hspec hderives).linked linked).congr
    (locale_rescan e) ?_⟩
  rw [tree_rescan]

theorem Tidy.rescan (h : e.Tidy) (hp : e.tree.Proper) : e.rescan.1.Tidy := by
  refine ⟨tree_rescan e ▸ h.distinct, fun n hn spec hspec hid _ => ?_⟩
  rw [tree_rescan] at hspec
  obtain ⟨m, spec', hspec', hderives, linked, rfl⟩ := derived_rescan hp h.distinct hn
  have hsame : spec = spec' := h.distinct.eq hp hspec hspec' (hid.trans hderives.id_eq)
  subst hsame
  refine ((h.derives hspec hderives).linked linked).congr (locale_rescan e) ?_
  rw [tree_rescan]

/-! ## Changing the form -/

/-- An operation that edits no output. -/
def Spares (e : Engine) : Operation → Prop
  | .setValue name _ _ | .write name _ => ∀ spec ∈ e.tree.outputSpecs none, spec.id ≠ name
  | _ => True

/-- An operation that edits no output, and declares none under the variable of another one, nor in
the way in which its node is computed already. -/
def Permits (e : Engine) (op : Operation) : Prop :=
  e.Spares op ∧ match op with
    | .addOutput spec _ _ =>
      (∀ other ∈ e.tree.outputSpecs none, variableName other.id = variableName spec.id →
        other.id = spec.id) ∧
      ∀ n ∈ e.registry.nodes, n.id = variableName spec.id →
        n.sameComputation (.ofSpec spec) = false
    | _ => True

/-- What is declared behind an operation that edits no output was declared before and shows the same
text, or is declared by the operation. -/
theorem declared_change {op : Operation} (hp : e.tree.Proper) (hop : e.Spares op) {tree : FormTree}
    (ht : op.change e.tree = .ok tree) (hspec : spec ∈ tree.outputSpecs none) :
    (∃ value notify, op = .addOutput spec value notify) ∨
      spec ∈ e.tree.outputSpecs none ∧ tree.read spec.id = e.tree.read spec.id := by
  cases op with
  | addField name value scope notify =>
    obtain ⟨text, -, rfl⟩ := FormTree.addField_eq_ok.mp ht
    refine (FormTree.declared_put hp (fun _ h => ?_) hspec).imp_left fun h => ?_
    · cases h
    · cases h
  | addOutput spec' value notify =>
    obtain ⟨text, -, rfl⟩ := FormTree.addOutput_eq_ok.mp ht
    refine (FormTree.declared_put hp (fun _ h => ?_) hspec).imp_left fun h => ?_
    · cases h
      rfl
    · cases h
      exact ⟨value, notify, rfl⟩
  | removeField name notify => exact Or.inr (FormTree.declared_remove hp ht hspec)
  | setValue name value user =>
    rw [FormTree.outputSpecs_of_shape (FormTree.shape_setValue ht)] at hspec
    exact Or.inr ⟨hspec, FormTree.read_setValue_of_ne ht (hop spec hspec)⟩
  | write name text =>
    cases ht
    rw [FormTree.outputSpecs_of_shape (FormTree.shape_write _ _ _)] at hspec
    exact Or.inr ⟨hspec, FormTree.read_write_of_ne (hop spec hspec)⟩
  | _ =>
    cases ht
    exact Or.inr ⟨hspec, rfl⟩

theorem Tidy.change (h : e.Tidy) (hp : e.tree.Proper) {op : Operation} (hop : e.Permits op)
    {tree : FormTree} (ht : op.change e.tree = .ok tree) : Tidy { e with tree } := by
  have hdeclared : ∀ spec ∈ tree.outputSpecs none, _ := fun spec => declared_change hp hop.1 ht
  refine ⟨fun spec hspec other hother hid => ?_, fun n hn spec hspec hid hsame => ?_⟩
  · rcases hdeclared spec hspec with ⟨value, notify, rfl⟩ | ⟨hspec', -⟩
    · rcases hdeclared other hother with ⟨value', notify', heq⟩ | ⟨hother', -⟩
      · cases heq
        rfl
      · exact (hop.2.1 other hother' hid.symm).symm
    · rcases hdeclared other hother with ⟨value, notify, rfl⟩ | ⟨hother', -⟩
      · exact hop.2.1 spec hspec' hid
      · exact h.distinct spec hspec' other hother' hid
  · rcases hdeclared spec hspec with ⟨value, notify, rfl⟩ | ⟨hspec', hread⟩
    · rw [hop.2.2 n hn hid.symm] at hsame
      cases hsame
    · have hserves := h.serves n hn spec hspec' hid hsame
      refine hserves.congr rfl ?_
      rw [hserves.field]
      exact hread

/-! ## Any careful use -/

theorem Tidy.congr (h : e.Tidy) (hsettings : e'.settings = e.settings)
    (hfields : e'.tree.fields = e.tree.fields) (hregistry : e'.registry = e.registry) :
    e'.Tidy := by
  have hspecs : e'.tree.outputSpecs none = e.tree.outputSpecs none := by
    rw [FormTree.outputSpecs, hfields]
    rfl
  refine ⟨?_, fun n hn spec hspec hid hsame => ?_⟩
  · unfold FormTree.Distinct
    rw [hspecs]
    exact h.distinct
  · refine (h.serves n (hregistry ▸ hn) spec (hspecs ▸ hspec) hid hsame).congr ?_ ?_
    · rw [locale, hsettings]
      rfl
    · rw [FormTree.read, FormTree.find?, hfields]
      rfl

theorem lasts_tidy : Lasts settings mode Tidy where
  congr h hholdings := by
    simp only [holdings, Prod.mk.injEq] at hholdings
    exact h.congr hholdings.1 hholdings.2.1 hholdings.2.2.1
  rescan hc h := h.rescan hc.tree
  withValue {e n v} hc hn hv h := by
    have hspecs := outputSpecs_withValue e n v
    refine ⟨?_, fun n' hn' spec hspec hid hsame => ?_⟩
    · unfold FormTree.Distinct
      rw [hspecs]
      exact h.distinct
    · obtain ⟨m, hm, hmid, hcomputation, hserves⟩ := serves_withValue hc hn hv hn'
      rw [hspecs] at hspec
      have hshown := h.serves m hm spec hspec (hid.trans hmid) (hcomputation spec ▸ hsame)
      exact hserves spec hspec hshown
  bound name h := by
    rcases bound_cases _ name with heq | ⟨rows, -, heq⟩ | heq
    · exact heq.symm ▸ h
    · exact heq.symm ▸ h.congr rfl rfl rfl
    · exact heq.symm ▸ h.congr rfl rfl rfl

theorem tidy_of_used {c : Running} (h : Used settings mode FormTree.Distinct Permits c) :
    c.state.Tidy :=
  lasts_tidy.used (fun _ _ _ hd => ⟨hd, fun _ hn => absurd hn List.not_mem_nil⟩)
    (fun hc ht hop hchange => ht.change hc.tree hop hchange) h

/-! ## Recomputing -/

theorem Serving.congr (h : e.Serving) (hholdings : e'.holdings = e.holdings) : e'.Serving := by
  have hread := read_of_holdings hholdings
  simp only [holdings, Prod.mk.injEq] at hholdings
  obtain ⟨hsettings, hfields, hregistry, -⟩ := hholdings
  intro n hn
  obtain ⟨spec, hspec, hserves⟩ := h n (hregistry ▸ hn)
  refine ⟨spec, ?_, hserves.congr ?_ (congrFun hread n.field)⟩
  · rw [FormTree.outputSpecs, hfields]
    exact hspec
  · rw [locale, hsettings]
    rfl

/-- A node that had its turn was evaluated. -/
theorem Turn.evaluated {e₀ : Engine} {done : List String} {entry : QueueEntry}
    (h : Turn settings e₀ done e entry n) (hu : Updated e entry e') {m : OutputNode}
    (hm : e'.registry.find? n.id = some m) : m.evaluated = true := by
  obtain ⟨hmem, hid⟩ := h.mem
  have hfound : e.registry.find? n.id = some n := Registry.find?_of_mem h.coherent.ids hmem
  obtain ⟨v, -, ⟨hout, hholdings⟩ | ⟨-, hholdings⟩⟩ := hu.holdings h.fate
  -- Its first value is kept out only if it repeats another one
  · simp only [holdings, Prod.mk.injEq] at hholdings
    rw [hholdings.2.2.1, hfound] at hm
    cases hm
    rw [accepts_of_first h.first, Bool.not_eq_false', Bool.and_eq_true] at hout
    exact hout.1
  · simp only [holdings, Prod.mk.injEq] at hholdings
    rw [hholdings.2.2.1] at hm
    rw [find?_withValue_self hfound] at hm
    cases hm
    rfl

/-- The nodes that a sweep is done with are evaluated. -/
theorem keeps_evaluated (e₀ : Engine) : Keeps settings e₀ fun done e =>
    ∀ id ∈ done, e₀.skips id = false → ∀ n, e.registry.find? id = some n → n.evaluated = true where
  congr _ _ hholdings h := by
    simp only [holdings, Prod.mk.injEq] at hholdings
    rw [hholdings.2.2.1]
    exact h
  skip hskip h id hid hskip' := by
    rcases List.mem_append.mp hid with hid | hid
    · exact h id hid hskip'
    · rw [List.mem_singleton.mp hid, hskip] at hskip'
      cases hskip'
  turn {done e entry n e'} hturn hu h id hdone hskip m hm := by
    rcases List.mem_append.mp hdone with hdone | hdone
    · rw [hu.find? (hturn.mem.2 ▸ (hturn.unread id hdone).1)] at hm
      exact h id hdone hskip m hm
    · rw [List.mem_singleton.mp hdone] at hm
      exact hturn.evaluated hu hm

/-- A sweep keeps the nodes in line. -/
theorem keeps_serving (e₀ : Engine) : Keeps settings e₀ fun _ e => e.Serving where
  congr _ _ hholdings h := h.congr hholdings
  skip _ h := h
  turn hturn hu h := by
    obtain ⟨v, hv, ⟨-, hholdings⟩ | ⟨-, hholdings⟩⟩ := hu.holdings hturn.fate
    · exact h.congr hholdings
    · exact (h.withValue hturn.coherent.toSound hturn.mem.1
        (displayable_of_computed hv)).congr hholdings

/-- Where no output was edited, and none was declared again in the way in which it was computed
already, a recompute that can read the form leaves every output showing its last value in its
declared format, unless it is left alone while it is edited or its value is not to be written. -/
theorem recompute_shows {place : String} {entries : List (String × Data)}
    (hsettings : Settings.ofEntries place entries = .ok settings)
    (hmost : settings.historySize ≤ ConvergenceDetector.maxHistory)
    {answer : Engine → Ask → Reply Response EngineError} {r : Reply Response EngineError}
    (used : Used settings .immediate FormTree.Distinct Permits ⟨e, [], r⟩)
    (idle : e.phase ≠ .evaluating) (orderly : Orderly settings e.rescan.1) (readable : e.Readable)
    (calm : Calm answer (after [] (e.recompute none))) :
    ∃ us e' r', Runs (among answer) updates (after [] (e.recompute none)) us
        ⟨e', [], .returned r'⟩ ∧
      ∀ n ∈ e'.registry.nodes, ∃ spec ∈ e'.tree.outputSpecs none, n.field = spec.id ∧
        (spec.autoApply = true → e'.shouldSkip n = false →
          ∃ text, (n.lastValue.display e'.locale spec.format).1 = .ok text ∧
            e'.tree.read n.field = some text) := by
  have hs := Settings.inRange_of_ofEntries hsettings
  obtain ⟨hc, -⟩ := steady_of_reachable used.reachable
  have hq := (quiet_of_reachable used.reachable idle).congr (progress_rescan e)
  have htidy : e.Tidy := tidy_of_used used
  obtain ⟨us, e', ns, hruns, -, hswept, -, hserving, hevaluated⟩ := runs_sweep hs hmost hc readable
    hq idle orderly ((keeps_serving _).and (keeps_evaluated _))
    ⟨htidy.serving_rescan hc.tree, fun id hid => absurd hid List.not_mem_nil⟩ calm
  refine ⟨us, e'.finished ns, default, hruns, fun n hn => ?_⟩
  have hc' := hswept.underway.coherent
  obtain ⟨spec, hspec, hserves⟩ := hserving n hn
  refine ⟨spec, hspec, hserves.field, fun happly hskip => ?_⟩
  have hfound : e'.registry.find? n.id = some n := Registry.find?_of_mem hc'.ids hn
  have hmem : n.id ∈ e.rescan.1.links.order := by
    rw [(hc.coherent_rescan readable).order_perm.mem_iff, ← ids_of_layout hswept.layout]
    exact List.mem_map_of_mem hn
  have hskips : ({ e.rescan.1 with scope := none } : Engine).skips n.id = false := by
    rw [← skips_congr hswept.layout, skips, hfound]
    exact hskip
  obtain ⟨text, hd, hr⟩ := hserves.shown (hevaluated n.id hmem hskips n hfound)
    (hserves.autoApply.trans happly)
  refine ⟨text, ?_, hr⟩
  rw [← hserves.format]
  exact hd

/-- A field and an output that shows it. -/
def shownTree : FormTree :=
  (({} : FormTree).withField "x" "5" "").withOutput { id := "a", expression := "x" } ""

theorem proper_shownTree : shownTree.Proper :=
  ((FormTree.proper_empty false).withField _ _ _).withOutput _ _

theorem distinct_shownTree : shownTree.Distinct := by decide +kernel

/-- The configuration when an engine was attached to it. -/
def attachedShown : Running :=
  (among fun _ _ => .returned default).run 100
    (after [] ((Engine.create shownTree {} .immediate false).perform (.attach true)))

/-- The configuration when the output was declared again, with this expression and format. -/
def redeclared (expression : String) (format : Option String) : Running :=
  (among fun _ _ => .returned default).run 100 (after [] (attachedShown.state.perform
    (.addOutput { id := "a", expression, format } .absent true)))

theorem attachedShown_ends :
    attachedShown.stack.isEmpty = true ∧ attachedShown.reply = .returned default := by
  decide +kernel

theorem redeclared_ends :
    (redeclared "x + 1" (some "percent")).stack.isEmpty = true ∧
      (redeclared "x + 1" (some "percent")).reply = .returned default ∧
      (redeclared "x" none).stack.isEmpty = true ∧
      (redeclared "x" none).reply = .returned default := by
  decide +kernel

theorem used_attachedShown (permits : Engine → Operation → Prop)
    (h : permits (Engine.create shownTree {} .immediate false) (.attach true)) :
    Used {} .immediate FormTree.Distinct permits
      ⟨attachedShown.state, [], .returned default⟩ := by
  obtain ⟨hstack, hreply⟩ := attachedShown_ends
  exact (Used.perform (.create proper_shownTree distinct_shownTree false) h).runs
    (.ended hstack hreply)

/-- An output that is declared in another way and format shows its new value. -/
theorem recompute_shows_redeclared :
    ∃ us e' r', Runs (among fun _ _ => .returned default) updates
        (after [] ((redeclared "x + 1" (some "percent")).state.recompute none)) us
        ⟨e', [], .returned r'⟩ ∧
      ∀ n ∈ e'.registry.nodes, ∃ spec ∈ e'.tree.outputSpecs none, n.field = spec.id ∧
        (spec.autoApply = true → e'.shouldSkip n = false →
          ∃ text, (n.lastValue.display e'.locale spec.format).1 = .ok text ∧
            e'.tree.read n.field = some text) := by
  have hsettings : Settings.ofEntries "" [] = .ok {} := rfl
  obtain ⟨hstack, hreply, -, -⟩ := redeclared_ends
  have hpermits : Permits attachedShown.state
      (.addOutput { id := "a", expression := "x + 1", format := some "percent" } .absent true) :=
    ⟨trivial, by decide +kernel⟩
  have hused : Used {} .immediate FormTree.Distinct Permits
      ⟨(redeclared "x + 1" (some "percent")).state, [], .returned default⟩ :=
    ((used_attachedShown Permits ⟨trivial, trivial⟩).perform hpermits).runs (.ended hstack hreply)
  have horderly : Orderly {} (redeclared "x + 1" (some "percent")).state.rescan.1 := by
    refine ⟨Dependencies.acyclic_of_rank (fun _ => 0) ?_, ?_⟩
    · decide +kernel
    · decide +kernel
  have hcalm : endsSmoothly (fun _ _ => .returned default) 100
      (after [] ((redeclared "x + 1" (some "percent")).state.recompute none)) = true := by
    decide +kernel
  exact recompute_shows hsettings (by decide) hused (by decide +kernel) horderly
    (by decide +kernel) (calm_of_endsSmoothly hcalm)

/-- An output that is declared again as it was stays blank: its value is not new, so that it is not
written to the field that has taken the place of the old one. -/
theorem recompute_blank :
    ∃ entries settings e r, Settings.ofEntries "" entries = .ok settings ∧
      settings.historySize ≤ ConvergenceDetector.maxHistory ∧
      Used settings .immediate FormTree.Distinct Spares ⟨e, [], r⟩ ∧ e.phase = .idle ∧
      Orderly settings e.rescan.1 ∧
      Calm (fun _ _ => .returned default) (after [] (e.recompute none)) ∧
      ∃ us e', Runs (among fun _ _ => .returned default) updates (after [] (e.recompute none)) us
          ⟨e', [], .returned default⟩ ∧ e'.phase = .idle ∧
        ∃ n ∈ e'.registry.nodes, ∃ spec ∈ e'.tree.outputSpecs none, n.field = spec.id ∧
          spec.autoApply = true ∧ e'.shouldSkip n = false ∧
          (n.lastValue.display e'.locale spec.format).1 = .ok "5" ∧
          e'.tree.read n.field = some "" := by
  obtain ⟨-, -, hstack, hreply⟩ := redeclared_ends
  have hspares : Spares attachedShown.state
      (.addOutput { id := "a", expression := "x", format := none } .absent true) := trivial
  have hused : Used {} .immediate FormTree.Distinct Spares
      ⟨(redeclared "x" none).state, [], .returned default⟩ :=
    ((used_attachedShown Spares trivial).perform hspares).runs (.ended hstack hreply)
  have horderly : Orderly {} (redeclared "x" none).state.rescan.1 := by
    refine ⟨Dependencies.acyclic_of_rank (fun _ => 0) ?_, ?_⟩
    · decide +kernel
    · decide +kernel
  have hcalm : endsSmoothly (fun _ _ => .returned default) 100
      (after [] ((redeclared "x" none).state.recompute none)) = true := by
    decide +kernel
  refine ⟨[], {}, _, _, rfl, by decide, hused, by decide +kernel, horderly,
    calm_of_endsSmoothly hcalm, _, _, .ended (n := 100) ?_ ?_, ?_⟩
  · decide +kernel
  · decide +kernel
  · decide +kernel

end Engine

end LiveForm
