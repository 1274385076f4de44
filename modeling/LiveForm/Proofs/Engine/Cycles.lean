import LiveForm.Proofs.Engine.Legible
import LiveForm.Proofs.Engine.Termination

/-!
# Cycles that begin when the engine is idle

A recompute and the change of a field schedule some nodes and begin a drain.  From an idle engine
the drain ends, and it leaves an idle engine.
-/

namespace LiveForm.Engine

open Machine (after Runs)

variable {settings : Settings} {e : Engine} {base : List (Activity Frame Ask)} {c : Running}
  {answer : Engine → Ask → Reply Response EngineError}

/-! ## Recomputing -/

/-- The nodes in order that lie in a scope. -/
def inOrder (e : Engine) (scope : Option String) : List String :=
  e.links.order.filter fun id => (e.registry.find? id).any fun n => inScope n.scope scope

/-- A recompute reads the form again and lets the nodes in the scope wait, in order. -/
theorem recompute_eq {mode : YieldMode} (hc : Sound settings mode e) (hr : e.Readable)
    (scope : Option String) :
    e.recompute scope =
      (e.rescan.1.schedule (e.rescan.1.inOrder scope) .normal none scope).drain := by
  have hc' := hc.coherent_rescan hr
  obtain ⟨diff, hok⟩ := hr.rescan_ok
  unfold recompute
  rw [hok]
  dsimp only
  generalize e.rescan.1 = e₁ at hc' ⊢
  rw [mapM_eq_ok (g := fun id =>
    if (e₁.registry.find? id).any fun n => inScope n.scope scope then [id] else []) fun id hid => by
      obtain ⟨n, hn⟩ := Option.isSome_iff_exists.mp (hc'.contains_of_mem_order hid)
      rw [node, hn]
      rfl]
  dsimp only
  congr 2
  unfold inOrder
  induction e₁.links.order with
  | nil => rfl
  | cons id ids ih =>
    rw [List.map_cons, List.flatten_cons, List.filter_cons, ih]
    split
    · rfl
    · rfl

/-- Where the form cannot be read nothing is computed. -/
theorem recompute_of_not_readable (hn : ¬ e.Readable) (scope : Option String) :
    e.recompute scope = .fail e.rescan.1 .tooManyDigits := by
  unfold recompute
  rw [rescan_of_not_readable hn]

theorem perform_attach (e : Engine) :
    e.perform (.attach true) = ({ e with attached := true } : Engine).recompute none := rfl

/-- What an engine reads does not depend on whether it listens. -/
theorem rescan_attached (e : Engine) :
    ({ e with attached := true } : Engine).rescan.1 = { e.rescan.1 with attached := true } := by
  have hreread : ({ e with attached := true } : Engine).reread.bindings = e.reread.bindings := rfl
  rw [rescan_eq, rescan_eq, hreread]
  cases rowIndices (e.reread.bindings.map Prod.snd) with
  | error err => rfl
  | ok rows => rfl

/-- To attach an engine is to read the form, if nothing is computed then. -/
theorem perform_attach_of_readable (hr : e.Readable) :
    e.perform (.attach false) = ({ e with attached := true } : Engine).rescan.1.finish := by
  have hr' : ({ e with attached := true } : Engine).Readable := hr
  obtain ⟨diff, hok⟩ := hr'.rescan_ok
  unfold perform
  dsimp only
  rw [if_neg Bool.false_ne_true, hok]

/-- An engine whose form cannot be read is attached, and that is all. -/
theorem perform_attach_of_not_readable (hn : ¬ e.Readable) (compute : Bool) :
    e.perform (.attach compute) =
      .fail ({ e with attached := true } : Engine).rescan.1 .tooManyDigits := by
  have hn' : ¬ ({ e with attached := true } : Engine).Readable := hn
  cases compute with
  | true => exact recompute_of_not_readable hn' none
  | false =>
    unfold perform
    dsimp only
    rw [if_neg Bool.false_ne_true, rescan_of_not_readable hn']

/-! ## Where cycles begin -/

/-- The operation changes a field. -/
def Operation.changesField : Operation → Bool
  | .notifyInput .. | .setValue .. | .write .. => true
  | _ => false

/-- A drain begins in an idle engine with an immediate yield point: because of a recompute, because
of the change of a field that is handled at once, or because of one that is handled when its timer
fires.  A recompute can read the form; before a change of a field, the nodes are linked as they are
where the latest reading of the form did not break off.  What is on the stack then, below the drain,
is put first. -/
inductive Starts (settings : Settings) : List (Activity Frame Ask) → Running → Prop where
  | recompute {e : Engine} {r : Reply Response EngineError}
    (reachable : Reachable settings .immediate ⟨e, [], r⟩) (idle : e.phase ≠ .evaluating)
    (readable : e.Readable) (scope : Option String) :
    Starts settings [] (after [] (e.recompute scope))
  | edit {e : Engine} {r : Reply Response EngineError} {op : Operation}
    (reachable : Reachable settings .immediate ⟨e, [], r⟩) (idle : e.phase ≠ .evaluating)
    (linked : e.Linked) (change : op.changesField = true)
    (handled : (after [] (e.perform op)).stack ≠ []) : Starts settings [] (after [] (e.perform op))
  | timer {e : Engine} {v : String} {below : List (Activity Frame Ask)} {r : Response}
    (reachable : Reachable settings .immediate ⟨e, .own (.handle (.input v)) :: below, .returned r⟩)
    (idle : e.phase ≠ .evaluating) (linked : e.Linked) (clock : ∀ f ∈ below, isClock f = true) :
    Starts settings below ⟨e, .own (.handle (.input v)) :: below, .returned r⟩

/-- A change that is handled at once. -/
theorem exists_of_settle {t : Trigger} {delay : Binary64}
    (h : (after [] (e.settle t delay)).stack ≠ []) : e.settle t delay = e.handle t := by
  unfold settle at h ⊢
  split
  · next hd =>
    rw [if_pos hd] at h
    exact absurd rfl h
  · rfl

/-- What a cycle begins with: a quiet engine that schedules some nodes. -/
structure Scheduling (settings : Settings) (m : Move) (e : Engine) (ids : List String)
    (priority : Priority) (source scope : Option String) : Prop where
  sound : Sound settings .immediate e
  quiet : e.Quiet
  idle : e.phase ≠ .evaluating
  eq : m = (e.schedule ids priority source scope).drain

theorem scheduling_notifyInput (hc : Sound settings .immediate e) (hq : e.Quiet)
    (hidle : e.phase ≠ .evaluating) {name : String} {user : Bool}
    (h : (after [] (e.notifyInput name user)).stack ≠ []) :
    ∃ e₁ ids priority source,
      Scheduling settings (e.notifyInput name user) e₁ ids priority source none ∧
        (e.Linked → e₁.Linked) := by
  rw [notifyInput_eq hc.writing] at h ⊢
  have hp := (progress_edited (e.bound name) name user).trans (progress_bound e name)
  have hphase : ((e.bound name).edited name user).phase = e.phase := congrArg (·.2.1) hp
  split at h
  · exact absurd rfl h
  · have hc' := (hc.bound name).congr (core_edited _ name user)
    exact ⟨_, _, _, _, ⟨hc', hq.congr hp, hphase ▸ hidle, exists_of_settle h⟩,
      fun hl => (hl.bound name).edited name user⟩

theorem scheduling_changeTree (hc : Sound settings .immediate e) (hq : e.Quiet)
    (hidle : e.phase ≠ .evaluating) {change : Except TreeError FormTree}
    (ht : ∀ tree, change = .ok tree → tree.Proper) {name : String} {user notify : Bool}
    (h : (after [] (e.changeTree change (.input name user) notify)).stack ≠ []) :
    ∃ e₁ ids priority source, Scheduling settings
      (e.changeTree change (.input name user) notify) e₁ ids priority source none ∧
        (e.Linked → e₁.Linked) := by
  unfold changeTree deliver at h ⊢
  split
  · exact absurd rfl h
  · next tree =>
    dsimp only at h ⊢
    split at h
    · split at h
      · next hn ha =>
        rw [if_pos hn, if_pos ha]
        obtain ⟨e₁, ids, priority, source, hs, hlinks⟩ :=
          scheduling_notifyInput (hc.withTree (ht tree rfl)) (hq.congr rfl) hidle h
        exact ⟨e₁, ids, priority, source, hs, fun hl => hlinks (hl.congr rfl rfl)⟩
      · exact absurd rfl h
    · exact absurd rfl h

/-- The change of a field that is handled at once begins a cycle of the whole form. -/
theorem scheduling_edit (hc : Sound settings .immediate e) (hq : e.Quiet)
    (hidle : e.phase ≠ .evaluating) {op : Operation} (change : op.changesField = true)
    (handled : (after [] (e.perform op)).stack ≠ []) :
    ∃ e₁ ids priority source, Scheduling settings (e.perform op) e₁ ids priority source none ∧
      (e.Linked → e₁.Linked) := by
  cases op with
  | notifyInput name user => exact scheduling_notifyInput hc hq hidle handled
  | setValue name value user =>
    exact scheduling_changeTree hc hq hidle (fun _ ht => hc.tree.setValue ht) handled
  | write name text =>
    exact scheduling_changeTree hc hq hidle (fun _ ht => Except.ok.inj ht ▸ hc.tree.write _ _)
      handled
  | _ => cases change

theorem Starts.scheduling (h : Starts settings base c)
    (answer : Engine → Ask → Reply Response EngineError) :
    ∃ m e ids priority source scope, Scheduling settings m e ids priority source scope ∧
      e.Linked ∧ Runs (among answer) updates c [] (after base m) := by
  cases h with
  | @recompute e r reachable idle hr scope =>
    obtain ⟨hc, -⟩ := steady_of_reachable reachable
    have hq := (quiet_of_reachable reachable idle).congr (progress_rescan e)
    exact ⟨_, _, _, _, _, _,
      ⟨hc.rescan, hq, phase_rescan e ▸ idle, recompute_eq hc hr scope⟩, linked_rescan hr, .refl _⟩
  | @edit e r op reachable idle linked change handled =>
    obtain ⟨hc, -⟩ := steady_of_reachable reachable
    have hq := quiet_of_reachable reachable idle
    obtain ⟨e₁, ids, priority, source, hs, hlinks⟩ := scheduling_edit hc hq idle change handled
    exact ⟨_, _, _, _, _, _, hs, hlinks linked, .refl _⟩
  | @timer e v below r reachable idle linked clock =>
    obtain ⟨hc, -⟩ := steady_of_reachable reachable
    have hq := quiet_of_clock reachable clock idle
    exact ⟨_, _, _, _, _, _, ⟨hc, hq, idle, rfl⟩, linked, runs_own rfl (.refl _)⟩

/-- Every drain that begins in an idle engine ends, no matter whether the outputs depend on each
other in circles: no node is evaluated more often than it has passes, no update begins when the
cycle was broken off, and the engine is idle again. -/
theorem drain_ends {place : String} {entries : List (String × Data)}
    (hsettings : Settings.ofEntries place entries = .ok settings)
    (hmost : settings.historySize ≤ ConvergenceDetector.maxHistory)
    (start : Starts settings base c) (calm : Calm answer c) :
    ∃ us e r, Runs (among answer) updates c us ⟨e, base, .returned r⟩ ∧
      (∀ id, ((us.filterMap Update.evaluated?).count id : Int) ≤ settings.maxPasses) ∧
      (∀ u ∈ us, u.engine.halted = false) ∧
      e.Quiet ∧ e.passes = [] ∧ (e.phase = .idle ∨ e.phase = .queued) := by
  have hs := Settings.inRange_of_ofEntries hsettings
  obtain ⟨m, e₁, ids, priority, source, scope, ⟨hsound, hq, -, rfl⟩, hlinked, hstart⟩ :=
    start.scheduling answer
  have hc : Coherent settings .immediate e₁ := ⟨hsound, hlinked⟩
  obtain ⟨us, e, ns, hd, hu, hr⟩ := runs_cycle hs hmost hc hq (calm.runs hstart)
  have hunderway := underway_schedule hc hq ids priority source scope
  refine ⟨us, e.finished ns, default, hstart.trans hr, fun id => ?_, hd.running hunderway.taken,
    hd.quiet hu ns, rfl, ?_⟩
  · have hcount := hd.count_evaluated id
    have hmax := hs.counts .maxPasses (by decide)
    have hsame : (e₁.schedule ids priority source scope).begun.taken.settings = settings :=
      hunderway.taken.coherent.ofSettings
    rw [passesLeft, hsame] at hcount
    have hmax' : 1 ≤ settings.maxPasses := hmax
    omega
  · show (if e.rests then Phase.queued else .idle) = _ ∨
      (if e.rests then Phase.queued else .idle) = _
    split
    · exact Or.inr rfl
    · exact Or.inl rfl

/-- Two outputs that read each other. -/
def circularTree : FormTree :=
  (({} : FormTree).withOutput { id := "a", expression := "b + 1" } "").withOutput
    { id := "b", expression := "a + 1" } ""

theorem proper_circularTree : circularTree.Proper :=
  ((FormTree.proper_empty false).withOutput _ _).withOutput _ _

/-- Two outputs that read each other go on until their passes are used up. -/
theorem drain_ends_circular :
    ∃ us e r, Runs (among fun _ _ => .raised .notManual) updates
        (after [] ((Engine.create circularTree {} .immediate false).recompute none)) us
        ⟨e, [], .returned r⟩ ∧
      (∀ id, ((us.filterMap Update.evaluated?).count id : Int) ≤ 3) ∧
      (∀ u ∈ us, u.engine.halted = false) ∧
      e.Quiet ∧ e.passes = [] ∧ (e.phase = .idle ∨ e.phase = .queued) := by
  have hsettings : Settings.ofEntries "" [] = .ok {} := rfl
  have hcalm : endsSmoothly (fun _ _ => .raised .notManual) 100
      (after [] ((Engine.create circularTree {} .immediate false).recompute none)) = true := by
    decide +kernel
  have hidle : (Engine.create circularTree {} .immediate false).phase ≠ .evaluating :=
    show Phase.idle ≠ .evaluating by decide
  exact drain_ends hsettings (by decide)
    (.recompute (.create proper_circularTree false) hidle (by decide +kernel) none)
    (calm_of_endsSmoothly hcalm)

/-- An output that shows a field. -/
def copyTree : FormTree :=
  (({} : FormTree).withField "x" "0" "").withOutput { id := "a", expression := "x" } ""

theorem proper_copyTree : copyTree.Proper :=
  ((FormTree.proper_empty false).withField _ _ _).withOutput _ _

/-- A number of values to remember that is accepted though it is too large. -/
def excessive : Settings := Settings.setCount {} .historySize 9223372036854775808

theorem ofEntries_excessive : Settings.ofEntries ""
    [("history_size", .scalar (.integer 9223372036854775808))] = .ok excessive :=
  Settings.ofEntries_count (by decide +kernel) (by decide)

/-- A field, an output that shows it, and one that shows that. -/
def relayTree : FormTree :=
  ((({} : FormTree).withField "x" "1" "").withOutput { id := "a", expression := "x" } "").withOutput
    { id := "b", expression := "a" } ""

theorem proper_relayTree : relayTree.Proper :=
  (((FormTree.proper_empty false).withField _ _ _).withOutput _ _).withOutput _ _

/-- The engine was attached to them. -/
def attachedRelay : Running :=
  (among fun _ _ => .returned default).run 60
    (after [] ((Engine.create relayTree {} .immediate false).perform (.attach true)))

/-- The last output was taken away, of which the engine was not told. -/
def shortenedRelay : Running :=
  after [] (attachedRelay.state.perform (.removeField "b" false))

/-- Then a field was added whose name cannot be read, and reading the form broke off there. -/
def brokenRelay : Engine := shortenedRelay.state.halfRead [("x", "x"), ("a", "a")]

theorem reachable_shortenedRelay : Reachable {} .immediate shortenedRelay := by
  have hattached : Reachable {} .immediate attachedRelay :=
    (Reachable.perform (.create proper_relayTree false) (.attach true)).run _ 60
  have hstack : attachedRelay.stack = [] := List.isEmpty_iff.mp (by decide +kernel)
  have hattached' : Reachable {} .immediate ⟨attachedRelay.state, [], attachedRelay.reply⟩ :=
    hstack ▸ hattached
  exact hattached'.perform _

theorem plain_shortenedRelay :
    (∀ name ∈ shortenedRelay.state.tree.fields.map (·.1),
      (variableName name).toList.head? ≠ some 'r') ∧
    ((shortenedRelay.state.tree.fields.map (·.1)).map variableName).Nodup := by
  decide +kernel

theorem reachable_brokenRelay :
    Reachable {} .immediate ⟨brokenRelay, [], .raised .tooManyDigits⟩ := by
  obtain ⟨hplain, hnames⟩ := plain_shortenedRelay
  obtain ⟨hc, -⟩ := steady_of_reachable reachable_shortenedRelay
  have hstack : shortenedRelay.stack = [] := List.isEmpty_iff.mp (by decide +kernel)
  have hshortened : Reachable {} .immediate ⟨shortenedRelay.state, [], shortenedRelay.reply⟩ :=
    hstack ▸ reachable_shortenedRelay
  have hspoilt := hshortened.perform (.addField overlong (.text "") "" false)
  rw [perform_addField_overlong] at hspoilt
  have hbroken := Reachable.perform (e := shortenedRelay.state.spoilt) hspoilt .rescan
  have hbindings : (shortenedRelay.state.tree.fields.map (·.1)).map
      (fun name => (variableName name, name)) = [("x", "x"), ("a", "a")] := by
    decide +kernel
  rw [perform_rescan_of_not_readable (not_readable_spoilt hplain hc.tree hnames),
    rescan_spoilt hplain hc.tree hnames, hbindings] at hbroken
  exact hbroken

/-- A drain need not end well, and the engine goes on to be in the middle of it: with more values to
remember than can be the first evaluation breaks it off, and so does a node that a reading of the
form has let go of, when that reading broke off before the links were made anew. -/
theorem drain_fails :
    (∃ entries settings c, Settings.ofEntries "" entries = .ok settings ∧ Starts settings [] c ∧
      Calm (fun _ _ => .returned default) c ∧
      ((among fun _ _ => .returned default).run 40 c).stack.isEmpty = true ∧
      ((among fun _ _ => .returned default).run 40 c).reply = .raised .historyTooLong ∧
      ((among fun _ _ => .returned default).run 40 c).state.phase = .evaluating) ∧
    ∃ e r c, Reachable {} .immediate ⟨e, [], r⟩ ∧ e.phase = .idle ∧
      c = after [] (e.perform (.setValue "x" (.text "2") true)) ∧
      Calm (fun _ _ => .returned default) c ∧
      ((among fun _ _ => .returned default).run 40 c).stack.isEmpty = true ∧
      ((among fun _ _ => .returned default).run 40 c).reply = .raised (.unknownNode "b") ∧
      ((among fun _ _ => .returned default).run 40 c).state.phase = .evaluating ∧
      ((among fun _ _ => .returned default).run 40 c).state.passes = [("a", 1)] := by
  have hidle : (Engine.create copyTree excessive .immediate false).phase ≠ .evaluating :=
    show Phase.idle ≠ .evaluating by decide
  have hcalm : endsSmoothly (fun _ _ => .returned default) 40
      (after [] ((Engine.create copyTree excessive .immediate false).recompute none)) = true := by
    decide +kernel
  have hcalm' : endsSmoothly (fun _ _ => .returned default) 40
      (after [] (brokenRelay.perform (.setValue "x" (.text "2") true))) = true := by
    decide +kernel
  refine ⟨⟨_, excessive, _, ofEntries_excessive,
    .recompute (.create proper_copyTree false) hidle (by decide +kernel) none,
    calm_of_endsSmoothly hcalm, ?_⟩,
    brokenRelay, _, _, reachable_brokenRelay, ?_, rfl, calm_of_endsSmoothly hcalm', ?_⟩
  · decide +kernel
  · decide +kernel
  · decide +kernel

end LiveForm.Engine
