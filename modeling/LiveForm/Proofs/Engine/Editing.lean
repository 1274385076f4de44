import LiveForm.Proofs.Engine.Chances

/-!
# Edits

An engine that listens to its form handles an edit by a drain that begins with the nodes that read
the field.  After any number of edits each output is up to date, unless it lost its latest chance.
-/

namespace LiveForm.Engine

open Machine (after Runs)

variable {settings : Settings} {mode : YieldMode} {e e' : Engine} {us vs : List Update}
  {answer : Engine → Ask → Reply Response EngineError}

/-! ## Engines that listen -/

/-- An engine that listens to a form all of whose fields it knows, and handles changes at once. -/
structure Attentive (settings : Settings) (e : Engine) : Prop extends Eager settings e where
  attached : e.attached = true
  untimed : e.debounces = false
  bound : ∀ name ∈ e.tree.fields.map (·.1), e.bindings.any (·.1 == variableName name) = true

theorem Attentive.congr (h : Attentive settings e) (hl : e'.layout = e.layout) :
    Attentive settings e' := by
  refine ⟨h.toEager.congr hl, ?_, ?_, ?_⟩
  · exact (congrArg Layout.attached hl).trans h.attached
  · exact (congrArg Layout.debounces hl).trans h.untimed
  · show ∀ name ∈ e'.layout.names, e'.layout.bindings.any (·.1 == variableName name) = true
    rw [hl]
    exact h.bound

/-- An engine that is idle and listens. -/
structure Listening (settings : Settings) (e : Engine) : Prop where
  coherent : Coherent settings .immediate e
  quiet : e.Quiet
  idle : e.phase ≠ .evaluating
  attentive : Attentive settings e

theorem phase_finished (e : Engine) (ns : List Notice) : (e.finished ns).phase ≠ .evaluating := by
  show (if e.rests then Phase.queued else .idle) ≠ .evaluating
  split
  · decide
  · decide

/-- When a drain is over the engine listens as before. -/
theorem listening_finished (hc : Coherent settings .immediate e') {ns : List Notice}
    (hq : (e'.finished ns).Quiet) (h : Attentive settings e) (scope : Option String)
    (hl : e'.layout = { e with scope := scope }.layout) : Listening settings (e'.finished ns) := by
  have hattentive : Attentive settings { e with scope := scope } :=
    ⟨⟨⟨h.acyclic, h.room, h.plain, h.numeric⟩, h.unskipped⟩, h.attached, h.untimed, h.bound⟩
  obtain ⟨⟨⟨hacyclic, hroom, hplain, hnumeric⟩, hunskipped⟩, hattached, huntimed, hbound⟩ :=
    hattentive.congr hl
  exact ⟨hc.congr rfl, hq, phase_finished e' ns,
    ⟨⟨⟨hacyclic, hroom, hplain, hnumeric⟩, hunskipped⟩, hattached, huntimed, hbound⟩⟩

/-! ## What an edit changes -/

theorem Coherent.mem_dependentsOf (h : Coherent settings mode e) {id v : String} :
    id ∈ e.links.dependentsOf v ↔
      ∃ n ∈ e.registry.nodes, n.id = id ∧ reads n.dependencies v = true := by
  rw [h.links, LinkGraph.mem_dependentsOf h.ids_dependencies]
  simp [Registry.dependencies]

/-- An edit of a field changes no variable but that of the field. -/
theorem resolve_setValue (h : Coherent settings mode e) {name : String} {value : Value}
    {tree : FormTree} (ht : e.tree.setValue name value = .ok tree) {v : String}
    (hv : v ≠ variableName name) : ({ e with tree } : Engine).resolve v = e.resolve v := by
  unfold resolve
  dsimp only
  cases hb : e.bindings.lookup v with
  | none => rfl
  | some field =>
    have hread : tree.read field = e.tree.read field := by
      refine FormTree.read_setValue_of_ne ht fun hfield => hv ?_
      have hvariable : variableName field = v := h.bindings (v, field) (mem_of_lookup hb)
      rw [← hvariable, hfield]
    dsimp only
    rw [hread]

/-- Marking an output as edited by hand changes nothing that is read. -/
theorem Confirms.edited {id : String} {n : OutputNode} {v : Value} (h : e.Confirms id n v)
    (name : String) (user : Bool) : (e.edited name user).Confirms id n v := by
  unfold Engine.edited
  split
  · exact h
  · exact h

theorem Attentive.edited (h : Attentive settings e) (name : String) (user : Bool) :
    Attentive settings (e.edited name user) := by
  unfold Engine.edited
  split
  · exact ⟨⟨⟨h.acyclic, h.room, h.plain, h.numeric⟩, h.unskipped⟩, h.attached, h.untimed, h.bound⟩
  · exact h

theorem Attentive.withTree (h : Attentive settings e) {tree : FormTree}
    (hnames : tree.fields.map (·.1) = e.tree.fields.map (·.1)) :
    Attentive settings { e with tree } :=
  ⟨⟨⟨h.acyclic, h.room, h.plain, h.numeric⟩, h.unskipped⟩, h.attached, h.untimed,
    fun name hname => h.bound name (hnames ▸ hname)⟩

theorem registry_edited (e : Engine) (name : String) (user : Bool) :
    (e.edited name user).registry = e.registry ∧ (e.edited name user).links = e.links := by
  unfold edited
  split
  · exact ⟨rfl, rfl⟩
  · exact ⟨rfl, rfl⟩

theorem debounces_edited (e : Engine) (name : String) (user : Bool) :
    (e.edited name user).debounces = e.debounces := by
  unfold edited
  split
  · rfl
  · rfl

/-- An edit of a known field settles. -/
theorem settle_setValue (hc : Coherent settings mode e) (attached : e.attached = true)
    {name : String} {value : Value} {tree : FormTree}
    (ht : e.tree.setValue name value = .ok tree)
    (bound : e.bindings.any (·.1 == variableName name) = true) (user : Bool) :
    e.perform (.setValue name value user) =
      (({ e with tree } : Engine).edited name user).settle (.input (variableName name))
        (if user then e.settings.immediateDelay else e.settings.settleDelay) := by
  have hbind : ({ e with tree } : Engine).bind name = ({ e with tree }, .ok ()) := if_pos bound
  have hwriting : ({ e with tree } : Engine).writing = false := hc.writing
  show e.changeTree (e.tree.setValue name value) (.input name user) true = _
  rw [ht]
  show ({ e with tree } : Engine).deliver (.input name user) = _
  unfold deliver
  rw [if_pos attached]
  show ({ e with tree } : Engine).notifyInput name user = _
  rw [notifyInput_eq hwriting, Engine.bound, hbind]

/-- Where changes do not rest it lets the nodes wait that read the field, and begins a drain. -/
theorem perform_setValue (hc : Coherent settings mode e) (attached : e.attached = true)
    (untimed : e.debounces = false) {name : String} {value : Value} {tree : FormTree}
    (ht : e.tree.setValue name value = .ok tree)
    (bound : e.bindings.any (·.1 == variableName name) = true) (user : Bool) :
    e.perform (.setValue name value user) =
      ((({ e with tree } : Engine).edited name user).schedule
        (e.links.dependentsOf (variableName name)) .normal
        (if e.registry.contains (variableName name) then some (variableName name) else none)
        none).drain := by
  have huntimed : (({ e with tree } : Engine).edited name user).debounces = false :=
    (debounces_edited { e with tree } name user).trans untimed
  obtain ⟨hregistry, hlinks⟩ := registry_edited { e with tree } name user
  rw [settle_setValue hc attached ht bound]
  unfold settle
  rw [if_neg (by rw [huntimed]; exact Bool.false_ne_true)]
  show (schedule _ _ _ _ _).drain = _
  rw [hregistry, hlinks]

/-- A node that does not read the field stays up to date when it is edited. -/
theorem UpToDate.setValue (hc : Coherent settings mode e)
    (plain : ∀ n ∈ e.registry.nodes, Expr.wordsRead n.expression = []) {name : String}
    {value : Value} {tree : FormTree} (ht : e.tree.setValue name value = .ok tree) (user : Bool)
    {id : String} (hid : id ∉ e.links.dependentsOf (variableName name)) (hup : e.UpToDate id) :
    (({ e with tree } : Engine).edited name user).UpToDate id := by
  obtain ⟨n, v, hconfirms⟩ := hup
  obtain ⟨hmem, hnid⟩ := Registry.mem_of_find? hconfirms.1
  have hc' := hc.withTree (hc.tree.setValue ht)
  have hnot : ∀ u, n.Uses u → u ≠ variableName name := by
    rintro u (hu | hu) rfl
    · exact hid (hc.mem_dependentsOf.mpr ⟨n, hmem, hnid, hu⟩)
    · rw [plain n hmem] at hu
      cases hu
  have hconfirms' : ({ e with tree } : Engine).Confirms id n v :=
    hconfirms.congr hc.toSound hc'.toSound rfl rfl fun u hu => resolve_setValue hc ht (hnot u hu)
  exact ⟨n, v, hconfirms'.edited name user⟩

/-- A node that reads the field is not the source of the edit, since it would read itself. -/
theorem Listening.source_ne (h : Listening settings e) {v : String} :
    ∀ id ∈ e.links.dependentsOf v,
      (if e.registry.contains v then some v else none) ≠ some id := by
  intro id hid heq
  obtain ⟨n, hn, rfl, hread⟩ := h.coherent.mem_dependentsOf.mp hid
  split at heq
  · rw [Option.some.inj heq] at hread
    exact h.attentive.acyclic.not_reads_self n.id (reads_of_mem hn (List.mem_map_of_mem hn) hread)
  · cases heq

/-- An edit is handled to its end, and the outputs that are to be attended to are. -/
theorem Listening.edit (h : Listening settings e) (hs : settings.InRange)
    (hmost : settings.historySize ≤ ConvergenceDetector.maxHistory) {name : String} {value : Value}
    {user : Bool} (calm : Calm answer (after [] (e.perform (.setValue name value user)))) :
    ∃ vs e' r, Runs (among answer) updates (after [] (e.perform (.setValue name value user))) vs
        ⟨e', [], r⟩ ∧ Listening settings e' ∧ e'.registry.ids = e.registry.ids ∧
      ∀ all us, ∀ id ∈ e.registry.ids, (Promised all us id → e.UpToDate id ∨ Lost us id) →
        Promised all (us ++ vs) id → e'.UpToDate id ∨ Lost (us ++ vs) id := by
  cases ht : e.tree.setValue name value with
  | error err =>
    have hperform : e.perform (.setValue name value user) = .fail e (.tree err) := by
      show e.changeTree (e.tree.setValue name value) (.input name user) true = _
      rw [ht]
      rfl
    rw [hperform]
    refine ⟨[], e, _, .refl _, h, rfl, fun all us id _ hgood hp => ?_⟩
    rw [List.append_nil] at hp ⊢
    exact hgood hp
  | ok tree =>
    have hbound := h.attentive.bound name (FormTree.mem_of_setValue ht)
    rw [perform_setValue h.coherent h.attentive.attached h.attentive.untimed ht hbound] at calm ⊢
    have hattentive := (h.attentive.withTree (FormTree.names_of_shape (FormTree.shape_setValue ht))).edited name user
    have hc := (h.coherent.withTree (h.coherent.tree.setValue ht)).edited name user
    have hq : (({ e with tree } : Engine).edited name user).Quiet :=
      h.quiet.congr (progress_edited { e with tree } name user)
    have hp : (({ e with tree } : Engine).edited name user).phase ≠ .evaluating := by
      rw [show (({ e with tree } : Engine).edited name user).phase = e.phase from
        congrArg (·.2.1) (progress_edited { e with tree } name user)]
      exact h.idle
    have hup : ∀ id, id ∉ e.links.dependentsOf (variableName name) → e.UpToDate id →
        (({ e with tree } : Engine).edited name user).UpToDate id :=
      fun _ => UpToDate.setValue h.coherent h.attentive.plain ht user
    obtain ⟨hregistry, -⟩ := registry_edited { e with tree } name user
    have hids : (({ e with tree } : Engine).edited name user).registry.ids = e.registry.ids :=
      congrArg Registry.ids hregistry
    generalize ({ e with tree } : Engine).edited name user = e₁ at *
    have hregs : ∀ id ∈ e.links.dependentsOf (variableName name), id ∈ e.registry.ids := by
      intro id hid
      obtain ⟨n, hn, rfl, -⟩ := h.coherent.mem_dependentsOf.mp hid
      exact List.mem_map_of_mem hn
    have hbegun := beginning_schedule hc hq hp hattentive.room
      (h.coherent.nodup_order.filter _) (hids ▸ hregs) .normal
      (if e.registry.contains (variableName name) then some (variableName name) else none) none
    obtain ⟨vs, e₂, ns, hd, hu, hruns⟩ := runs_cycle hs hmost hc hq calm
    have hattending := (hbegun.attending hattentive.toEager h.source_ne).taken hbegun.flight
    have hlayout : e₂.layout = { e₁ with scope := none }.layout := hd.layout.trans hbegun.layout
    refine ⟨vs, e₂.finished ns, _, hruns,
      listening_finished hu.coherent (hd.quiet hu ns) hattentive none hlayout, ?_,
      fun all us id hid hgood hpromised => ?_⟩
    · exact (ids_of_layout hlayout).trans hids
    · refine hd.attended hattending hs ?_ (fun hp => hbegun.attended ?_) hpromised
      · rw [← hids] at hid
        exact (ids_of_layout hbegun.layout).symm ▸ hid
      · by_cases hreads : id ∈ e.links.dependentsOf (variableName name)
        · exact Or.inl hreads
        · exact Or.inr ((hgood hp).imp_left (hup id hreads))

/-! ## Attaching -/

/-- An engine that is attached listens; if it computes the form then, all outputs are up to date. -/
theorem listening_attach (hs : settings.InRange)
    (hmost : settings.historySize ≤ ConvergenceDetector.maxHistory)
    (hc : Sound settings .immediate e) (hq : e.Quiet) (hp : e.phase ≠ .evaluating)
    (untimed : e.debounces = false) (eager : Eager settings e.rescan.1) (hr : e.Readable)
    {compute : Bool} (calm : Calm answer (after [] (e.perform (.attach compute)))) :
    ∃ us e₁, Runs (among answer) updates (after [] (e.perform (.attach compute))) us
        ⟨e₁, [], .returned default⟩ ∧ Listening settings e₁ ∧
      (compute = true → ∀ id ∈ e₁.registry.ids, e₁.UpToDate id) := by
  have hc₀ : Sound settings .immediate { e with attached := true } := hc.congr rfl
  have hc₁ := hc₀.coherent_rescan hr
  have hq₁ : ({ e with attached := true } : Engine).rescan.1.Quiet :=
    hq.congr (progress_rescan { e with attached := true })
  have hp₁ : ({ e with attached := true } : Engine).rescan.1.phase ≠ .evaluating :=
    fun h => hp ((phase_rescan { e with attached := true }).symm.trans h)
  have huntimed : e.rescan.1.debounces = false :=
    (rescan_unseen e debounces fun _ _ _ _ _ _ _ _ _ => rfl).trans untimed
  have hattentive : Attentive settings ({ e with attached := true } : Engine).rescan.1 := by
    rw [rescan_attached]
    exact ⟨⟨⟨eager.acyclic, eager.room, eager.plain, eager.numeric⟩, eager.unskipped⟩, rfl,
      huntimed, bound_rescan e⟩
  cases compute with
  | false =>
    rw [perform_attach_of_readable hr]
    exact ⟨[], _, .refl _, ⟨hc₁, hq₁, hp₁, hattentive⟩,
      fun h => absurd h Bool.false_ne_true⟩
  | true =>
    rw [perform_attach] at calm ⊢
    have hregular : Regular settings
        { ({ e with attached := true } : Engine).rescan.1 with scope := none } :=
      ⟨hattentive.acyclic, hattentive.room, hattentive.plain, hattentive.numeric⟩
    obtain ⟨us, e', ns, hruns, -, hsweeping, hquiet, hrenewed⟩ :=
      runs_sweep hs hmost hc₀ hr hq₁ hp hattentive.toRegular.orderly (keeps_renewed hregular hs)
        (fun id hid => absurd hid List.not_mem_nil) calm
    have hlistening := listening_finished hsweeping.underway.coherent hquiet hattentive none
      hsweeping.layout
    have hids := ids_of_layout hsweeping.layout
    refine ⟨us, _, hruns, hlistening, fun _ id hid => ?_⟩
    have hmem : id ∈ e'.registry.ids := hid
    rw [hids] at hmem
    obtain ⟨n, v, hconfirms, -⟩ := hrenewed id (hc₁.order_perm.mem_iff.mpr hmem)
      (hattentive.toEager.skips id)
    exact ⟨n, v, hconfirms⟩

/-! ## Any number of edits -/

/-- The engine after edits of its form one after another, with all updates that they led to. -/
inductive Edits (answer : Engine → Ask → Reply Response EngineError) (e : Engine) :
    List Update → Engine → Prop where
  | none : Edits answer e [] e
  | edit {us vs : List Update} {e₁ e₂ : Engine} {r : Reply Response EngineError}
    (earlier : Edits answer e us e₁) (name : String) (value : Value) (user : Bool)
    (calm : Calm answer (after [] (e₁.perform (.setValue name value user))))
    (run : Runs (among answer) updates (after [] (e₁.perform (.setValue name value user))) vs
      ⟨e₂, [], r⟩) : Edits answer e (us ++ vs) e₂

/-- After any number of edits the engine listens, and the outputs that are to be attended to are. -/
theorem Listening.edits (h : Listening settings e) (hs : settings.InRange)
    (hmost : settings.historySize ≤ ConvergenceDetector.maxHistory) {all : Bool}
    (hall : all = true → ∀ id ∈ e.registry.ids, e.UpToDate id) (he : Edits answer e us e') :
    Listening settings e' ∧ e'.registry.ids = e.registry.ids ∧
      ∀ id ∈ e.registry.ids, Promised all us id → e'.UpToDate id ∨ Lost us id := by
  induction he with
  | none =>
    refine ⟨h, rfl, fun id hid hp => ?_⟩
    rcases hp with hp | ⟨u, hu, -⟩
    · exact Or.inl (hall hp id hid)
    · cases hu
  | edit earlier name value user calm run ih =>
    obtain ⟨h₁, hids₁, hgood⟩ := ih
    obtain ⟨vs, e₂, r, hruns, h₂, hids₂, hgood₂⟩ := h₁.edit hs hmost calm
    obtain ⟨rfl, heq⟩ := run.unique hruns rfl rfl
    cases heq
    refine ⟨h₂, hids₂.trans hids₁, fun id hid => ?_⟩
    exact hgood₂ all _ id (hids₁ ▸ hid) (hgood id hid)

/-- An engine that is attached to a form that can be read, and on which no output reads itself,
handles every edit to its end.  After any number of them each output is up to date or has lost its
latest chance to be; where nothing was computed in the beginning, each one that was evaluated
since. -/
theorem edits_attended {place : String} {entries : List (String × Data)}
    (hsettings : Settings.ofEntries place entries = .ok settings)
    (hmost : settings.historySize ≤ ConvergenceDetector.maxHistory)
    {r : Reply Response EngineError} (reachable : Reachable settings .immediate ⟨e, [], r⟩)
    (idle : e.phase ≠ .evaluating) (untimed : e.debounces = false)
    (eager : Eager settings e.rescan.1) (readable : e.Readable) {compute : Bool}
    (calm : Calm answer (after [] (e.perform (.attach compute)))) :
    ∃ us₀ e₁ r₁, Runs (among answer) updates (after [] (e.perform (.attach compute))) us₀
        ⟨e₁, [], .returned r₁⟩ ∧
      ∀ us e₂, Edits answer e₁ us e₂ →
        (∀ n ∈ e₂.registry.nodes, compute = true ∨ (∃ u ∈ us, u.evaluated? = some n.id) →
          e₂.UpToDate n.id ∨ Lost us n.id) ∧
        ∀ name value user, Calm answer (after [] (e₂.perform (.setValue name value user))) →
          ∃ vs e₃ r₃, Runs (among answer) updates
            (after [] (e₂.perform (.setValue name value user))) vs ⟨e₃, [], r₃⟩ := by
  have hs := Settings.inRange_of_ofEntries hsettings
  obtain ⟨hc, -⟩ := steady_of_reachable reachable
  have hq := quiet_of_reachable reachable idle
  obtain ⟨us₀, e₁, hruns, hlistening, hall⟩ :=
    listening_attach hs hmost hc hq idle untimed eager readable calm
  refine ⟨us₀, e₁, _, hruns, fun us e₂ he => ?_⟩
  obtain ⟨h₂, hids, hgood⟩ := hlistening.edits hs hmost hall he
  refine ⟨fun n hn hp => hgood n.id (hids ▸ List.mem_map_of_mem hn) hp, ?_⟩
  intro name value user hcalm
  obtain ⟨vs, e₃, r₃, hruns₃, -⟩ := h₂.edit hs hmost hcalm
  exact ⟨vs, e₃, r₃, hruns₃⟩

/-- A field, an output that reads another one behind it, and that one. -/
def chainTree : FormTree :=
  ((({} : FormTree).withField "x" "1" "").withOutput { id := "b", expression := "a * 2" }
    "").withOutput { id := "a", expression := "x + 1" } ""

theorem proper_chainTree : chainTree.Proper :=
  (((FormTree.proper_empty false).withField _ _ _).withOutput _ _).withOutput _ _

/-- The engine that is to be attached to it. -/
def chainEngine : Engine := .create chainTree {} .immediate false

/-- What is asked of a form can be seen from its nodes, where each reads those before it only. -/
theorem eager_of_rank (rank : String → Nat)
    (h : (∀ a ∈ e.registry.dependencies, ∀ u ∈ e.registry.dependencies.map (·.1),
        reads a.2 u = true → rank u < rank a.1) ∧
      (e.registry.nodes.length : Int) ≤ settings.maxQueue ∧
      (∀ n ∈ e.registry.nodes, Expr.wordsRead n.expression = []) ∧
      settings.tolerance.isNaN = false ∧
      ∀ n ∈ e.registry.nodes, n.skipWhileEditing = false) : Eager settings e where
  acyclic := Dependencies.acyclic_of_rank rank h.1
  room := h.2.1
  plain := h.2.2.1
  numeric := h.2.2.2.1
  unskipped := h.2.2.2.2

theorem eager_chainEngine : Eager {} chainEngine.rescan.1 :=
  eager_of_rank (fun id => if id = "a" then 0 else 1) (by decide +kernel)

theorem edits_attended_chain :
    ∃ us₀ e₁ r₁, Runs (among fun _ _ => .returned default) updates
        (after [] (chainEngine.perform (.attach true))) us₀ ⟨e₁, [], .returned r₁⟩ ∧
      ∀ us e₂, Edits (fun _ _ => .returned default) e₁ us e₂ →
        (∀ n ∈ e₂.registry.nodes, true = true ∨ (∃ u ∈ us, u.evaluated? = some n.id) →
          e₂.UpToDate n.id ∨ Lost us n.id) ∧
        ∀ name value user,
          Calm (fun _ _ => .returned default) (after [] (e₂.perform (.setValue name value user))) →
          ∃ vs e₃ r₃, Runs (among fun _ _ => .returned default) updates
            (after [] (e₂.perform (.setValue name value user))) vs ⟨e₃, [], r₃⟩ := by
  have hsettings : Settings.ofEntries "" [] = .ok {} := rfl
  have hidle : chainEngine.phase ≠ .evaluating := show Phase.idle ≠ .evaluating by decide
  have hcalm : endsSmoothly (fun _ _ => .returned default) 100
      (after [] (chainEngine.perform (.attach true))) = true := by
    decide +kernel
  exact edits_attended (r := .returned default) hsettings (by decide)
    (.create proper_chainTree false) hidle rfl eager_chainEngine (by decide +kernel)
    (calm_of_endsSmoothly hcalm)

/-! ## Chances that are lost -/

/-- An engine on a form on which no output reads itself handles an edit of the field `x` in updates
of these nodes, on account of these others and with or without an evaluation; and then the output
`s` is out of date. -/
def Misses (entries : List (String × Data)) (tree : FormTree) (text : String)
    (steps : List (String × Option String × Bool)) : Prop :=
  ∃ settings e r us₀ e₁ us e₂, Settings.ofEntries "" entries = .ok settings ∧
    settings.historySize ≤ ConvergenceDetector.maxHistory ∧
    Reachable settings .immediate ⟨e, [], r⟩ ∧ e.tree = tree ∧ e.phase ≠ .evaluating ∧
    e.debounces = false ∧ Eager settings e.rescan.1 ∧ e.Readable ∧
    Calm (fun _ _ => .returned default) (after [] (e.perform (.attach true))) ∧
    Runs (among fun _ _ => .returned default) updates (after [] (e.perform (.attach true))) us₀
      ⟨e₁, [], .returned default⟩ ∧
    Calm (fun _ _ => .returned default) (after [] (e₁.perform (.setValue "x" (.text text) true))) ∧
    Runs (among fun _ _ => .returned default) updates
      (after [] (e₁.perform (.setValue "x" (.text text) true))) us ⟨e₂, [], .returned default⟩ ∧
    us.map (fun u => (u.entry.node, u.entry.source, u.evaluated?.isSome)) = steps ∧
    "s" ∈ e₂.registry.ids ∧ ¬ e₂.UpToDate "s"

/-- An engine that was attached to a form, and an edit of it. -/
def startedOn (settings : Settings) (tree : FormTree) : Running :=
  (among fun _ _ => .returned default).run 100
    (after [] ((Engine.create tree settings .immediate false).perform (.attach true)))

def editOf (settings : Settings) (tree : FormTree) (text : String) : Running :=
  after [] ((startedOn settings tree).state.perform (.setValue "x" (.text text) true))

theorem misses {entries : List (String × Data)} {tree : FormTree} {text : String}
    {steps : List (String × Option String × Bool)}
    (hsettings : Settings.ofEntries "" entries = .ok settings)
    (hmost : settings.historySize ≤ ConvergenceDetector.maxHistory) (proper : tree.Proper)
    (eager : Eager settings (Engine.create tree settings .immediate false).rescan.1)
    (readable : (Engine.create tree settings .immediate false).Readable)
    (attached : endsSmoothly (fun _ _ => .returned default) 100
        (after [] ((Engine.create tree settings .immediate false).perform (.attach true))) = true ∧
      (startedOn settings tree).stack.isEmpty = true ∧
      (startedOn settings tree).reply = .returned default)
    (edited : endsSmoothly (fun _ _ => .returned default) 100 (editOf settings tree text) = true ∧
      ((among fun _ _ => .returned default).run 100 (editOf settings tree text)).stack.isEmpty =
        true ∧
      ((among fun _ _ => .returned default).run 100 (editOf settings tree text)).reply =
        .returned default ∧
      ((among fun _ _ => .returned default).seen updates 100 (editOf settings tree text)).map
        (fun u => (u.entry.node, u.entry.source, u.evaluated?.isSome)) = steps ∧
      "s" ∈ ((among fun _ _ => .returned default).run 100
        (editOf settings tree text)).state.registry.ids ∧
      ¬ ((among fun _ _ => .returned default).run 100
        (editOf settings tree text)).state.UpToDate "s") :
    Misses entries tree text steps := by
  obtain ⟨hcalm, hstack, hreply⟩ := attached
  obtain ⟨hcalm', hstack', hreply', hsteps, hid, hout⟩ := edited
  have hidle : (Engine.create tree settings .immediate false).phase ≠ .evaluating :=
    show Phase.idle ≠ .evaluating by decide
  exact ⟨settings, _, .returned default, _, (startedOn settings tree).state, _, _, hsettings, hmost,
    .create proper false, rfl, hidle, rfl, eager, readable, calm_of_endsSmoothly hcalm,
    .ended hstack hreply,
    calm_of_endsSmoothly hcalm', .ended hstack' hreply', hsteps, hid, hout⟩

/-- A field, three outputs that show it one behind the other, and an output that reads the field and
the last of them. -/
def diamondTree : FormTree :=
  ((((({} : FormTree).withField "x" "1" "").withOutput { id := "a", expression := "x" }
    "").withOutput { id := "b", expression := "a" } "").withOutput
    { id := "n", expression := "b" } "").withOutput { id := "s", expression := "x + n" } ""

theorem proper_diamondTree : diamondTree.Proper :=
  (((((FormTree.proper_empty false).withField _ _ _).withOutput _ _).withOutput _ _).withOutput
    _ _).withOutput _ _

/-- The same with two outputs between, and other expressions for the first one and the last. -/
def kiteTree (first last : String) : FormTree :=
  (((({} : FormTree).withField "x" "0" "").withOutput { id := "a", expression := first }
    "").withOutput { id := "n", expression := "a" } "").withOutput
    { id := "s", expression := last } ""

theorem proper_kiteTree (first last : String) : (kiteTree first last).Proper :=
  ((((FormTree.proper_empty false).withField _ _ _).withOutput _ _).withOutput _ _).withOutput _ _

/-- The place of an output between the field and the last one. -/
def distance (id : String) : Nat :=
  if id = "a" then 0 else if id = "b" then 1 else if id = "n" then 2 else 3

/-- One pass of each output in a cycle. -/
def onePass : Settings := Settings.setCount {} .maxPasses 1

/-- Numbers that differ by no more than ten are the same. -/
def coarse : Settings := Settings.setNumber {} .tolerance (.ofInt 10)

/-- An output may stay out of date after an edit in each of the three ways, while there is nothing
of the other two: where the last of the outputs between it and the field is updated on its account,
it does not hear of the new value; where an output may have one pass only, the cycle is broken off
at its second one; and where its first value of the cycle was taken for the one before it, a second
one is held back that is as close to the first. -/
theorem edits_missed :
    Misses [] diamondTree "2"
      [("a", none, true), ("s", none, true), ("b", some "a", true), ("n", some "s", true)] ∧
    Misses [("max_passes", .scalar (.integer 1))] (kiteTree "x" "x + n") "2"
      [("a", none, true), ("s", none, true), ("n", some "a", true), ("s", some "n", false)] ∧
    Misses [("tolerance", .scalar (.integer 10))] (kiteTree "x * 100" "x + n / 100") "9"
      [("a", none, true), ("s", none, true), ("n", some "a", true), ("s", some "n", true)] := by
  have hpasses : Settings.ofEntries "" [("max_passes", .scalar (.integer 1))] = .ok onePass :=
    Settings.ofEntries_count (by decide +kernel) (by decide)
  have htolerance : Settings.ofEntries "" [("tolerance", .scalar (.integer 10))] = .ok coarse :=
    Settings.ofEntries_number (by decide +kernel) (by decide) (by decide +kernel)
  exact ⟨misses rfl (by decide) proper_diamondTree (eager_of_rank distance (by decide +kernel))
      (by decide +kernel) (by decide +kernel) (by decide +kernel),
    misses hpasses (by decide) (proper_kiteTree _ _) (eager_of_rank distance (by decide +kernel))
      (by decide +kernel) (by decide +kernel) (by decide +kernel),
    misses htolerance (by decide +kernel) (proper_kiteTree _ _)
      (eager_of_rank distance (by decide +kernel)) (by decide +kernel) (by decide +kernel)
      (by decide +kernel)⟩

end LiveForm.Engine
