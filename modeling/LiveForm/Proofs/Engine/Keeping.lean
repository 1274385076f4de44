import LiveForm.Proofs.Engine.Editing
import LiveForm.Proofs.Engine.Lasting

/-!
# Edits of outputs

An output that is edited by hand shows what was entered until it is computed anew.  In an engine
that is up to date an edit changes only what follows the edited output, so that an output that does
not follow itself keeps its text.  An output on a cycle keeps it if what is linked with it hears of
the edit from the output itself and from nothing else.
-/

namespace LiveForm

/-- A node is computed from another one, directly or by way of others. -/
def Registry.Follows (r : Registry) (c a : String) : Prop :=
  c ≠ a ∧ Relation.TransGen r.dependencies.Reads c a

namespace Engine

open Machine (after Runs)

variable {settings : Settings} {mode : YieldMode} {e e₀ e' : Engine} {a n : OutputNode}
  {us : List Update} {entry : QueueEntry} {rest : List QueueEntry}

/-! ## What follows a node -/

theorem mem_of_transGen {r : Registry} {c a : String}
    (h : Relation.TransGen r.dependencies.Reads c a) : c ∈ r.ids := by
  obtain ⟨p, hp, -⟩ := Relation.TransGen.head'_iff.mp h
  rw [← Registry.ids_dependencies]
  exact hp.mem

/-- A node that does not follow another one uses neither that nor anything that follows it. -/
theorem not_follows_of_uses {r : Registry} (hcandid : r.Candid) (hn : n ∈ r.nodes) {a : String}
    (ha : a ∈ r.ids) (hnot : ¬ Relation.TransGen r.dependencies.Reads n.id a) {name : String}
    (hname : n.Uses name) : name ≠ a ∧ ¬ r.Follows name a := by
  constructor
  · rintro rfl
    exact hnot (.single (hcandid.reads hn ha hname))
  · intro hfollows
    exact hnot (.head (hcandid.reads hn (mem_of_transGen hfollows.2) hname) hfollows.2)

/-- The value of a node is up to date, and was computed before. -/
def Still (e : Engine) (id : String) : Prop := ∃ n v, e.Confirms id n v ∧ n.evaluated = true

/-- An engine in which an output was edited: what does not follow it is still. -/
structure Touched (settings : Settings) (e : Engine) (a : OutputNode) : Prop where
  coherent : Coherent settings .immediate e
  mem : a ∈ e.registry.nodes
  candid : e.registry.Candid
  still : ∀ n ∈ e.registry.nodes,
    ¬ Relation.TransGen e.registry.dependencies.Reads n.id a.id → e.Still n.id

/-- Nothing has changed but what follows a node. -/
structure Confined (settings : Settings) (e₀ : Engine) (a : OutputNode) (e : Engine) : Prop where
  coherent : Coherent settings .immediate e
  rows : e.rows = e₀.rows
  resolve : ∀ name, ¬ e₀.registry.Follows name a.id → e.resolve name = e₀.resolve name
  found : ∀ id, ¬ e₀.registry.Follows id a.id → e.registry.find? id = e₀.registry.find? id
  read : e.tree.read a.field = e₀.tree.read a.field

namespace Confined

theorem congr (h : Confined settings e₀ a e) (hc : Coherent settings .immediate e')
    (hholdings : e'.holdings = e.holdings) : Confined settings e₀ a e' := by
  refine ⟨hc, ?_, fun name hname => ?_, fun id hid => ?_, ?_⟩
  · simp only [holdings, Prod.mk.injEq] at hholdings
    exact hholdings.2.2.2.2.1.trans h.rows
  · rw [resolve_of_holdings hholdings]
    exact h.resolve name hname
  · rw [find?_of_holdings hholdings]
    exact h.found id hid
  · rw [read_of_holdings hholdings]
    exact h.read

/-- A value that is computed anew for a node that does not follow the edited one is kept out. -/
theorem out (h : Confined settings e₀ a e) (ht : Touched settings e₀ a)
    (hf : e.fate entry = .evaluated n)
    (hnot : ¬ Relation.TransGen e₀.registry.dependencies.Reads n.id a.id) {v : Value}
    (hv : (e.counted n).computed n = .ok v) : (e.counted n).accepts n v entry = false := by
  have hfound := (evaluates_of_fate hf).found
  obtain ⟨-, hid⟩ := Registry.mem_of_find? hfound
  have hfound₀ : e₀.registry.find? n.id = some n := by
    rw [← h.found n.id fun hfollows => hnot hfollows.2, hid]
    exact hfound
  obtain ⟨hmem, -⟩ := Registry.mem_of_find? hfound₀
  obtain ⟨m, w, ⟨hm, hw, hconverged⟩, hevaluated⟩ := ht.still n hmem hnot
  rw [hfound₀] at hm
  cases hm
  -- The node uses nothing that has changed
  have hcomputed : (e.counted n).computed n = e₀.computed n :=
    computed_congr ht.coherent.toSound (h.coherent.counted n).toSound (ht.coherent.nodes n hmem)
      h.rows fun name hname => h.resolve name
        (not_follows_of_uses ht.candid hmem (List.mem_map_of_mem ht.mem) hnot hname).2
  rw [hcomputed, hw] at hv
  cases hv
  rw [ht.coherent.tolerances, ← (h.coherent.counted n).tolerances] at hconverged
  rw [accepts, hevaluated, hconverged]
  exact Bool.and_false _

/-- A value is new only if its node follows the edited one, or is that one and follows itself. -/
theorem follows (h : Confined settings e₀ a e) (ht : Touched settings e₀ a)
    (hf : e.fate entry = .evaluated n)
    (hown : n.id = a.id → ¬ Relation.TransGen e₀.registry.dependencies.Reads a.id a.id) {v : Value}
    (hv : (e.counted n).computed n = .ok v) (hnew : (e.counted n).accepts n v entry = true) :
    e₀.registry.Follows n.id a.id := by
  by_contra hnot
  have hnot' : ¬ Relation.TransGen e₀.registry.dependencies.Reads n.id a.id := fun htrans => by
    by_cases hna : n.id = a.id
    · exact hown hna (hna ▸ htrans)
    · exact hnot ⟨hna, htrans⟩
  rw [h.out ht hf hnot' hv] at hnew
  cases hnew

/-- An update changes only what follows the edited node, if that is not computed anew or does not
follow itself. -/
theorem updated (h : Confined settings e₀ a e) (ht : Touched settings e₀ a)
    (hu : Updated e entry e')
    (hown : ∀ n, e.fate entry = .evaluated n → n.id = a.id →
      ¬ Relation.TransGen e₀.registry.dependencies.Reads a.id a.id) :
    Confined settings e₀ a e' := by
  have hc' := h.coherent.updated hu
  rcases hu.ends with ⟨-, rfl⟩ | ⟨n, -, rfl⟩ | ⟨n, hf⟩
  · exact h
  · exact h.congr hc' rfl
  obtain ⟨v, hv, ⟨-, hholdings⟩ | ⟨hnew, hholdings⟩⟩ := hu.holdings hf
  · exact h.congr hc' hholdings
  obtain ⟨hmem, hid⟩ := Registry.mem_of_find? (evaluates_of_fate hf).found
  have hfollows : e₀.registry.Follows n.id a.id :=
    h.follows ht hf (hown n hf) hv hnew
  refine ⟨hc', ?_, fun name hname => ?_, fun id hid' => ?_, ?_⟩
  · simp only [holdings, Prod.mk.injEq] at hholdings
    exact hholdings.2.2.2.2.1.trans h.rows
  · rw [hu.resolve h.coherent fun he => hname (by rwa [he, ← hid])]
    exact h.resolve name hname
  · rw [hu.find? fun he => hid' (by rwa [he, ← hid])]
    exact h.found id hid'
  · have hfield : a.field ≠ n.field := fun hf => hfollows.1 <| by
      rw [(h.coherent.nodes n hmem).id_eq, (ht.coherent.nodes a ht.mem).id_eq, hf]
    rw [read_of_holdings hholdings]
    exact (read_withValue_of_ne hfield v).trans h.read

end Confined

/-- A whole drain changes only what follows the edited node, if that does not follow itself. -/
theorem Drains.confined (hd : Drains e us e') (ht : Touched settings e₀ a)
    (hfree : ¬ Relation.TransGen e₀.registry.dependencies.Reads a.id a.id)
    (h : Confined settings e₀ a e) : Confined settings e₀ a e' := by
  induction hd with
  | done => exact h
  | @update e e₁ e₂ entry rest us flight updated _ ih =>
    have h' : Confined settings e₀ a (e.withFlight rest) := h.congr (h.coherent.congr rfl) rfl
    exact ih (h'.updated ht updated fun _ _ _ => hfree)
  | batch _ _ _ ih => exact ih (h.congr (h.coherent.congr rfl) rfl)

/-! ## Outputs on a cycle -/

/-- What follows a node and is linked with it reads nothing else that follows it. -/
def Shelters (e : Engine) (a : String) : Prop :=
  ∀ c p, e.registry.Follows c a → a ∈ e.links.peers c → e.registry.Follows p a → c ≠ p →
    ¬ e.registry.dependencies.Reads c p

/-- A node that follows another one would let it be computed anew. -/
structure Beside (e : Engine) (a c : String) : Prop where
  follows : e.registry.Follows c a
  linked : a ∈ e.links.peers c
  free : e.skips c = false

/-- So it reads the node itself. -/
theorem Shelters.reads {a c : String} (h : e.Shelters a) (hfollows : e.registry.Follows c a)
    (hlinked : a ∈ e.links.peers c) : e.registry.dependencies.Reads c a := by
  obtain ⟨hne, htrans⟩ := hfollows
  induction htrans using Relation.TransGen.head_induction_on with
  | single hr => exact hr
  | @head c p hr htrans ih =>
    by_cases hp : p = a
    · exact hp ▸ hr
    · by_cases hcp : c = p
      · subst hcp
        exact ih hlinked hne
      · exact absurd hr (h c p ⟨hne, .head hr htrans⟩ hlinked ⟨hp, htrans⟩ hcp)

/-- A drain in which the edited node is not computed anew: whoever could bring that about hears of
the edit from the node itself, and of no other change. -/
structure Sheltered (settings : Settings) (e₀ : Engine) (a : OutputNode) (e : Engine) : Prop
    extends Confined settings e₀ a e where
  underway : Underway settings e
  layout : e.layout = e₀.layout
  roomy : Roomy e.registry.ids e
  guarded : ∀ x ∈ e.scheduler.line, x.node = a.id ∨ e₀.Beside a.id x.node → x.source = some a.id
  heard : e.halted = false → ∀ c, e₀.Beside a.id c →
    e.scheduler.isPending c = true ∨ e.passes.any (·.1 == c) = true

namespace Sheltered

/-- The update of a node beside the edited one is not passed over. -/
theorem fate (h : Sheltered settings e₀ a e) (hf : e.scheduler.inFlight = entry :: rest)
    (hbeside : e₀.Beside a.id entry.node) : (e.withFlight rest).fate entry ≠ .passedOver := by
  have hentry := mem_line_next hf
  have hmem := h.roomy.registered entry.node (List.mem_map_of_mem hentry)
  obtain ⟨n, hn⟩ := Option.isSome_iff_exists.mp (Registry.contains_iff.mpr hmem)
  obtain ⟨-, hid⟩ := Registry.mem_of_find? hn
  refine fate_ne_passedOver (h.underway.running hf) hn ?_ ?_
  · rw [h.guarded entry hentry (Or.inr hbeside), hid]
    exact fun heq => hbeside.follows.1 (Option.some.inj heq).symm
  · have hskip := (skips_congr h.layout entry.node).trans hbeside.free
    rw [skips, hn] at hskip
    exact hskip

/-- The edited node is not computed anew. -/
theorem unevaluated (h : Sheltered settings e₀ a e) (hf : e.scheduler.inFlight = entry :: rest)
    (hfate : (e.withFlight rest).fate entry = .evaluated n) : n.id ≠ a.id := by
  intro hna
  have hevaluates := evaluates_of_fate hfate
  obtain ⟨-, hid⟩ := Registry.mem_of_find? hevaluates.found
  have hentry := mem_line_next hf
  have hsource := h.guarded entry hentry (Or.inl (hid.symm.trans hna))
  rw [← hna] at hsource
  exact hevaluates.foreign hsource

/-- A node that is evaluated and linked with the edited one was reached from there. -/
theorem beside (h : Sheltered settings e₀ a e)
    (hfate : (e.withFlight rest).fate entry = .evaluated n)
    (hfollows : e₀.registry.Follows n.id a.id) (hlinked : a.id ∈ n.linked) :
    e₀.Beside a.id entry.node := by
  have hevaluates := evaluates_of_fate hfate
  have hfound : e.registry.find? entry.node = some n := hevaluates.found
  obtain ⟨hmem, hid⟩ := Registry.mem_of_find? hfound
  refine ⟨hid ▸ hfollows, ?_, ?_⟩
  · rw [h.coherent.linked n hmem, show e.links = e₀.links from congrArg Layout.links h.layout, hid]
      at hlinked
    exact hlinked
  · rw [← skips_congr h.layout, skips, hfound]
    exact hevaluates.free

/-- Whoever is beside the edited node waits still or has been passed. -/
theorem awaited (h : Sheltered settings e₀ a e) (hf : e.scheduler.inFlight = entry :: rest)
    {c : String} (hc : e₀.Beside a.id c) :
    c = entry.node ∨ (e.withFlight rest).scheduler.isPending c = true ∨
      e.passes.any (·.1 == c) = true := by
  rcases h.heard (h.underway.running hf) c hc with hpending | hpassed
  · exact (isPending_withFlight hf hpending).imp_right Or.inl
  · exact Or.inr (Or.inr hpassed)

/-- Neither the edited node nor those beside it hear of another change. -/
theorem unheard (h : Sheltered settings e₀ a e) (hshelters : e₀.Shelters a.id)
    (hf : e.scheduler.inFlight = entry :: rest)
    (hfate : (e.withFlight rest).fate entry = .evaluated n)
    (hfollows : e₀.registry.Follows n.id a.id) {peer : String}
    (hpeer : peer = a.id ∨ e₀.Beside a.id peer) :
    hears n entry.source (e.links.graph.successors n.id) ((e.withFlight rest).counted n) peer =
      false := by
  have hc := h.coherent
  obtain ⟨hmem, hid⟩ := Registry.mem_of_find? (evaluates_of_fate hfate).found
  rw [← Bool.not_eq_true]
  intro hhears
  unfold hears at hhears
  simp only [Bool.and_eq_true, Bool.not_eq_true', beq_eq_false_iff_ne] at hhears
  obtain ⟨⟨⟨⟨hlinked, hsource⟩, -⟩, hpending⟩, hpassed⟩ := hhears
  rw [List.contains_iff_mem] at hlinked
  rcases hpeer with rfl | hbeside
  -- The update is caused by the edited node
  · have hentry := mem_line_next hf
    exact hsource (h.guarded entry hentry (Or.inr (h.beside hfate hfollows hlinked)))
  -- What is beside it has been passed, and does not read the node
  · have hne : peer ≠ n.id := fun he => hc.id_not_mem_linked hmem (he ▸ hlinked)
    have hpasses : ((e.withFlight rest).counted n).passes.any (·.1 == peer) = true := by
      rcases h.awaited hf hbeside with he | hwaits | hpassed
      · exact absurd (he.trans hid.symm) hne
      · have hnot : (e.withFlight rest).scheduler.isPending peer = false := hpending
        rw [hwaits] at hnot
        cases hnot
      · exact any_passes_counted (Or.inr hpassed)
    rw [hpasses, Bool.true_and, Bool.not_eq_false', List.contains_iff_mem, hc.mem_successors]
      at hpassed
    rw [dependencies_of_layout h.layout] at hpassed
    exact hshelters peer n.id hbeside.follows hbeside.linked hfollows hne hpassed.2

/-- An update that evaluates a node keeps the edited one sheltered. -/
theorem evaluated (h : Sheltered settings e₀ a e) (ht : Touched settings e₀ a)
    (hshelters : e₀.Shelters a.id) (hf : e.scheduler.inFlight = entry :: rest)
    (hu : Updated (e.withFlight rest) entry e')
    (hfate : (e.withFlight rest).fate entry = .evaluated n) :
    (∀ x ∈ e'.scheduler.line, x.node = a.id ∨ e₀.Beside a.id x.node → x.source = some a.id) ∧
      ∀ c, e₀.Beside a.id c →
        e'.scheduler.isPending c = true ∨ e'.passes.any (·.1 == c) = true := by
  have hc : Coherent settings .immediate (e.withFlight rest) := h.coherent.congr rfl
  have hconfined : Confined settings e₀ a (e.withFlight rest) := h.toConfined.congr hc rfl
  obtain ⟨hmem, hid⟩ := Registry.mem_of_find? (evaluates_of_fate hfate).found
  obtain ⟨-, v, xs, hv, hline, -, hmap⟩ := hu.passing hc hfate (h.roomy.withFlight hf)
  obtain ⟨-, hpasses⟩ := hu.evaluated hfate
  refine ⟨fun x hx => ?_, fun c hc => ?_⟩
  · rw [hline] at hx
    rcases List.mem_append.mp hx with hx | hx
    · exact h.guarded x (mem_line hf hx)
    · intro hpeer
      have hnode : x.node ∈ xs.map (·.node) := List.mem_map_of_mem hx
      rw [hmap] at hnode
      split at hnode
      · next hnew =>
        have hfollows := hconfined.follows ht hfate
          (fun hna => absurd hna (h.unevaluated hf hfate)) hv hnew
        have hunheard := h.unheard hshelters hf hfate hfollows hpeer
        exact absurd (hunheard.symm.trans (List.mem_filter.mp hnode).2) Bool.false_ne_true
      · cases hnode
  · rw [hpasses, Scheduler.isPending_iff, hline, List.map_append]
    rcases h.awaited hf hc with rfl | hpending | hpassed
    · exact Or.inr (any_passes_counted (Or.inl hid.symm))
    · exact Or.inl (List.mem_append_left _ (Scheduler.isPending_iff.mp hpending))
    · exact Or.inr (any_passes_counted (Or.inr hpassed))

theorem updated (h : Sheltered settings e₀ a e) (ht : Touched settings e₀ a)
    (hshelters : e₀.Shelters a.id) (hf : e.scheduler.inFlight = entry :: rest)
    (hu : Updated (e.withFlight rest) entry e') : Sheltered settings e₀ a e' := by
  have hc : Coherent settings .immediate (e.withFlight rest) := h.coherent.congr rfl
  have hconfined : Confined settings e₀ a (e.withFlight rest) := h.toConfined.congr hc rfl
  have hconfined' : Confined settings e₀ a e' := hconfined.updated ht hu
    fun n hfate hna => absurd hna (h.unevaluated hf hfate)
  have hunderway := h.underway.updated hf hu
  have hlayout : e'.layout = e₀.layout := hu.layout.trans h.layout
  have hroomy : Roomy e'.registry.ids e' := (h.roomy.withFlight hf).updated hc hu
  rcases hu.ends with ⟨hfate, rfl⟩ | ⟨n, -, rfl⟩ | ⟨n, hfate⟩
  · refine ⟨hconfined', hunderway, hlayout, hroomy, fun x hx => h.guarded x (mem_line hf hx),
      fun _ c hbeside => (h.awaited hf hbeside).resolve_left ?_⟩
    rintro rfl
    exact h.fate hf hbeside hfate
  · refine ⟨hconfined', hunderway, hlayout, hroomy, fun x hx => absurd hx List.not_mem_nil,
      fun hrunning => ?_⟩
    cases hrunning
  · obtain ⟨hguarded, hheard⟩ := h.evaluated ht hshelters hf hu hfate
    exact ⟨hconfined', hunderway, hlayout, hroomy, hguarded, fun _ => hheard⟩

theorem looped (h : Sheltered settings e₀ a e) : Sheltered settings e₀ a e.looped :=
  ⟨h.toConfined.congr (h.coherent.congr rfl) rfl, h.underway.looped, h.layout,
    ⟨h.roomy.nodup, h.roomy.registered, h.roomy.room, h.roomy.moment⟩, h.guarded, h.heard⟩

theorem taken (h : Sheltered settings e₀ a e) (hf : e.scheduler.inFlight = []) :
    Sheltered settings e₀ a e.taken := by
  obtain ⟨hroomy, hperm, -⟩ := h.roomy.taken hf
  refine ⟨h.toConfined.congr (h.coherent.congr rfl) rfl, h.underway.taken, h.layout, hroomy,
    fun x hx => h.guarded x (hperm.mem_iff.mp hx), fun hrunning c hbeside => ?_⟩
  refine (h.heard hrunning c hbeside).imp_left fun hpending => ?_
  rw [Scheduler.isPending_iff] at hpending ⊢
  exact (hperm.map _).mem_iff.mpr hpending

end Sheltered

/-- A whole drain in which the edited node is sheltered changes only what follows it. -/
theorem Drains.sheltered (hd : Drains e us e') (ht : Touched settings e₀ a)
    (hshelters : e₀.Shelters a.id) (h : Sheltered settings e₀ a e) :
    Confined settings e₀ a e' := by
  induction hd with
  | done => exact h.toConfined
  | update flight updated _ ih =>
    exact ih (h.updated ht hshelters flight updated)
  | batch flight _ _ ih => exact ih (h.looped.taken flight)

/-! ## Nodes and their variables -/

/-- The variable of each node is bound. -/
def Known (e : Engine) : Prop :=
  ∀ n ∈ e.registry.nodes, e.bindings.any (·.1 == n.id) = true

theorem any_bindNodes_self {vs : List (String × String)} {nodes : List OutputNode}
    (hn : n ∈ nodes) : (bindNodes vs nodes).any (·.1 == n.id) = true := by
  induction nodes generalizing vs with
  | nil => cases hn
  | cons m nodes ih =>
    rcases List.mem_cons.mp hn with rfl | hn
    · refine any_bindNodes ?_ nodes
      dsimp only
      split
      · next hbound => exact hbound
      · rw [List.any_append, List.any_cons, beq_self_eq_true, Bool.true_or, Bool.or_true]
    · exact ih hn

/-- To bind one more field unbinds no node. -/
theorem Known.bound (h : e.Known) (name : String) : (e.bound name).Known := by
  have hbound : ∀ n ∈ e.registry.nodes,
      (e.bindings ++ [(variableName name, name)]).any (·.1 == n.id) = true := by
    intro n hn
    rw [List.any_append, h n hn, Bool.true_or]
  rcases bound_cases e name with heq | ⟨rows, -, heq⟩ | heq
  · rw [heq]
    exact h
  · rw [heq]
    exact hbound
  · rw [heq]
    exact hbound

theorem lasts_known : Lasts settings mode Known where
  congr h hholdings := by
    simp only [holdings, Prod.mk.injEq] at hholdings
    obtain ⟨-, -, hregistry, hbindings, -⟩ := hholdings
    rw [Known, hregistry, hbindings]
    exact h
  rescan _ _ := by
    intro n hn
    obtain ⟨m, hm, linked, rfl⟩ := exists_of_mem_rescan hn
    rw [bindings_rescan_eq]
    exact any_bindNodes_self (n := m) hm
  withValue _ _ _ h := by
    intro m' hm'
    obtain ⟨m, hm, rfl⟩ := Registry.mem_modify.mp hm'
    split
    · exact h m hm
    · exact h m hm
  bound name h := h.bound name

theorem known_of_reachable {c : Running} (h : Reachable settings mode c) : c.state.Known :=
  lasts_known.used (fun _ _ _ _ _ hn => absurd hn List.not_mem_nil) (fun _ hknown _ _ => hknown)
    h.used

/-! ## Editing an output -/

theorem tree_edited (e : Engine) (name : String) (user : Bool) :
    (e.edited name user).tree = e.tree := by
  unfold edited
  split
  · rfl
  · rfl

/-- An output keeps its text when it is edited if it does not follow itself, or if whoever could let
it be computed anew hears of the edit only, with room for all of them. -/
def Safe (settings : Settings) (e : Engine) (a : String) : Prop :=
  ¬ Relation.TransGen e.registry.dependencies.Reads a a ∨
    (e.registry.nodes.length : Int) ≤ settings.maxQueue ∧ e.Shelters a

theorem Confined.refl (hc : Coherent settings .immediate e) (a : OutputNode) :
    Confined settings e a e :=
  ⟨hc, rfl, fun _ _ => rfl, fun _ _ => rfl, rfl⟩

/-- A drain that begins with all readers of a node shelters it. -/
theorem Beginning.sheltered {ids : List String} {priority : Priority}
    (hc : Coherent settings .immediate e) (hshelters : e.Shelters a.id)
    (hids : ∀ c, e.registry.dependencies.Reads c a.id → c ∈ ids)
    (h : Beginning settings e ids priority (some a.id) none e') :
    Sheltered settings { e with scope := none } a e' := by
  have hc₀ : Coherent settings .immediate { e with scope := none } := hc.congr rfl
  have hholdings : e'.holdings = ({ e with scope := none } : Engine).holdings := by
    obtain ⟨scheduler, ns, heq⟩ := h.eq
    rw [heq]
    rfl
  refine ⟨(Confined.refl hc₀ a).congr h.underway.coherent hholdings, h.underway, h.layout, h.roomy,
    fun x hx _ => (h.entries x hx).2, fun _ c hbeside => Or.inl ?_⟩
  rw [Scheduler.isPending_iff, h.nodes]
  exact hids c (hshelters.reads hbeside.follows hbeside.linked)

/-- A drain that begins with the readers of a safe node does not write to its field. -/
theorem runs_safe (hs : settings.InRange)
    (hmost : settings.historySize ≤ ConvergenceDetector.maxHistory)
    {answer : Engine → Ask → Reply Response EngineError}
    (hq : e.Quiet) (hp : e.phase ≠ .evaluating) (ht : Touched settings e a)
    (hsafe : Safe settings e a.id)
    {ids : List String} (hnodup : ids.Nodup)
    (hids : ∀ c, c ∈ ids ↔ e.registry.dependencies.Reads c a.id)
    (calm : Calm answer (after [] (e.schedule ids .normal (some a.id) none).drain)) :
    ∃ us e', Runs (among answer) updates
        (after [] (e.schedule ids .normal (some a.id) none).drain) us
        ⟨e', [], .returned default⟩ ∧ e'.tree.read a.field = e.tree.read a.field := by
  have hc := ht.coherent
  have ht₀ : Touched settings { e with scope := none } a :=
    ⟨hc.congr rfl, ht.mem, ht.candid, ht.still⟩
  obtain ⟨us, e', ns, hd, -, hruns⟩ := runs_cycle hs hmost hc hq calm
  have hconfined : Confined settings { e with scope := none } a e' := by
    rcases hsafe with hfree | ⟨hroom, hshelters⟩
    · refine hd.confined ht₀ hfree ((Confined.refl ht₀.coherent a).congr ?_ ?_)
      · exact (underway_schedule hc hq ids .normal (some a.id) none).taken.coherent
      · exact holdings_schedule e ids .normal (some a.id) none
    · have hbegun := beginning_schedule hc hq hp hroom hnodup
        (fun c hc => Registry.ids_dependencies e.registry ▸ ((hids c).mp hc).mem) .normal
        (some a.id) none
      exact hd.sheltered ht₀ hshelters
        ((hbegun.sheltered hc hshelters fun c => (hids c).mpr).taken hbegun.flight)
  exact ⟨us, e'.finished ns, hruns, hconfined.read⟩

/-- What does not follow an output is still when that is edited, if it was up to date. -/
theorem touched_edited (hc : Coherent settings .immediate e) (hcandid : e.registry.Candid)
    (ha : a ∈ e.registry.nodes)
    (hconsistent : ∀ n ∈ e.registry.nodes,
      ¬ Relation.TransGen e.registry.dependencies.Reads n.id a.id →
        n.evaluated = true ∧ e.UpToDate n.id)
    {value : Value} {tree : FormTree} (ht : e.tree.setValue a.field value = .ok tree)
    (user : Bool) : Touched settings (({ e with tree } : Engine).edited a.field user) a := by
  obtain ⟨hregistry, -⟩ := registry_edited { e with tree } a.field user
  have hc' := hc.withTree (hc.tree.setValue ht)
  have hstill : ∀ n ∈ e.registry.nodes,
      ¬ Relation.TransGen e.registry.dependencies.Reads n.id a.id →
        (({ e with tree } : Engine).edited a.field user).Still n.id := by
    intro n hn hnot
    obtain ⟨hevaluated, m, v, hconfirms⟩ := hconsistent n hn hnot
    obtain rfl : n = m := Option.some.inj ((Registry.find?_of_mem hc.ids hn).symm.trans hconfirms.1)
    have hconfirms' : ({ e with tree } : Engine).Confirms n.id n v :=
      hconfirms.congr hc.toSound hc'.toSound rfl rfl fun name hname => resolve_setValue hc ht <| by
        rw [← (hc.nodes a ha).id_eq]
        exact (not_follows_of_uses hcandid hn (List.mem_map_of_mem ha) hnot hname).1
    exact ⟨n, v, hconfirms'.edited a.field user, hevaluated⟩
  refine ⟨hc'.edited a.field user, ?_, ?_, ?_⟩
  · rw [hregistry]
    exact ha
  · rw [hregistry]
    exact hcandid
  · rw [hregistry]
    exact hstill

theorem mem_dependentsOf_iff_reads (hc : Coherent settings mode e) {c a : String}
    (ha : a ∈ e.registry.ids) :
    c ∈ e.links.dependentsOf a ↔ e.registry.dependencies.Reads c a := by
  rw [hc.mem_dependentsOf]
  constructor
  · rintro ⟨n, hn, rfl, hread⟩
    exact reads_of_mem hn ha hread
  · rintro ⟨-, p, hp, rfl, hread⟩
    obtain ⟨n, hn, rfl⟩ := List.mem_map.mp hp
    exact ⟨n, hn, rfl, hread⟩

/-- An edit of an output in an idle engine is handled to its end, and the field shows what was
entered, if the links are those of the nodes, whatever does not follow the output is up to date, and
the output does not follow itself or is sheltered. -/
theorem edit_kept {place : String} {entries : List (String × Data)}
    (hsettings : Settings.ofEntries place entries = .ok settings)
    (hmost : settings.historySize ≤ ConvergenceDetector.maxHistory)
    {answer : Engine → Ask → Reply Response EngineError} {r : Reply Response EngineError}
    (reachable : Reachable settings .immediate ⟨e, [], r⟩) (idle : e.phase ≠ .evaluating)
    (attached : e.attached = true) (untimed : e.debounces = false) (linked : e.Linked)
    (consistent : ∀ n ∈ e.registry.nodes,
      ¬ Relation.TransGen e.registry.dependencies.Reads n.id a.id →
        n.evaluated = true ∧ e.UpToDate n.id)
    (candid : e.registry.Candid) (edited : a ∈ e.registry.nodes) (safe : Safe settings e a.id)
    {value : Value} {user : Bool} {tree : FormTree}
    (change : e.tree.setValue a.field value = .ok tree)
    (calm : Calm answer (after [] (e.perform (.setValue a.field value user)))) :
    ∃ text us e', value.plainText = .ok text ∧ Runs (among answer) updates
        (after [] (e.perform (.setValue a.field value user))) us ⟨e', [], .returned default⟩ ∧
      e'.tree.read a.field = some text := by
  have hs := Settings.inRange_of_ofEntries hsettings
  obtain ⟨hsound, -⟩ := steady_of_reachable reachable
  have hc : Coherent settings .immediate e := ⟨hsound, linked⟩
  obtain ⟨text, htext, hshown⟩ := FormTree.read_setValue_self change
  have hid : a.id = variableName a.field := (hc.nodes a edited).id_eq
  have hbound : e.bindings.any (·.1 == variableName a.field) = true :=
    hid ▸ known_of_reachable reachable a edited
  have hmem : a.id ∈ e.registry.ids := List.mem_map_of_mem edited
  rw [perform_setValue hc attached untimed change hbound, ← hid,
    if_pos (Registry.contains_iff.mpr hmem)] at calm ⊢
  have htouched := touched_edited hc candid edited consistent change user
  have hprogress := progress_edited { e with tree } a.field user
  obtain ⟨hregistry, hlinks⟩ := registry_edited { e with tree } a.field user
  have hread : (({ e with tree } : Engine).edited a.field user).tree.read a.field =
      some text := by
    rw [tree_edited]
    exact hshown
  have hq : (({ e with tree } : Engine).edited a.field user).Quiet :=
    (quiet_of_reachable reachable idle).congr hprogress
  have hp : (({ e with tree } : Engine).edited a.field user).phase ≠ .evaluating := by
    rw [show (({ e with tree } : Engine).edited a.field user).phase = e.phase from
      congrArg (·.2.1) hprogress]
    exact idle
  generalize ({ e with tree } : Engine).edited a.field user = e₁ at *
  have hregistry : e₁.registry = e.registry := hregistry
  have hlinks : e₁.links = e.links := hlinks
  have hsafe : Safe settings e₁ a.id := by
    unfold Safe Shelters at safe ⊢
    rw [hregistry, hlinks]
    exact safe
  have hids : ∀ c, c ∈ e.links.dependentsOf a.id ↔ e₁.registry.dependencies.Reads c a.id := by
    intro c
    rw [hregistry]
    exact mem_dependentsOf_iff_reads hc hmem
  obtain ⟨us, e', hruns, hkept⟩ :=
    runs_safe hs hmost hq hp htouched hsafe (hc.nodup_order.filter _) hids calm
  exact ⟨text, us, e', htext, hruns, hkept.trans hread⟩

/-- Two outputs that are computed from each other, and one that shows a field. -/
def pairTree : FormTree :=
  (((({} : FormTree).withField "y" "3" "").withOutput { id := "a", expression := "b + 1" }
    "").withOutput { id := "b", expression := "a - 1" } "").withOutput
    { id := "c", expression := "y * 2" } ""

theorem proper_pairTree : pairTree.Proper :=
  ((((FormTree.proper_empty false).withField _ _ _).withOutput _ _).withOutput _ _).withOutput _ _

/-- Two outputs that are computed from each other, and one that shows what both of them read. -/
def sharedTree : FormTree :=
  ((({} : FormTree).withOutput { id := "a", expression := "b / 2" } "").withOutput
    { id := "b", expression := "a" } "").withOutput { id := "c", expression := "b" } ""

theorem proper_sharedTree : sharedTree.Proper :=
  (((FormTree.proper_empty false).withOutput _ _).withOutput _ _).withOutput _ _

/-- The configuration when an engine was attached to a form. -/
def attachedTo (t : FormTree) : Running :=
  (among fun _ _ => .returned default).run 200
    (after [] ((Engine.create t {} .immediate false).perform (.attach true)))

theorem reachable_attachedTo {t : FormTree} (ht : t.Proper)
    (hstack : (attachedTo t).stack.isEmpty = true)
    (hreply : (attachedTo t).reply = .returned default) :
    Reachable {} .immediate ⟨(attachedTo t).state, [], .returned default⟩ :=
  (((Reachable.create ht false).perform (.attach true)).used.runs (.ended hstack hreply)).reachable

theorem attachedTo_ends : ∀ t ∈ [pairTree, sharedTree],
    (attachedTo t).stack.isEmpty = true ∧ (attachedTo t).reply = .returned default := by
  decide +kernel

/-- The configuration when the output was edited. -/
def editedIn (t : FormTree) (text : String) : Running :=
  (among fun _ _ => .returned default).run 200
    (after [] ((attachedTo t).state.perform (.setValue "a" (.text text) true)))

/-- An attached engine is up to date, idle and handles changes at once. -/
theorem attachedTo_ready : ∀ t ∈ [pairTree, sharedTree],
    (attachedTo t).state.phase = .idle ∧ (attachedTo t).state.attached = true ∧
      (attachedTo t).state.debounces = false ∧ (attachedTo t).state.Linked ∧
      (∀ n ∈ (attachedTo t).state.registry.nodes,
        n.evaluated = true ∧ (attachedTo t).state.UpToDate n.id) ∧
      (∀ n ∈ (attachedTo t).state.registry.nodes, ∀ id ∈ (attachedTo t).state.registry.ids,
        id ∉ Expr.wordsRead n.expression) ∧
      ∃ n ∈ (attachedTo t).state.registry.nodes, n.id = "a" ∧ n.field = "a" := by
  decide +kernel

theorem safe_pairTree : Safe {} (attachedTo pairTree).state "a" := by
  refine Or.inr ⟨by decide +kernel, fun c p hc _ hp hne => ?_⟩
  have hall : ∀ c ∈ (attachedTo pairTree).state.registry.ids,
      ∀ p ∈ (attachedTo pairTree).state.registry.ids, c ≠ "a" → p ≠ "a" → c ≠ p →
        ¬ (attachedTo pairTree).state.registry.dependencies.Reads c p := by
    decide +kernel
  exact hall c (mem_of_transGen hc.2) p (mem_of_transGen hp.2) hc.1 hp.1 hne

/-- Of two outputs that are computed from each other the edited one keeps its text. -/
theorem edit_kept_pair :
    ∃ text us e', (Value.text "5").plainText = .ok text ∧
      Runs (among fun _ _ => .returned default) updates
        (after [] ((attachedTo pairTree).state.perform (.setValue "a" (.text "5") true))) us
        ⟨e', [], .returned default⟩ ∧
      e'.tree.read "a" = some text := by
  have hsettings : Settings.ofEntries "" [] = .ok {} := rfl
  obtain ⟨hstack, hreply⟩ := attachedTo_ends pairTree (by simp)
  obtain ⟨hidle, hattached, huntimed, hlinked, hconsistent, hcandid, n, hn, hid, hfield⟩ :=
    attachedTo_ready pairTree (by simp)
  have hcalm : endsSmoothly (fun _ _ => .returned default) 200
      (after [] ((attachedTo pairTree).state.perform (.setValue "a" (.text "5") true))) = true := by
    decide +kernel
  have hkept : ∃ text us e', (Value.text "5").plainText = .ok text ∧
      Runs (among fun _ _ => .returned default) updates
        (after [] ((attachedTo pairTree).state.perform (.setValue n.field (.text "5") true))) us
        ⟨e', [], .returned default⟩ ∧
      e'.tree.read n.field = some text := edit_kept hsettings (by decide)
    (reachable_attachedTo proper_pairTree hstack hreply) (by rw [hidle]; decide) hattached huntimed
    hlinked (fun n hn _ => hconsistent n hn) hcandid hn (by rw [hid]; exact safe_pairTree)
    (by rw [hfield]; exact if_neg (by decide +kernel))
    (by rw [hfield]; exact calm_of_endsSmoothly hcalm)
  rw [hfield] at hkept
  exact hkept

/-- Each cycle through a node is a mutual reference with another one, or one to itself. -/
def Mutual (r : Registry) (a : String) : Prop :=
  ∀ cycle, (a :: cycle).Nodup → (a :: cycle).IsChain r.dependencies.Reads →
    r.dependencies.Reads ((a :: cycle).getLast (List.cons_ne_nil a cycle)) a → cycle.length ≤ 1

theorem mutual_sharedTree : Mutual (attachedTo sharedTree).state.registry "a" := by
  have hall : ∀ x ∈ (attachedTo sharedTree).state.registry.ids,
      ∀ y ∈ (attachedTo sharedTree).state.registry.ids,
        (attachedTo sharedTree).state.registry.dependencies.Reads "a" x →
        (attachedTo sharedTree).state.registry.dependencies.Reads x y → y = "a" := by
    decide +kernel
  intro cycle hnodup hchain _
  match cycle with
  | [] => exact Nat.zero_le 1
  | [x] => exact Nat.le_refl 1
  | x :: y :: rest =>
    obtain ⟨hax, hchain⟩ := List.isChain_cons_cons.mp hchain
    obtain ⟨hxy, -⟩ := List.isChain_cons_cons.mp hchain
    have hx := hax.1
    have hy := hxy.1
    rw [Registry.ids_dependencies] at hx hy
    have hya := hall x hx y hy hax hxy
    subst hya
    simp at hnodup

/-- An output on a mutual reference loses the text that was entered, when another output shows what
both of them read: that is linked with the edited one, and does not hear of the edit from it. -/
theorem edit_overwritten :
    ∃ entries settings e r a tree, Settings.ofEntries "" entries = .ok settings ∧
      settings.historySize ≤ ConvergenceDetector.maxHistory ∧
      Reachable settings .immediate ⟨e, [], r⟩ ∧ e.phase = .idle ∧ e.attached = true ∧
      e.debounces = false ∧ e.Linked ∧
      (∀ n ∈ e.registry.nodes, n.evaluated = true ∧ e.UpToDate n.id) ∧ e.registry.Candid ∧
      a ∈ e.registry.nodes ∧ Mutual e.registry a.id ∧
      e.tree.setValue a.field (.text "4") = .ok tree ∧
      Calm (fun _ _ => .returned default)
        (after [] (e.perform (.setValue a.field (.text "4") true))) ∧
      ∃ us e', Runs (among fun _ _ => .returned default) updates
          (after [] (e.perform (.setValue a.field (.text "4") true))) us
          ⟨e', [], .returned default⟩ ∧
        e'.tree.read a.field = some "2" := by
  obtain ⟨hstack, hreply⟩ := attachedTo_ends sharedTree (by simp)
  obtain ⟨hidle, hattached, huntimed, hlinked, hconsistent, hcandid, n, hn, hid, hfield⟩ :=
    attachedTo_ready sharedTree (by simp)
  have hends : endsSmoothly (fun _ _ => .returned default) 200
      (after [] ((attachedTo sharedTree).state.perform (.setValue "a" (.text "4") true))) = true ∧
      (editedIn sharedTree "4").stack.isEmpty = true ∧
      (editedIn sharedTree "4").reply = .returned default ∧
      (editedIn sharedTree "4").state.tree.read "a" = some "2" := by
    decide +kernel
  obtain ⟨hcalm, hstack', hreply', hread⟩ := hends
  refine ⟨[], {}, _, _, n, _, rfl, by decide, reachable_attachedTo proper_sharedTree hstack hreply,
    hidle, hattached, huntimed, hlinked, hconsistent, hcandid, hn,
    by rw [hid]; exact mutual_sharedTree, by rw [hfield]; exact if_neg (by decide +kernel),
    by rw [hfield]; exact calm_of_endsSmoothly hcalm, ?_⟩
  rw [hfield]
  exact ⟨_, _, .ended (n := 200) hstack' hreply', hread⟩

end Engine

end LiveForm
