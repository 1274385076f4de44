import LiveForm.Proofs.Engine.Timing
import LiveForm.Proofs.Engine.Watching

/-!
# Changes that are flushed

Flushing takes all changes that rest out of the debouncer at once and then handles one after
another.  While one is handled the surroundings may be told something and do what they like, but
what was flushed is out of their reach: each change has its turn, unless the handling of one before
it fails (`handled_of_flushed`).  Even an engine that is detached in between goes on to handle them.
-/

namespace LiveForm.Engine

open Machine (after stack_after Visits)

variable {settings : Settings} {mode : YieldMode} {outside inside : Operation → Prop}
  {c c' : Running} {e : Engine} {k : Ask} {below : List (Activity Frame Ask)}
  {p : PendingWork Trigger Trigger}

/-- The change that is to be handled next. -/
def handling? (c : Running) : Option Trigger :=
  match c.stack with
  | .own (.handle t) :: _ => some t
  | _ => none

theorem mem_flushed_after (hp : p ∈ below.flatMap flushed) (m : Move) :
    p ∈ (after below m).stack.flatMap flushed := by
  rw [stack_after, List.flatMap_append]
  exact List.mem_append_right _ hp

/-- A flushed change stays flushed until it is handled. -/
theorem Happens.mem_flushed (h : Happens outside inside c c') (hgives : givesUp c = false)
    (hp : p ∈ c.stack.flatMap flushed) :
    handling? c' = some p.work ∨ p ∈ c'.stack.flatMap flushed := by
  cases h with
  | perform may => exact absurd hp List.not_mem_nil
  | resume e f below r =>
    rw [List.flatMap_cons, List.mem_append] at hp
    rcases hp with hp | hp
    · unfold flushed at hp
      split at hp
      · next rest total heq =>
        cases heq
        cases rest with
        | nil => cases hp
        | cons q rest =>
          cases r with
          | raised err => cases hgives
          | returned a =>
            rcases List.mem_cons.mp hp with rfl | hp
            · exact Or.inl rfl
            · refine Or.inr (List.mem_flatMap.mpr ⟨.own (.clock (.flushing rest total)), ?_, hp⟩)
              exact List.mem_cons_of_mem _ List.mem_cons_self
      · cases hp
    · exact Or.inr (mem_flushed_after hp _)
  | reenter may => exact Or.inr (mem_flushed_after hp _)
  | answer e k below r r' => exact Or.inr hp
  | aside beside stack r => exact Or.inr hp

/-- Whatever the surroundings do, a flushed change is handled before all is done, as long as the
handling of none fails. -/
theorem handled_of_flushed (h : Course outside inside (givesUp · = false) c c')
    (hgives : givesUp c = false) (hp : p ∈ c.stack.flatMap flushed) (hended : c'.stack = []) :
    ∃ c₁, Course outside inside (givesUp · = false) c c₁ ∧ handling? c₁ = some p.work ∧
      Course outside inside (givesUp · = false) c₁ c' := by
  induction h using Relation.ReflTransGen.head_induction_on with
  | refl =>
    rw [hended] at hp
    cases hp
  | @head c c₁ hstep hrest ih =>
    rcases hstep.1.mem_flushed hgives hp with hhandled | hp
    · exact ⟨c₁, .single hstep.1 hstep.2, hhandled, hrest⟩
    · obtain ⟨c₂, hfirst, hhandled, hlast⟩ := ih hstep.2 hp
      exact ⟨c₂, (Course.single hstep.1 hstep.2).trans hfirst, hhandled, hlast⟩

/-- When somebody who is told something detaches the engine, nothing rests any more, but what is
being flushed is handled. -/
theorem handled_of_detach (hp : p ∈ below.flatMap flushed)
    (h : Course outside inside (givesUp · = false) (after (.ask k :: below) (e.perform .detach)) c')
    (hended : c'.stack = []) :
    (e.debounces = true → (e.perform .detach).state.debouncer.pending = []) ∧
    ∃ c₁, Course outside inside (givesUp · = false)
        (after (.ask k :: below) (e.perform .detach)) c₁ ∧ handling? c₁ = some p.work ∧
      Course outside inside (givesUp · = false) c₁ c' := by
  have hbelow : p ∈ (Activity.ask k :: below).flatMap flushed := hp
  refine ⟨fun hd => ?_, handled_of_flushed h rfl (mem_flushed_after hbelow _) hended⟩
  show (if e.debounces then e.debouncer.cancelAll else e.debouncer).pending = []
  rw [if_pos hd]
  rfl

/-- Two outputs, each of which reads a field, and a field that no output reads. -/
def spareTree : FormTree :=
  ((((({} : FormTree).withField "x" "1" "").withField "y" "2" "").withField "z" "3" "").withOutput
    { id := "a", expression := "x + 1" } "").withOutput
    { id := "b", expression := "y * 2" } ""

theorem proper_spareTree : spareTree.Proper :=
  (((((FormTree.proper_empty false).withField _ _ _).withField _ _ _).withField _ _ _).withOutput
    _ _).withOutput _ _

/-- An engine that lets changes rest, attached, with a watcher of one of two outputs. -/
def watchedSpare : Running :=
  (among fun _ _ => .returned default).run 60 (after []
    (((Engine.create spareTree {} .immediate true).watch "a").2.perform (.attach true)))

/-- One of the fields was edited. -/
def editedOnce : Running :=
  after [] (watchedSpare.state.perform (.setValue "x" (.text "5") true))

/-- Then the other one was edited too. -/
def editedTwice : Running :=
  after [] (editedOnce.state.perform (.setValue "y" (.text "7") true))

/-- The changes are flushed, and the watcher is told of the first one. -/
def tellingSpare : Running :=
  (among fun _ _ => .returned default).run 5 (after [] (editedTwice.state.perform .flush))

/-- It detaches the engine, and the other change has its turn. -/
def detachedSpare : Running :=
  (among fun _ _ => .returned default).run 8
    (after tellingSpare.stack (tellingSpare.state.perform .detach))

theorem reachable_tellingSpare (hwatched : watchedSpare.stack = []) (honce : editedOnce.stack = [])
    (htwice : editedTwice.stack = []) : Reachable {} .immediate tellingSpare := by
  have hcreated : Reachable {} .immediate
      ⟨((Engine.create spareTree {} .immediate true).watch "a").2, [], .returned default⟩ :=
    .aside (.create proper_spareTree true) ⟨_, _, _, _, _, rfl⟩
  have hcourse : Course (fun _ => True) (fun _ => False) (fun _ => True)
      ⟨((Engine.create spareTree {} .immediate true).watch "a").2, [], .returned default⟩
      tellingSpare :=
    (Course.single (.perform trivial) trivial).trans <|
      (Course.runs 60 fun _ _ => trivial).trans <|
      (Course.single (.next hwatched trivial) trivial).trans <|
      (Course.single (.next honce trivial) trivial).trans <|
      (Course.single (.next htwice trivial) trivial).trans <|
      Course.runs 5 fun _ _ => trivial
  exact hcourse.reachable (fun _ h => h.elim) hcreated

/-- When a watcher detaches the engine while changes are flushed, nothing rests any more; yet the
other change is handled, and an output is written for it. -/
theorem detach_while_flushing : ∃ e k below r c c',
    Reachable {} .immediate ⟨e, .ask k :: below, r⟩ ∧ e.debounces = true ∧
      .input "y" ∈ (below.flatMap flushed).map (·.work) ∧
      (e.perform .detach).state.debouncer.pending = [] ∧
      Visits (among fun _ _ => .returned default)
        (after (.ask k :: below) (e.perform .detach)) c ∧
      c.state.attached = false ∧ handling? c = some (.input "y") ∧
      Visits (among fun _ _ => .returned default) c c' ∧ c'.stack = [] ∧
      e.tree.read "b" = some "4" ∧ c'.state.tree.read "b" = some "14" ∧
      ∃ c₁, Course (fun _ => False) (fun _ => False) (givesUp · = false)
          (after (.ask k :: below) (e.perform .detach)) c₁ ∧
        handling? c₁ = some (.input "y") ∧
        Course (fun _ => False) (fun _ => False) (givesUp · = false) c₁ c' := by
  -- One evaluation of the whole course for all that is to be known of it.
  obtain ⟨hwatched, honce, htwice, hasks, hdebounces, hflushed, hbefore, hdeaf, hhandled, hended,
      hwritten, hgives, hgives'⟩ :
      watchedSpare.stack.isEmpty = true ∧ editedOnce.stack.isEmpty = true ∧
      editedTwice.stack.isEmpty = true ∧ tellingSpare.stack.head?.any isAsk = true ∧
      tellingSpare.state.debounces = true ∧
      .input "y" ∈ (tellingSpare.stack.flatMap flushed).map (·.work) ∧
      tellingSpare.state.tree.read "b" = some "4" ∧ detachedSpare.state.attached = false ∧
      handling? detachedSpare = some (.input "y") ∧
      ((among fun _ _ => .returned default).run 20 detachedSpare).stack.isEmpty = true ∧
      ((among fun _ _ => .returned default).run 20 detachedSpare).state.tree.read "b" =
        some "14" ∧
      (∀ k ≤ 8, givesUp ((among fun _ _ => .returned default).run k
        (after tellingSpare.stack (tellingSpare.state.perform .detach))) = false) ∧
      ∀ k ≤ 20, givesUp ((among fun _ _ => .returned default).run k detachedSpare) = false := by
    decide +kernel
  have hreachable : Reachable {} .immediate tellingSpare :=
    reachable_tellingSpare (List.isEmpty_iff.mp hwatched) (List.isEmpty_iff.mp honce)
      (List.isEmpty_iff.mp htwice)
  obtain ⟨k, below, hstack⟩ := exists_of_isAsk hasks
  have hcourse : Course (fun _ => False) (fun _ => False) (givesUp · = false)
      (after (.ask k :: below) (tellingSpare.state.perform .detach))
      ((among fun _ _ => .returned default).run 20 detachedSpare) :=
    hstack ▸ (Course.runs 8 hgives).trans (Course.runs 20 hgives')
  rw [hstack] at hflushed
  obtain ⟨p, hp, hwork⟩ := List.mem_map.mp hflushed
  have hbelow : p ∈ below.flatMap flushed := hp
  obtain ⟨hdropped, c₁, hfirst, hturn, hlast⟩ :=
    handled_of_detach hbelow hcourse (List.isEmpty_iff.mp hended)
  rw [hwork] at hturn
  exact ⟨tellingSpare.state, k, below, tellingSpare.reply, detachedSpare, _, hstack ▸ hreachable,
    hdebounces, hflushed, hdropped hdebounces, hstack ▸ ⟨8, rfl⟩, hdeaf, hhandled, ⟨20, rfl⟩,
    List.isEmpty_iff.mp hended, hbefore, hwritten, c₁, hfirst, hturn, hlast⟩

end LiveForm.Engine
