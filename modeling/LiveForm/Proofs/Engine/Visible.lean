import LiveForm.Proofs.Engine.Lasting

/-!
# What a field shows of an accepted value

An accepted value is written to its field unless its text is the one that the engine wrote last.
So the field shows it, but for one case: the text that the engine wrote last is the text of the new
value too, and in the meantime the field came to show something else.
-/

namespace LiveForm.Engine

open Machine (after Runs)

variable {settings : Settings} {mode : YieldMode} {e e' : Engine} {n : OutputNode} {v : Value}
  {entry : QueueEntry} {text : String}

/-! ## Announcing a value -/

/-- A value that was accepted, at the moment when the watchers of its node are told. -/
structure Announcement where
  engine : Engine
  node : String
  old : Value
  new : Value

/-- The value that a move announces. -/
def announcement? : Move → Option Announcement
  | .call e (.own (.watchers node old new _) :: _) => some ⟨e, node, old, new⟩
  | _ => none

/-- Only the evaluation of a node announces a value, the one that was computed, when it was
stored. -/
theorem exists_of_announced (hc : Sound settings mode e) {a : Announcement}
    (h : announcement? (e.process entry) = some a) :
    ∃ n judged watchers, e.fate entry = .evaluated n ∧ (e.counted n).Judged n judged ∧
      a.new.Displayable ∧ judged.Stored n a.new a.engine ∧ a.node = n.id ∧ a.old = n.lastValue ∧
      e.process entry =
        .call a.engine [.own (.watchers n.id a.old a.new watchers), .own (.propagate entry)] := by
  rw [process_eq] at h ⊢
  cases hfate : e.fate entry with
  | passedOver =>
    rw [hfate] at h
    cases h
  | brokenOff n =>
    rw [hfate] at h
    cases h
  | evaluated n =>
    rw [hfate] at h
    dsimp only at h ⊢
    have hm := (e.counted n).evaluated_evaluateNode n entry
    generalize (e.counted n).evaluateNode n entry = m at hm h ⊢
    cases hm with
    | failed err e' value judged => cases h
    | tooLong v e' value full judged => cases h
    | keptOut v e' value room out judged => cases h
    | accepted v judged value room new hjudged =>
      have hv := displayable_of_computed value
      obtain ⟨stored, watchers, hstored, heq⟩ :=
        accept_eq entry hv ((hc.counted n).judged hjudged).writing
      rw [heq] at h ⊢
      cases h
      exact ⟨n, judged, watchers, rfl, hjudged, hv, hstored, rfl, rfl, rfl⟩

/-! ## The field -/

/-- A field shows a value that was stored just if its text was not thought to be there already while
the field showed another one. -/
theorem read_stored_iff (hstored : e.Stored n v e')
    (htext : (v.display e.locale n.format).1 = .ok text) (happly : n.autoApply = true)
    (hfield : (e.tree.find? n.field).isSome = true) :
    e'.tree.read n.field = some text ↔
      (n.lastWritten = some text → e.tree.read n.field = some text) := by
  obtain ⟨written, ns, rfl, rfl⟩ := hstored
  cases hwrite : e.toWrite n v with
  | none =>
    have hthere := shown_of_toWrite_none hwrite happly htext
    cases hlast : n.lastWritten with
    | none =>
      rw [hlast] at hthere
      have hread : e.tree.read n.field = some text := hthere
      simp [hread]
    | some last =>
      rw [hlast] at hthere
      cases hthere
      simp
  | some written =>
    obtain ⟨-, hdisplay⟩ := display_of_toWrite hwrite
    obtain rfl : text = written := by simpa [htext] using hdisplay
    have hread : (e.tree.write n.field text).read n.field = some text :=
      FormTree.read_write_self hfield
    -- It would not have been written if it were the text written last
    have hnew : n.lastWritten ≠ some text := by
      intro hlast
      simp [toWrite, htext, hlast] at hwrite
    simp [hread, hnew]

/-- When the watchers were told and the change was passed on, or could not be, the form is as it
was. -/
theorem runs_told (below : List (Activity Frame Ask))
    (answer : Engine → Ask → Reply Response EngineError) (e : Engine) (entry : QueueEntry)
    (id : String) (old new : Value) (ws : List Nat) :
    ∃ e' r, e'.tree = e.tree ∧ Runs (among answer) updates
      (after below (.call e [.own (.watchers id old new ws), .own (.propagate entry)])) []
      ⟨e', below, r⟩ := by
  obtain ⟨ns, hwatchers⟩ := runs_watchers (.own (.propagate entry) :: below) answer id old new ws e
  obtain ⟨e', r, heq, hqueued⟩ := propagate_reply { e with notices := ns } entry
  have hleft := belongings_queued hqueued
  simp only [belongings, Prod.mk.injEq] at hleft
  refine ⟨e', r, hleft.2.1, runs_own rfl (hwatchers.trans (runs_own rfl ?_))⟩
  show Runs _ _ (after below (propagate { e with notices := ns } entry)) _ _
  rw [heq]
  exact .refl _

/-- Whatever was done to the engine and to the form before, the field of an output with a new value
shows it when the watchers are told, unless the engine thinks so wrongly: the text of the new value
is the one that it wrote last, and the field has come to show another one since.  The rest of the
processing leaves the form as it is, unless a watcher does something, and it ends well unless the
links are those of an earlier reading. -/
theorem accepted_shown {c : Running}
    (arises : Arises settings mode (fun _ => True) (fun _ _ => True) c) {a : Announcement}
    (accepted : announcement? (c.state.process entry) = some a) :
    ∃ n text, c.state.registry.find? a.node = some n ∧ a.old = n.lastValue ∧
      (a.new.display c.state.locale n.format).1 = .ok text ∧
      (n.autoApply = true → (c.state.tree.find? n.field).isSome = true →
        (a.engine.tree.read n.field = some text ↔
          (n.lastWritten = some text → c.state.tree.read n.field = some text))) ∧
      ∀ answer below, ∃ e' r, e'.tree = a.engine.tree ∧
        Runs (among answer) updates (after below (c.state.process entry)) [] ⟨e', below, r⟩ ∧
        (c.state.Linked → r = .returned default) := by
  have hc := arises.sound
  obtain ⟨n, judged, watchers, hfate, hjudged, hv, hstored, hnode, hold, hmove⟩ :=
    exists_of_announced hc accepted
  have hfound := (evaluates_of_fate hfate).found
  obtain ⟨-, hid⟩ := Registry.mem_of_find? hfound
  have htree : judged.tree = c.state.tree := hjudged.unseen tree fun _ _ _ => rfl
  have hlocale : judged.locale = c.state.locale := hjudged.unseen locale fun _ _ _ => rfl
  obtain ⟨text, htext⟩ := hv.display c.state.locale n.format
  refine ⟨n, text, ?_, hold, htext, fun happly hfield => ?_, fun answer below => ?_⟩
  · rw [hnode, hid]
    exact hfound
  · rw [← htree] at hfield ⊢
    rw [← hlocale] at htext
    exact read_stored_iff hstored htext happly hfield
  · have hannounced := announcing_stored hjudged hstored
    rw [hmove]
    by_cases hlinked : c.state.Linked
    · have hc' := (((Coherent.mk hc hlinked).counted n).judged hjudged).stored hstored
      obtain ⟨ns, hruns⟩ :=
        runs_announced below answer hc' hannounced entry n.id a.old a.new watchers
      have hleft := belongings_queued (queued_passed
        { a.engine with notices := ns, announcing := (c.state.counted n).announcing }
        { n with lastValue := a.new, evaluated := true } entry.source)
      simp only [belongings, Prod.mk.injEq] at hleft
      exact ⟨_, _, hleft.2.1, hruns, fun _ => rfl⟩
    · obtain ⟨e', r, htree', hruns⟩ :=
        runs_told below answer a.engine entry n.id a.old a.new watchers
      exact ⟨e', r, htree', hruns, fun hn => absurd hn hlinked⟩

/-! ## An output over which somebody has typed -/

/-- A length of time, and an output that shows it in whole days. -/
def timedTree : FormTree :=
  (({} : FormTree).withField "x" "1,2" "").withOutput
    { id := "a", expression := "x", format := some "days" } ""

theorem proper_timedTree : timedTree.Proper :=
  ((FormTree.proper_empty false).withField _ _ _).withOutput _ _

/-- The configuration when an operation has come to its end. -/
def performed (e : Engine) (op : Operation) : Running :=
  (among fun _ _ => .returned default).run 100 (after [] (e.perform op))

/-- An engine was attached. -/
def attachedTimed : Running :=
  performed (.create timedTree {} .immediate false) (.attach true)

/-- Somebody has typed over the output. -/
def typedOver : Running := performed attachedTimed.state (.setValue "a" (.text "99") true)

/-- The length of time is changed; the output is about to be computed. -/
def retimed (days : String) : Running :=
  (among fun _ _ => .returned default).run 1
    (after [] (typedOver.state.perform (.setValue "x" (.text days) true)))

/-- An engine that is at rest may be used again. -/
theorem arises_perform {c : Running}
    (h : Arises settings mode (fun _ => True) (fun _ _ => True) c) (hrest : c.stack.isEmpty = true)
    (op : Operation) :
    Arises settings mode (fun _ => True) (fun _ _ => True) (after [] (c.state.perform op)) := by
  obtain ⟨e, stack, r⟩ := c
  obtain rfl : stack = [] := List.isEmpty_iff.mp hrest
  exact h.perform trivial

theorem arises_retimed (days : String) :
    Arises {} .immediate (fun _ => True) (fun _ _ => True) (retimed days) := by
  have hattached : Arises {} .immediate (fun _ => True) (fun _ _ => True) attachedTimed :=
    (Arises.perform (.create proper_timedTree trivial false) trivial).run _ 100
  have htyped : Arises {} .immediate (fun _ => True) (fun _ _ => True) typedOver :=
    (arises_perform hattached (by decide +kernel) _).run _ 100
  exact (arises_perform htyped (by decide +kernel) _).run _ 1

/-- A new value with another text is shown, over what was typed. -/
theorem accepted_shown_typed :
    ∃ entry a n, (retimed "7,3").state.tree.read "a" = some "99" ∧
      announcement? ((retimed "7,3").state.process entry) = some a ∧
      (retimed "7,3").state.registry.find? a.node = some n ∧
      a.engine.tree.read n.field = some "7 days" ∧
      ∀ answer below, ∃ e' r, e'.tree = a.engine.tree ∧
        Runs (among answer) updates (after below ((retimed "7,3").state.process entry)) []
          ⟨e', below, r⟩ ∧ ((retimed "7,3").state.Linked → r = .returned default) := by
  have htyped : (retimed "7,3").state.tree.read "a" = some "99" := by decide +kernel
  have hruns : ∃ u ∈ updates (retimed "7,3"),
      ∃ a ∈ announcement? ((retimed "7,3").state.process u.entry),
      ∃ n ∈ (retimed "7,3").state.registry.find? a.node, n.autoApply = true ∧
        ((retimed "7,3").state.tree.find? n.field).isSome = true ∧
        n.lastWritten = some "1 days" ∧
        (a.new.display (retimed "7,3").state.locale n.format).1 = .ok "7 days" := by
    decide +kernel
  obtain ⟨u, -, a, ha, n, hn, happly, hfield, hlast, hdisplay⟩ := hruns
  obtain ⟨m, text, hm, -, htext, hshown, hrest⟩ := accepted_shown (arises_retimed "7,3") ha
  obtain rfl : n = m := Option.some.inj (hn.symm.trans hm)
  obtain rfl : text = "7 days" := by simpa [htext] using hdisplay
  refine ⟨u.entry, a, n, htyped, ha, hn, (hshown happly hfield).mpr ?_, hrest⟩
  simp [hlast]

/-- A new value with the text of the old one is not shown: what was typed stays. -/
theorem accepted_hidden :
    ∃ c, Arises {} .immediate (fun _ => True) (fun _ _ => True) c ∧
      ∃ entry a n, announcement? (c.state.process entry) = some a ∧
        c.state.registry.find? a.node = some n ∧ n.autoApply = true ∧
        (c.state.tree.find? n.field).isSome = true ∧
        (a.new.display c.state.locale n.format).1 = .ok "1 days" ∧
        a.engine.tree.read n.field = some "99" := by
  have hruns : ∃ u ∈ updates (retimed "1,3"),
      ∃ a ∈ announcement? ((retimed "1,3").state.process u.entry),
      ∃ n ∈ (retimed "1,3").state.registry.find? a.node, n.autoApply = true ∧
        ((retimed "1,3").state.tree.find? n.field).isSome = true ∧
        (a.new.display (retimed "1,3").state.locale n.format).1 = .ok "1 days" ∧
        a.engine.tree.read n.field = some "99" := by
    decide +kernel
  obtain ⟨u, -, a, ha, n, hn, hrest⟩ := hruns
  exact ⟨_, arises_retimed "1,3", u.entry, a, n, ha, hn, hrest⟩

end LiveForm.Engine
