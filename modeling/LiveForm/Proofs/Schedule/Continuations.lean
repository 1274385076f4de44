import LiveForm.Proofs.Machine
import LiveForm.Schedule.YieldPoint

/-!
# Continuations at a yield point

Continuations that leave further ones at the yield point where they waited themselves, and may fail.
While one of them runs, the yield point only keeps what is left there; so a continuation comes back
before the next one starts (`runs_start`), whatever the others would do.
-/

namespace LiveForm.YieldPoint

open Machine (after Runs)

/-! ## Continuations -/

/-- What a continuation does, one thing after the other.  It leaves further ones, and it shares with
the others what is remembered. -/
inductive Doing (κ μ ε : Type) where
  | done
  | fail (e : ε)
  | defer (k : κ) (next : Doing κ μ ε)
  | look (next : μ → Doing κ μ ε)
  | remember (memory : μ) (next : Doing κ μ ε)

/-- What each continuation does. -/
abbrev Family (κ μ ε : Type) := κ → Doing κ μ ε

/-- What is asked of a yield point. -/
inductive Call (κ : Type) where
  | defer (k : κ)
  | runAll

/-- A call, a frame of the yield point, a continuation that is to start, or what is left of one. -/
inductive Work (κ μ ε : Type) where
  | call (c : Call κ)
  | own (f : Frame)
  | start (k : κ)
  | doing (k : κ) (d : Doing κ μ ε)

/-- A yield point among continuations in the middle of their work. -/
abbrev Among (κ μ ε : Type) := Config (YieldPoint κ × μ) (Work κ μ ε) Answer ε

variable {κ μ ε : Type}

/-- A move of the yield point among continuations. -/
def among (memory : μ) (m : Move κ ε) : LiveForm.Move (YieldPoint κ × μ) (Work κ μ ε) Answer ε :=
  m.embed (·, memory) (Activity.elim .own .start) id

def Call.perform (y : YieldPoint κ) : Call κ → Move κ ε
  | .defer k => y.defer k
  | .runAll => y.runAll

/-- The next thing that a continuation does. -/
def Doing.step (y : YieldPoint κ) (memory : μ) (k : κ) :
    Doing κ μ ε → LiveForm.Move (YieldPoint κ × μ) (Work κ μ ε) Answer ε
  | .done => .ret (y, memory) .done
  | .fail e => .fail (y, memory) e
  | .defer k' next => .call (y, memory) [.call (.defer k'), .doing k next]
  | .look next => .call (y, memory) [.doing k (next memory)]
  | .remember memory' next => .call (y, memory') [.doing k next]

/-- A yield point among continuations.  No one catches a failure but the one who called from
outside. -/
def Family.machine (family : Family κ μ ε) : Machine (YieldPoint κ × μ) (Work κ μ ε) Answer ε
  | .call c, .returned _, (y, memory) => among memory (c.perform y)
  | .own f, .returned _, (y, memory) => among memory (y.resume f)
  | .start k, .returned _, (y, memory) => .call (y, memory) [.doing k (family k)]
  | .doing k d, .returned _, (y, memory) => d.step y memory k
  | .own f, .raised e, (y, memory) => .fail (y.unwind f, memory) e
  | .call _, .raised e, s | .start _, .raised e, s | .doing _ _, .raised e, s => .fail s e

/-! ## What is seen -/

/-- Something that happens to a continuation. -/
inductive Note (κ ε : Type) where
  | left (k : κ)
  | started (k : κ)
  | ended (k : κ)
  | failed (k : κ) (e : ε)

/-- What is about to happen. -/
def note (c : Among κ μ ε) : Option (Note κ ε) :=
  match c.stack, c.reply with
  | .call (.defer k) :: _, .returned _ => some (.left k)
  | .start k :: _, .returned _ => some (.started k)
  | .doing k .done :: _, .returned _ => some (.ended k)
  | .doing k (.fail e) :: _, .returned _ => some (.failed k e)
  | _, _ => none

/-- The continuations that were left, in this order. -/
def leftIn (notes : List (Note κ ε)) : List κ :=
  notes.filterMap fun | .left k => some k | _ => none

/-- The continuations that were started. -/
def startedIn (notes : List (Note κ ε)) : List κ :=
  notes.filterMap fun | .started k => some k | _ => none

/-- The continuations that have come back, with a failure or without. -/
def doneIn (notes : List (Note κ ε)) : List κ :=
  notes.filterMap fun | .ended k | .failed k _ => some k | _ => none

/-- No continuation is started inside another. -/
structure Serial (notes : List (Note κ ε)) : Prop where
  /-- When one starts, those that were started before have all come back. -/
  alone : ∀ before k, before ++ [.started k] <+: notes → doneIn before = startedIn before
  /-- In the end all have. -/
  done : doneIn notes = startedIn notes

@[simp] theorem leftIn_append (notes notes' : List (Note κ ε)) :
    leftIn (notes ++ notes') = leftIn notes ++ leftIn notes' :=
  List.filterMap_append

@[simp] theorem startedIn_append (notes notes' : List (Note κ ε)) :
    startedIn (notes ++ notes') = startedIn notes ++ startedIn notes' :=
  List.filterMap_append

@[simp] theorem doneIn_append (notes notes' : List (Note κ ε)) :
    doneIn (notes ++ notes') = doneIn notes ++ doneIn notes' :=
  List.filterMap_append

namespace Serial

variable {notes notes' : List (Note κ ε)}

theorem nil : Serial ([] : List (Note κ ε)) := by
  refine ⟨fun before k hprefix => ?_, rfl⟩
  cases (List.append_eq_nil_iff.mp (List.prefix_nil.mp hprefix)).2

theorem append (h : Serial notes) (h' : Serial notes') : Serial (notes ++ notes') := by
  refine ⟨fun before k hprefix => ?_, by rw [doneIn_append, startedIn_append, h.done, h'.done]⟩
  rcases List.prefix_or_prefix_of_prefix hprefix (List.prefix_append notes notes') with
    hfirst | hlater
  · exact h.alone before k hfirst
  · rcases List.prefix_concat_iff.mp hlater with rfl | ⟨rest, rfl⟩
    · exact h.alone before k (List.prefix_refl _)
    · rw [List.append_assoc, List.prefix_append_right_inj] at hprefix
      rw [doneIn_append, startedIn_append, h.done, h'.alone rest k hprefix]

theorem left (k : κ) : Serial [(.left k : Note κ ε)] := by
  refine ⟨fun before k' hprefix => ?_, rfl⟩
  cases before with
  | nil => rfl
  | cons n before => simp at hprefix

end Serial

/-! ## One continuation -/

/-- What has come of a continuation. -/
structure Deed (κ μ ε : Type) where
  left : List κ
  memory : μ
  failure : Option ε

def Doing.perform : Doing κ μ ε → μ → Deed κ μ ε
  | .done, memory => ⟨[], memory, none⟩
  | .fail e, memory => ⟨[], memory, some e⟩
  | .defer k next, memory =>
    ⟨k :: (next.perform memory).left, (next.perform memory).memory, (next.perform memory).failure⟩
  | .look next, memory => (next memory).perform memory
  | .remember memory' next, _ => next.perform memory'

/-- What happens behind the start of a continuation. -/
def Deed.rest (k : κ) (d : Deed κ μ ε) : List (Note κ ε) :=
  d.left.map .left ++ [match d.failure with | none => .ended k | some e => .failed k e]

/-- What happens while a continuation runs. -/
def Deed.story (k : κ) (d : Deed κ μ ε) : List (Note κ ε) := .started k :: d.rest k

/-- How a continuation comes back. -/
def Deed.reply (d : Deed κ μ ε) : Reply Answer ε :=
  match d.failure with
  | none => .returned .done
  | some e => .raised e

theorem leftIn_story (k : κ) (d : Deed κ μ ε) : leftIn (d.story k) = d.left := by
  have hleft : leftIn (d.left.map .left : List (Note κ ε)) = d.left := by
    rw [leftIn, List.filterMap_map]
    exact List.filterMap_some
  show leftIn (d.left.map .left ++ _) = _
  rw [leftIn_append, hleft]
  cases d.failure <;> exact List.append_nil _

theorem startedIn_story (k : κ) (d : Deed κ μ ε) : startedIn (d.story k) = [k] := by
  have hnone : startedIn (d.left.map .left : List (Note κ ε)) = [] := by
    rw [startedIn, List.filterMap_map]
    exact List.filterMap_none _
  show k :: startedIn (d.left.map .left ++ _) = _
  rw [startedIn_append, hnone]
  cases d.failure <;> rfl

theorem doneIn_story (k : κ) (d : Deed κ μ ε) : doneIn (d.story k) = [k] := by
  have hnone : doneIn (d.left.map .left : List (Note κ ε)) = [] := by
    rw [doneIn, List.filterMap_map]
    exact List.filterMap_none _
  show doneIn (d.left.map .left ++ _) = _
  rw [doneIn_append, hnone]
  cases d.failure <;> rfl

theorem Serial.story (k : κ) (d : Deed κ μ ε) : Serial (d.story k) := by
  refine ⟨fun before k' hprefix => ?_, by rw [doneIn_story, startedIn_story]⟩
  cases before with
  | nil => rfl
  | cons n before =>
    -- The story starts one continuation, and that is behind us.
    obtain ⟨rfl, -⟩ := List.cons_prefix_cons.mp hprefix
    have hsub := hprefix.sublist.filterMap fun | .started k => some k | _ => none
    have hlength : (startedIn (.started k :: before ++ [.started k'])).length ≤
        (startedIn (d.story k)).length := hsub.length_le
    rw [startedIn_story, startedIn_append] at hlength
    simp [startedIn] at hlength

/-- The yield point keeps what is left there for later. -/
def Keeps (y : YieldPoint κ) : Prop := y.mode = .immediate → y.running = true

/-- The yield point where these wait behind the others. -/
def push (y : YieldPoint κ) (ks : List κ) : YieldPoint κ := { y with waiting := y.waiting ++ ks }

theorem push_nil (y : YieldPoint κ) : y.push [] = y := by
  rw [push, List.append_nil]

theorem push_push (y : YieldPoint κ) (k : κ) (ks : List κ) :
    (y.push [k]).push ks = y.push (k :: ks) := by
  simp only [push, List.append_assoc, List.singleton_append]

theorem defer_of_keeps {y : YieldPoint κ} (h : y.Keeps) (k : κ) :
    (y.defer k : Move κ ε) = .ret (y.push [k]) .done := by
  obtain ⟨mode, waiting, running⟩ := y
  cases mode with
  | manual => rfl
  | immediate => exact if_pos (h rfl)

variable {y : YieldPoint κ}

/-- A continuation only leaves others where it waited, and comes back. -/
theorem runs_doing (family : Family κ μ ε) (hy : y.Keeps) (k : κ) (d : Doing κ μ ε) (memory : μ)
    (below : List (Work κ μ ε)) (a : Answer) :
    Runs family.machine note ⟨(y, memory), .doing k d :: below, .returned a⟩
      ((d.perform memory).rest k)
      ⟨(y.push (d.perform memory).left, (d.perform memory).memory), below,
        (d.perform memory).reply⟩ := by
  induction d generalizing y memory a with
  | done =>
    rw [Doing.perform, push_nil]
    exact Runs.step (List.cons_ne_nil _ _)
  | fail e =>
    rw [Doing.perform, push_nil]
    exact Runs.step (List.cons_ne_nil _ _)
  | defer k' next ih =>
    have hleaves : Runs family.machine note
        ⟨(y, memory), .call (.defer k') :: .doing k next :: below, .returned default⟩ [.left k']
        ⟨(y.push [k'], memory), .doing k next :: below, .returned .done⟩ := by
      have hstep : Runs family.machine note
          ⟨(y, memory), .call (.defer k') :: .doing k next :: below, .returned default⟩ [.left k']
          (after (.doing k next :: below) (among memory (y.defer k'))) :=
        Runs.step (List.cons_ne_nil _ _)
      rw [defer_of_keeps hy] at hstep
      exact hstep
    have hrest := ih (y := y.push [k']) hy memory .done
    rw [push_push] at hrest
    exact Runs.head (List.cons_ne_nil _ _) rfl (hleaves.trans hrest)
  | look next ih => exact Runs.head (List.cons_ne_nil _ _) rfl (ih memory hy memory _)
  | remember memory' next ih => exact Runs.head (List.cons_ne_nil _ _) rfl (ih hy memory' _)

theorem runs_start (family : Family κ μ ε) (hy : y.Keeps) (k : κ) (memory : μ)
    (below : List (Work κ μ ε)) (a : Answer) :
    Runs family.machine note ⟨(y, memory), .start k :: below, .returned a⟩
      (((family k).perform memory).story k)
      ⟨(y.push ((family k).perform memory).left, ((family k).perform memory).memory), below,
        ((family k).perform memory).reply⟩ := by
  have hstart : Runs family.machine note ⟨(y, memory), .start k :: below, .returned a⟩
      [.started k] ⟨(y, memory), .doing k (family k) :: below, .returned default⟩ :=
    Runs.step (List.cons_ne_nil _ _)
  exact hstart.trans (runs_doing family hy k (family k) memory below _)

end LiveForm.YieldPoint
