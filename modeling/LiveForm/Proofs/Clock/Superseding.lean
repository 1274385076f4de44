import LiveForm.Proofs.Clock.Table

/-!
# Work that is superseded or cancelled

Scheduling a key again drops what waits under it, and so does cancelling it or all.  What is dropped
from the table has its timer cancelled and never starts.  But flushing takes all out of the table
before the first one has its turn, and what is dropped then is out of reach: it starts all the same.
Where errors break flushing off, or time passes in the middle of other things, there may be timers
besides that the table does not know of.
-/

namespace LiveForm.Debouncer

open Machine (after stack_after)

variable {κ ω ε : Type} {c₀ c c' : Running κ ω ε} {a : Event κ ω}
  {events events' : List (Running κ ω ε × Event κ ω)} {d : Debouncer κ ω}
  {stack : List (Activity (Frame κ ω) ω)} {r : Reply Answer ε} {p : PendingWork κ ω}
  {op : Operation κ ω}

/-- The operation drops what waits under a key. -/
def Operation.Drops (key : κ) : Operation κ ω → Prop
  | .schedule k _ _ | .cancel k => k = key
  | .cancelAll => True
  | _ => False

theorem allows_of_drops {key : κ} (h : op.Drops key) : d.Allows op := by
  cases op with
  | cancelTimer serial => exact h.elim
  | _ => trivial

/-- A timer is left that was set for the work, though the table does not know of it. -/
def Stray (d : Debouncer κ ω) (p : PendingWork κ ω) : Prop :=
  p ∈ awaited d.timers ∧ p ∉ d.pending

/-- Where no work fails and time passes only where nothing else is going on, the table does not know
of a timer only if its work is being flushed. -/
theorem mem_held_of_stray (h : InStep ⟨d, stack, r⟩) (free : Free stack) (hp : Stray d p) :
    p ∈ held stack := by
  obtain ⟨hawaited, hpending⟩ := hp
  cases h with
  | settled mirrored grounded =>
    exact (List.mem_append.mp (mirrored.entries.subset hawaited)).resolve_left hpending
  | firing mirrored => exact free.elim

/-- When work is cancelled its timers are live no more. -/
theorem mem_awaited_cancelTimers {ps : List (PendingWork κ ω)}
    (h : p ∈ awaited (cancelTimers d.timers ps)) : p ∈ awaited d.timers ∧ p ∉ ps := by
  rw [awaited_cancelTimers, List.mem_filter] at h
  refine ⟨h.1, fun hmem => ?_⟩
  have hserial : p.serial ∈ ps.map (·.serial) := List.mem_map_of_mem hmem
  simp [hserial] at h

/-! ## What is flushed starts -/

theorem mem_held_after (hp : p ∈ held stack) (m : Move κ ω ε) : p ∈ held (after stack m).stack := by
  rw [stack_after, held, List.flatMap_append]
  exact List.mem_append_right _ hp

variable [BEq κ]

/-- Flushed work starts or stays flushed, unless an error breaks flushing off. -/
theorem Happens.mem_held (h : Happens c a c') (gentle : Gentle (c, a)) (hp : p ∈ held c.stack) :
    p ∈ startedBy (c, a) ∨ p ∈ held c'.stack := by
  cases h with
  | perform op free allowed => exact Or.inr (mem_held_after hp _)
  | resume d f below answer =>
    cases f with
    | clock f | ring alarm =>
      have hbelow : p ∈ held below := hp
      exact Or.inr (mem_held_after hbelow _)
    | flushing rest total =>
      cases rest with
      | nil => exact Or.inr hp
      | cons q rest =>
        rcases List.mem_cons.mp hp with rfl | hp
        · exact Or.inl (List.mem_singleton_self _)
        · exact Or.inr hp
  | unwind d f below err => exact gentle.elim
  | answer d work below r r' => exact Or.inr hp

theorem Course.mem_held (h : Course c₀ events c) (gentle : ∀ e ∈ events, Gentle e)
    (hp : p ∈ held c₀.stack) : p ∈ started events ∨ p ∈ held c.stack := by
  induction h with
  | refl => exact Or.inr hp
  | tail h step ih =>
    rw [started_append, List.mem_append, or_assoc]
    exact (ih fun e he => gentle e (List.mem_append_left _ he)).imp_right
      (step.mem_held (gentle _ (by simp)))

/-! ## What is dropped is not due -/

/-- What is in the table is not being flushed. -/
theorem not_mem_held_of_pending {now : Binary64} {r₀ : Reply Answer ε}
    (h : Course ⟨{ timers := { now } }, [], r₀⟩ events ⟨d, stack, r⟩) (hp : p ∈ d.pending) :
    p ∉ held stack := by
  have hnodup : (d.pending ++ held stack).Nodup := by
    obtain ⟨l, hperm, hsub⟩ := h.subperm
    exact hperm.nodup (hsub.nodup h.serials.2.2.of_map)
  exact fun hheld => (List.nodup_append.mp hnodup).2.2 p hp p hheld rfl

variable [LawfulBEq κ]

/-- What an operation drops is due no more, but for what is being flushed and what the table does
not know of. -/
theorem held_or_stray_of_drops (hop : op.Drops p.key) (hserial : p.serial < d.timers.nextSerial)
    (hp : p ∈ due (after stack (d.perform op : Move κ ω ε))) : p ∈ held stack ∨ Stray d p := by
  have hdropped : ∀ {gone pending : List (PendingWork κ ω)} {r : Reply Answer ε},
      (p ∈ d.pending → p ∈ gone) → p ∉ pending →
      p ∈ due ⟨⟨cancelTimers d.timers gone, pending⟩, stack, r⟩ → p ∈ held stack ∨ Stray d p := by
    intro gone pending r hgone hpending hp
    rcases mem_due.mp hp with hp | hp | hp
    · obtain ⟨hawaited, hne⟩ := mem_awaited_cancelTimers hp
      exact Or.inr ⟨hawaited, fun hmem => hne (hgone hmem)⟩
    · exact absurd hp hpending
    · exact Or.inl hp
  have hcancelled : ∀ {r : Reply Answer ε},
      p ∈ due ⟨(d.cancel p.key).2, stack, r⟩ → p ∈ held stack ∨ Stray d p := by
    intro r hp
    refine hdropped (fun hmem => ?_) (fun hmem => ?_) hp
    · exact List.mem_filter.mpr ⟨hmem, beq_self_eq_true _⟩
    · simpa using (List.mem_filter.mp hmem).2
  cases op with
  | schedule key delay work =>
    obtain rfl : key = p.key := hop
    rcases mem_due_schedule hp with heq | hp
    · rw [heq] at hserial
      exact absurd hserial (Nat.lt_irrefl _)
    · exact hcancelled hp
  | cancel key =>
    obtain rfl : key = p.key := hop
    exact hcancelled hp
  | cancelAll => exact hdropped id List.not_mem_nil hp
  | flush | advance seconds | runAll | callLater delay work | cancelTimer serial => exact hop.elim

/-! ## What is dropped does not start -/

/-- Something was scheduled under a key, and then an operation drops what waits under the key.  If
it was in the table it does not start any more, whatever happens.  If it starts later, it was being
flushed, or it had a timer that the table did not know of.  There are no such timers where no work
fails and time passes only where nothing else is going on; there it starts just if it was being
flushed. -/
theorem started_of_dropped {now : Binary64} {r₀ : Reply Answer ε}
    (before : Course ⟨{ timers := { now } }, [], r₀⟩ events ⟨d, stack, r⟩)
    (scheduled : p ∈ scheduled events) (free : Free stack)
    (later : Course (after stack (d.perform op)) events' c) (drops : op.Drops p.key) :
    (p ∈ d.pending → p ∉ started events') ∧
    (p ∈ started events' → p ∈ held stack ∨ Stray d p) ∧
    ((∀ e ∈ events, Gentle e) → (p ∈ started events' → p ∈ held stack) ∧
      ((∀ e ∈ events', Gentle e) → c.stack = [] → p ∈ held stack → p ∈ started events')) := by
  have hserial : p.serial < d.timers.nextSerial := (before.serials.2.1 p scheduled).2
  have hdue : p ∈ started events' → p ∈ held stack ∨ Stray d p := by
    intro hp
    rcases later.mem_due (Or.inl hp) with hp | hp
    · exact held_or_stray_of_drops drops hserial hp
    · -- What is scheduled later has a later number
      have hstep : Happens ⟨d, stack, r⟩ (.perform op) (after stack (d.perform op)) :=
        .perform op free (allows_of_drops drops)
      have hlater := (later.serials.2.1 p hp).1
      exact absurd (Nat.lt_of_lt_of_le hserial hstep.nextSerial.1) (Nat.not_lt.mpr hlater)
  refine ⟨fun hpending hp => ?_, hdue, fun gentle => ⟨fun hp => ?_, fun gentle' hended hp => ?_⟩⟩
  · rcases hdue hp with hp | hp
    · exact not_mem_held_of_pending before hpending hp
    · exact hp.2 hpending
  · have hfresh : InStep (⟨{ timers := { now } }, [], r₀⟩ : Running κ ω ε) := inStep_fresh
    exact (hdue hp).elim id (mem_held_of_stray (before.inStep gentle hfresh rfl).1 free)
  · refine (later.mem_held gentle' (mem_held_after hp _)).resolve_right fun hp => ?_
    rw [hended] at hp
    cases hp

/-- Two works are flushed, and the first one has scheduled a third. -/
def amidFlush : Debouncer String String :=
  let d := (({ timers := { now := 0 } } : Debouncer String String).schedule "a" 0 "x").schedule
    "b" 0 "y"
  (({ d with pending := [] } : Debouncer String String).cancelTimer 0).schedule "c" 0 "z"

/-- When everything is cancelled then, what was scheduled last does not start, but what was flushed
does. -/
theorem started_of_dropped_flushed :
    ∃ events events' : List (Running String String Unit × Event String String),
    ∃ d stack r c, Course ⟨{ timers := { now := 0 } }, [], .returned .done⟩ events ⟨d, stack, r⟩ ∧
      Free stack ∧ Course (after stack (d.perform .cancelAll)) events' c ∧ c.stack = [] ∧
      ⟨"c", 2, "z"⟩ ∈ scheduled events ∧ ⟨"c", 2, "z"⟩ ∉ started events' ∧
      ⟨"b", 1, "y"⟩ ∈ scheduled events ∧ ⟨"b", 1, "y"⟩ ∈ started events' := by
  let stack : List (Activity (Frame String String) String) :=
    [.ask "x", .own (.flushing [⟨"b", 1, "y"⟩] 2)]
  have hfresh : Course (⟨{ timers := { now := 0 } }, [], .returned .done⟩ :
      Running String String Unit) [] _ := .refl
  have hflushed := (((hfresh.tail (.perform (.schedule "a" 0 "x") trivial trivial)).tail
    (.perform (.schedule "b" 0 "y") trivial trivial)).tail
    (.perform .flush trivial trivial)).tail (.resume _ _ _ _)
  have hbefore : Course _ _ ⟨amidFlush, stack, .returned .done⟩ :=
    hflushed.tail (.perform (.schedule "c" 0 "z") trivial trivial)
  have hdropped : Course (after stack (amidFlush.perform .cancelAll) :
      Running String String Unit) [] _ := .refl
  have hturn := (hdropped.tail (.answer _ _ _ _ (.returned .done))).tail (.resume _ _ _ _)
  have hlater := (hturn.tail (.answer _ _ _ _ (.returned .done))).tail (.resume _ _ _ _)
  have hc := started_of_dropped (p := ⟨"c", 2, "z"⟩) hbefore (.tail _ (.tail _ (.head _))) trivial
    hlater trivial
  have hb := started_of_dropped (p := ⟨"b", 1, "y"⟩) hbefore (.tail _ (.head _)) trivial
    hlater trivial
  refine ⟨_, _, _, _, _, _, hbefore, trivial, hlater, rfl, .tail _ (.tail _ (.head _)),
    hc.1 (.head _), .tail _ (.head _), (hb.2.2 ?_).2 ?_ rfl (.head _)⟩
  · simp [Gentle]
  · simp [Gentle]

end LiveForm.Debouncer
