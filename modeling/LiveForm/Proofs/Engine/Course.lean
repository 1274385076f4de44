import LiveForm.Proofs.Engine.Lasting
import Mathlib.Logic.Relation

/-!
# Courses

What happens to an engine happens one thing at a time: an operation begins, from outside or by a
watcher or listener that is being told something, a frame goes on, or who was told something
answers.  A *course* is any number of these steps in any order.
-/

namespace LiveForm.Engine

open Machine (after Runs)

/-- One thing that happens to an engine, where only some operations come from outside and only some
from watchers and listeners. -/
inductive Happens (outside inside : Operation → Prop) : Running → Running → Prop where
  | perform {e : Engine} {r : Reply Response EngineError} {op : Operation} (may : outside op) :
    Happens outside inside ⟨e, [], r⟩ (after [] (e.perform op))
  | resume (e : Engine) (f : Frame) (below : List (Activity Frame Ask))
    (r : Reply Response EngineError) :
    Happens outside inside ⟨e, .own f :: below, r⟩ (machine.step ⟨e, .own f :: below, r⟩)
  | reenter {e : Engine} {k : Ask} {below : List (Activity Frame Ask)}
    {r : Reply Response EngineError} {op : Operation} (may : inside op) :
    Happens outside inside ⟨e, .ask k :: below, r⟩ (after (.ask k :: below) (e.perform op))
  | answer (e : Engine) (k : Ask) (below : List (Activity Frame Ask))
    (r r' : Reply Response EngineError) :
    Happens outside inside ⟨e, .ask k :: below, r⟩ ⟨e, below, r'⟩
  | aside {e e' : Engine} (beside : e.Aside e') (stack : List (Activity Frame Ask))
    (r : Reply Response EngineError) : Happens outside inside ⟨e, stack, r⟩ ⟨e', stack, r⟩

/-- The engine gets from one configuration to the other, and only to those of some kind. -/
def Course (outside inside : Operation → Prop) (kind : Running → Prop) : Running → Running → Prop :=
  Relation.ReflTransGen fun c c' => Happens outside inside c c' ∧ kind c'

variable {settings : Settings} {mode : YieldMode} {outside inside : Operation → Prop}
  {kind P : Running → Prop} {c c' c'' : Running}

theorem Happens.reachable (h : Happens outside inside c c')
    (listening : ∀ op, inside op → op ≠ .detach) (hc : Reachable settings mode c) :
    Reachable settings mode c' := by
  cases h with
  | perform _ => exact .perform hc _
  | resume e f below r => exact .resume hc
  | reenter may => exact .reenter hc (listening _ may)
  | answer e k below r r' => exact .answer hc r'
  | aside beside stack r => exact .aside hc beside

/-- Where nothing is left to do the next operation may begin. -/
theorem Happens.next (h : c.stack = []) {op : Operation} (may : outside op) :
    Happens outside inside c (after [] (c.state.perform op)) := by
  obtain ⟨e, stack, r⟩ := c
  cases h
  exact .perform may

namespace Course

theorem trans (h : Course outside inside kind c c') (h' : Course outside inside kind c' c'') :
    Course outside inside kind c c'' := Relation.ReflTransGen.trans h h'

theorem single (h : Happens outside inside c c') (hkind : kind c') :
    Course outside inside kind c c' := Relation.ReflTransGen.single ⟨h, hkind⟩

theorem reachable (h : Course outside inside kind c c')
    (listening : ∀ op, inside op → op ≠ .detach) (hc : Reachable settings mode c) :
    Reachable settings mode c' := by
  induction h with
  | refl => exact hc
  | tail _ hstep ih => exact hstep.1.reachable listening ih

theorem kind_of (h : Course outside inside kind c c') (hkind : kind c) : kind c' := by
  cases h with
  | refl => exact hkind
  | tail _ hstep => exact hstep.2

/-- What each step keeps holds at the end of a course. -/
theorem keeps (h : Course outside inside kind c c')
    (listening : ∀ op, inside op → op ≠ .detach)
    (hstep : ∀ {c c'}, Reachable settings mode c → kind c → P c → Happens outside inside c c' →
      kind c' → P c')
    (hc : Reachable settings mode c) (hkind : kind c) (hp : P c) : P c' := by
  induction h with
  | refl => exact hp
  | @tail b c' hbefore hlast ih =>
    exact hstep (reachable hbefore listening hc) (kind_of hbefore hkind) ih hlast.1 hlast.2

/-- Surroundings that only answer let each frame of the engine go on as it does. -/
theorem step_own (answer : Engine → Ask → Reply Response EngineError) (e : Engine) (f : Frame)
    (below : List (Activity Frame Ask)) (r : Reply Response EngineError) :
    (among answer).step ⟨e, .own f :: below, r⟩ = machine.step ⟨e, .own f :: below, r⟩ := by
  cases r with
  | returned r => rfl
  | raised err => rfl

/-- Among surroundings that only answer an operation runs on by itself. -/
theorem runs {answer : Engine → Ask → Reply Response EngineError} (n : Nat)
    (hkind : ∀ k ≤ n, kind ((among answer).run k c)) :
    Course outside inside kind c ((among answer).run n c) := by
  induction n generalizing c with
  | zero => exact .refl
  | succ n ih =>
    by_cases hstack : c.stack = []
    · rw [Machine.run_of_stack_nil hstack]
      exact .refl
    · have hnext : ∀ k ≤ n, kind ((among answer).run k ((among answer).step c)) := fun k hk =>
        Machine.run_succ (m := among answer) hstack k ▸ hkind (k + 1) (Nat.succ_le_succ hk)
      have hhappens : Happens outside inside c ((among answer).step c) := by
        obtain ⟨e, stack, r⟩ := c
        match stack with
        | .own f :: below => exact step_own answer e f below r ▸ .resume e f below r
        | .ask k :: below => exact .answer e k below r (answer e k)
      rw [Machine.run_succ hstack]
      exact (single hhappens (hnext 0 (Nat.zero_le n))).trans (ih hnext)

/-- An operation in which nothing fails to be evaluated or read runs to its end. -/
theorem operation {answer : Engine → Ask → Reply Response EngineError} (hstack : c.stack = [])
    {op : Operation} (may : outside op) {n : Nat}
    (hends : endsSmoothly answer n (after [] (c.state.perform op)) = true) :
    Course outside inside (isSmooth ·.reply = true) c
        ((among answer).run n (after [] (c.state.perform op))) ∧
      ((among answer).run n (after [] (c.state.perform op))).stack = [] := by
  have hsmooth (k : Nat) :
      isSmooth ((among answer).run k (after [] (c.state.perform op))).reply = true :=
    isSmooth_of_endsSmoothly hends k
  exact ⟨(single (.next hstack may) (hsmooth 0)).trans (runs n fun k _ => hsmooth k),
    stack_of_endsSmoothly hends⟩

end Course

end LiveForm.Engine
