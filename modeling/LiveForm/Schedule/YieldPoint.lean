import LiveForm.Machine

/-!
# Yield points

Work that is not to be done at once is left at a yield point, as a continuation.  An *immediate*
one runs it right away, but without nesting: what is left while a continuation runs is run behind
it by the same loop.  A *manual* one keeps it until it is asked.  In both the first one in is the
first one out.
-/

namespace LiveForm

/-- When continuations run. -/
inductive YieldMode where
  | immediate
  | manual
  deriving DecidableEq, Repr

/-- A yield point and the continuations that wait there. -/
structure YieldPoint (κ : Type) where
  mode : YieldMode
  waiting : List κ := []
  /-- The loop of an immediate yield point is going on. -/
  running : Bool := false

/-- What operations answer that take no argument from their surroundings. -/
inductive Answer where
  | done
  | flag (b : Bool)
  | count (n : Nat)
  deriving DecidableEq, Inhabited

namespace YieldPoint

/-- What is left to do at a yield point while a continuation runs. -/
inductive Frame where
  /-- Go on until nothing waits. -/
  | loop
  /-- Say that one was run. -/
  | ran
  /-- Go on until nothing waits, and say how many were run. -/
  | pump (count : Nat)
  deriving DecidableEq

/-- A move of a yield point; it asks its surroundings to run a continuation. -/
abbrev Move (κ ε : Type) := LiveForm.Move (YieldPoint κ) (Activity Frame κ) Answer ε

variable {κ ε : Type}

/-- Takes the first continuation and goes on with a frame behind it, or does something else if
there is none. -/
def runNextThen (y : YieldPoint κ) (frame : Frame) (otherwise : Move κ ε) : Move κ ε :=
  match y.waiting with
  | [] => otherwise
  | k :: rest => .call { y with waiting := rest } [.ask k, .own frame]

/-- Leaves a continuation. -/
def defer (y : YieldPoint κ) (k : κ) : Move κ ε :=
  let y := { y with waiting := y.waiting ++ [k] }
  match y.mode with
  | .manual => .ret y .done
  | .immediate =>
    if y.running then .ret y .done else .call { y with running := true } [.own .loop]

/-- Runs the continuation that has waited longest; says whether there was one. -/
def runNext (y : YieldPoint κ) : Move κ ε := y.runNextThen .ran (.ret y (.flag false))

/-- Runs continuations until none waits; says how many. -/
def runAll (y : YieldPoint κ) : Move κ ε := .call y [.own (.pump 0)]

/-- Goes on after a continuation has come back. -/
def resume (f : Frame) (y : YieldPoint κ) : Move κ ε :=
  match f with
  | .loop => y.runNextThen .loop (.ret { y with running := false } .done)
  | .ran => .ret y (.flag true)
  | .pump n => y.runNextThen (.pump (n + 1)) (.ret y (.count n))

/-- What a failure leaves behind that passes through a frame: the loop is over. -/
def unwind (f : Frame) (y : YieldPoint κ) : YieldPoint κ :=
  match f with
  | .loop => { y with running := false }
  | _ => y

end YieldPoint

end LiveForm
