import LiveForm.Schedule.YieldPoint

/-!
# Sessions on a yield point

Continuations are named by tags; a script says which further ones each of them leaves.
-/

namespace LiveForm.Session.Yielding

/-- What a continuation does. -/
inductive Action where
  | defer (tag : String)
  /-- Fails. -/
  | fail
  deriving DecidableEq

/-- Something done to the yield point. -/
inductive Step where
  | defer (tag : String)
  | runNext
  | runAll
  deriving DecidableEq

/-- What is noted of a continuation. -/
inductive Event where
  | started (tag : String)
  | ended (tag : String)
  deriving DecidableEq

/-- Why a step fails. -/
inductive Failure where
  /-- The continuation of this tag fails. -/
  | failed (tag : String)
  /-- Continuations were to be run by hand, but the yield point runs them itself. -/
  | notManual
  deriving DecidableEq

/-- A yield point, the scripts, and what was noted. -/
structure State where
  yieldPoint : YieldPoint String
  scripts : List (String × List Action)
  events : List Event := []

/-- What is left to do. -/
inductive Frame where
  | begin (step : Step)
  | yielding (f : YieldPoint.Frame)
  /-- Start a continuation. -/
  | start (tag : String)
  /-- Do the rest of a continuation. -/
  | rest (tag : String) (actions : List Action)

abbrev Move := LiveForm.Move State Frame Answer Failure

def State.note (s : State) (e : Event) : State := { s with events := s.events ++ [e] }

/-- A move of the yield point as one of the session. -/
def State.ofYield (s : State) (m : YieldPoint.Move String Failure) : Move :=
  m.embed (fun yieldPoint => { s with yieldPoint }) (Activity.elim .yielding .start) id

/-- Runs continuations by hand, which only a manual yield point allows. -/
def State.pump (s : State) (m : YieldPoint.Move String Failure) : Move :=
  match s.yieldPoint.mode with
  | .manual => s.ofYield m
  | .immediate => .fail s .notManual

def perform (s : State) : Step → Move
  | .defer tag => s.ofYield (s.yieldPoint.defer tag)
  | .runNext => s.pump s.yieldPoint.runNext
  | .runAll => s.pump s.yieldPoint.runAll

/-- Does the rest of a continuation. -/
def goOn (s : State) (tag : String) : List Action → Move
  | [] => .ret (s.note (.ended tag)) .done
  | .fail :: _ => .fail s (.failed tag)
  | .defer t :: rest => .call s [.begin (.defer t), .rest tag rest]

def machine : Machine State Frame Answer Failure
  | .begin step, _, s => perform s step
  | .yielding f, .returned _, s => s.ofYield (s.yieldPoint.resume f)
  | .yielding f, .raised e, s => .fail { s with yieldPoint := s.yieldPoint.unwind f } e
  | .start tag, _, s => goOn (s.note (.started tag)) tag ((s.scripts.lookup tag).getD [])
  | .rest tag actions, .returned _, s => goOn s tag actions
  | .rest .., .raised e, s => .fail s e

/-- Does a step; gives the state with what was noted during it, and what the step answers. -/
def doStep (s : State) (step : Step) : State × Reply Answer Failure :=
  Machine.complete machine (.call { s with events := [] } [.begin step])

end LiveForm.Session.Yielding
