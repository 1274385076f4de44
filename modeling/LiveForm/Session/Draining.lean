import LiveForm.Schedule.Scheduler

/-!
# Sessions on a scheduler

What a node does when it is processed is scripted in rounds: each time the next round of actions is
done, on the scheduler that is processing it.
-/

namespace LiveForm.Session.Draining

/-- Something done to the scheduler. -/
inductive Step where
  | enqueue (node : String) (priority : Priority) (source : Option String)
  | advance (seconds : Binary64)
  | takeBatch (limit : Option Int)
  | isPending (node : String)
  | clear
  /-- Drain the queue; with reports of batches or without. -/
  | drain (reports : Bool)
  | runNext
  | runAll
  | fail (message : String)
  deriving DecidableEq

/-- What a step answers. -/
inductive Response where
  | plain (a : Answer)
  | entry (e : Option QueueEntry)
  | entries (es : List QueueEntry)
  deriving DecidableEq

instance : Inhabited Response := ⟨.plain .done⟩

/-- What is noted of callbacks. -/
inductive Event where
  | processed (e : QueueEntry)
  | did (r : Response)
  | batch (nodes : List String)
  | idle
  deriving DecidableEq

/-- Why a step fails. -/
inductive Failure where
  | failed (message : String)
  | notManual
  /-- A queue that holds less than nothing. -/
  | noRoom
  deriving DecidableEq

/-- A scheduler with a clock, the scripts of the nodes, and what was noted. -/
structure State where
  scheduler : Scheduler
  now : Binary64 := 0
  scripts : List (String × List (List Step))
  events : List Event := []
  dropped : List QueueEntry := []

/-- What is left to do. -/
inductive Frame where
  | begin (step : Step)
  | scheduling (f : Scheduler.Frame)
  | ask (a : Scheduler.Ask)
  /-- Note what an action answered and do the rest of the round. -/
  | round (rest : List Step)

abbrev Move := LiveForm.Move State Frame Response Failure

def State.note (s : State) (e : Event) : State := { s with events := s.events ++ [e] }

/-- A move of the scheduler as one of the session. -/
def State.ofScheduler (s : State) (m : Scheduler.Move Failure) : Move :=
  m.embed (fun scheduler => { s with scheduler }) (Activity.elim .scheduling .ask) .plain

/-- Runs continuations by hand, which only a manual yield point allows. -/
def State.pump (s : State) (m : Scheduler.Move Failure) : Move :=
  match s.scheduler.yieldPoint.mode with
  | .manual => s.ofScheduler m
  | .immediate => .fail s .notManual

def perform (s : State) : Step → Move
  | .enqueue node priority source =>
    let (scheduler, entry, dropped) := s.scheduler.enqueue s.now node priority source
    let s := { s with scheduler, dropped := s.dropped ++ dropped }
    if entry.isSome && decide (scheduler.queue.maxQueue < 0) then .fail s .noRoom
    else .ret s (.entry entry)
  | .advance seconds => .ret { s with now := s.now + seconds } (.plain (.count 0))
  | .takeBatch limit =>
    let (batch, scheduler) := s.scheduler.takeBatch limit
    .ret { s with scheduler } (.entries batch)
  | .isPending node => .ret s (.plain (.flag (s.scheduler.isPending node)))
  | .clear => .ret { s with scheduler := s.scheduler.clear } (.plain .done)
  | .drain reports => s.ofScheduler (s.scheduler.drain reports)
  | .runNext => s.pump s.scheduler.runNext
  | .runAll => s.pump s.scheduler.runAll
  | .fail message => .fail s (.failed message)

/-- Takes the next round of a node out of its script. -/
def takeRound (scripts : List (String × List (List Step))) (node : String) :
    List Step × List (String × List (List Step)) :=
  match scripts.lookup node with
  | some (round :: rest) =>
    (round, scripts.map fun p => if p.1 == node then (p.1, rest) else p)
  | _ => ([], scripts)

/-- Does the rest of a round. -/
def goOn (s : State) : List Step → Move
  | [] => .ret s (.plain .done)
  | step :: rest => .call s [.begin step, .round rest]

def answer (s : State) : Scheduler.Ask → Move
  | .process e =>
    let (round, scripts) := takeRound s.scripts e.node
    goOn ({ s with scripts }.note (.processed e)) round
  | .batchDone batch => .ret (s.note (.batch (batch.map (·.node)))) (.plain .done)
  | .idle => .ret (s.note .idle) (.plain .done)

def machine : Machine State Frame Response Failure
  | .begin step, _, s => perform s step
  | .scheduling f, .returned _, s => s.ofScheduler (s.scheduler.resume f)
  | .scheduling f, .raised e, s => .fail { s with scheduler := s.scheduler.unwind f } e
  | .ask a, _, s => answer s a
  | .round rest, .returned r, s => goOn (s.note (.did r)) rest
  | .round _, .raised e, s => .fail s e

/-- Does a step; gives the state with what was noted during it, and what the step answers. -/
def doStep (s : State) (step : Step) : State × Reply Response Failure :=
  Machine.complete machine (.call { s with events := [], dropped := [] } [.begin step])

end LiveForm.Session.Draining
