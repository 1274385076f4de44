import LiveForm.Schedule.Queue
import LiveForm.Schedule.YieldPoint

/-!
# Draining the queue

A drain takes the waiting updates in batches, has each one processed, and leaves the next batch to
a yield point, until nothing waits.  Its surroundings process the updates; while they do, they may
use the scheduler in any way.
-/

namespace LiveForm

/-- A queue of updates with what is going on about it. -/
structure Scheduler where
  queue : UpdateQueue
  /-- How many updates a batch takes. -/
  batchSize : Nat
  /-- The updates of the running batch that were not handed out yet. -/
  inFlight : List QueueEntry := []
  draining : Bool := false
  /-- Where the next batch waits; a continuation tells whether its drain reports batches. -/
  yieldPoint : YieldPoint Bool

namespace Scheduler

/-- What a drain asks of its surroundings. -/
inductive Ask where
  /-- Process an update. -/
  | process (e : QueueEntry)
  /-- A batch is done. -/
  | batchDone (batch : List QueueEntry)
  /-- Nothing waits any more. -/
  | idle
  deriving DecidableEq

/-- What is left of a drain while something else goes on. -/
inductive Frame where
  /-- Begin a batch. -/
  | begin (reports : Bool)
  /-- Go on with a batch. -/
  | batch (reports : Bool) (taken : List QueueEntry)
  /-- Go on behind a batch. -/
  | next (reports : Bool)
  /-- Go on at the yield point. -/
  | yielding (f : YieldPoint.Frame)
  deriving DecidableEq

/-- A move of a scheduler. -/
abbrev Move (ε : Type) := LiveForm.Move Scheduler (Activity Frame Ask) Answer ε

variable {ε : Type}

/-- A scheduler without work. -/
def create (batchSize : Nat) (maxQueue : Int) (mode : YieldMode) : Scheduler :=
  { queue := { maxQueue }, batchSize, yieldPoint := { mode } }

/-- The node waits, in the queue or later in the running batch. -/
def isPending (s : Scheduler) (node : String) : Bool :=
  s.queue.waits node || s.inFlight.any (·.node == node)

/-- Lets a node wait; gives its entry, unless one of higher priority covers it, and the entries
that were dropped. -/
def enqueue (s : Scheduler) (now : Binary64) (node : String) (priority : Priority)
    (source : Option String) : Scheduler × Option QueueEntry × List QueueEntry :=
  let (queue, entry, dropped) := s.queue.enqueue now node priority source
  ({ s with queue }, entry, dropped)

/-- Takes entries out in the order in which they run: as many as a batch takes, unless another
number is given. -/
def takeBatch (s : Scheduler) (limit : Option Int) : List QueueEntry × Scheduler :=
  let limit := match limit with
    | none | some 0 => (s.batchSize : Int)
    | some n => n
  let (batch, queue) := s.queue.take limit
  (batch, { s with queue })

/-- Lets go of everything that waits, in the running batch too. -/
def clear (s : Scheduler) : Scheduler := { s with queue := s.queue.clear, inFlight := [] }

/-- A move of the yield point as one of the scheduler. -/
def ofYield (s : Scheduler) (m : YieldPoint.Move Bool ε) : Move ε :=
  m.embed (fun yieldPoint => { s with yieldPoint })
    (Activity.elim (fun f => .own (.yielding f)) (fun reports => .own (.begin reports))) id

/-- Goes on behind a batch: leaves the next one to the yield point, or is done. -/
def goOn (s : Scheduler) (reports : Bool) : Move ε :=
  if s.queue.entries.isEmpty then
    let s := { s with draining := false }
    if reports then .call s [.ask .idle] else .ret s .done
  else s.ofYield (s.yieldPoint.defer reports)

/-- Starts a drain, unless one is going on: that one will see to everything that waits. -/
def drain (s : Scheduler) (reports : Bool) : Move ε :=
  if s.draining then .ret s .done
  else .call { s with draining := true } [.own (.begin reports)]

/-- Hands out the next update of a batch, or ends the batch. -/
def handOut (s : Scheduler) (reports : Bool) (taken : List QueueEntry) : Move ε :=
  match s.inFlight with
  | e :: rest => .call { s with inFlight := rest } [.ask (.process e), .own (.batch reports taken)]
  | [] =>
    if reports && !taken.isEmpty then .call s [.ask (.batchDone taken), .own (.next reports)]
    else s.goOn reports

/-- Goes on when what was called has come back. -/
def resume (f : Frame) (s : Scheduler) : Move ε :=
  match f with
  | .begin reports =>
    let (taken, s) := s.takeBatch none
    { s with inFlight := taken }.handOut reports taken
  | .batch reports taken => s.handOut reports taken
  | .next reports => s.goOn reports
  | .yielding f => s.ofYield (s.yieldPoint.resume f)

/-- What a failure leaves behind that passes through a frame: one that comes out of processing
ends the drain and discards the rest of the batch. -/
def unwind (f : Frame) (s : Scheduler) : Scheduler :=
  match f with
  | .batch .. => { s with inFlight := [], draining := false }
  | .yielding f => { s with yieldPoint := s.yieldPoint.unwind f }
  | .begin _ | .next _ => s

/-- Runs the continuation that has waited longest. -/
def runNext (s : Scheduler) : Move ε := s.ofYield s.yieldPoint.runNext

/-- Runs continuations until none waits. -/
def runAll (s : Scheduler) : Move ε := s.ofYield s.yieldPoint.runAll

end Scheduler

end LiveForm
