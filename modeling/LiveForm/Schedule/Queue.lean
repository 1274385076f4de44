import LiveForm.Number.Binary64
import LiveForm.Schedule.Priority

/-!
# The queue of updates

Each node waits at most once.  Updates run by priority, and within one priority first come, first
served.  The queue is bounded: when it overflows, the update that is least in priority and has
waited longest is dropped.
-/

namespace LiveForm

/-- A waiting update of a node. -/
structure QueueEntry where
  node : String
  priority : Priority
  /-- The node whose change caused the update, if one did. -/
  source : Option String
  enqueuedAt : Binary64
  /-- Tells entries of one moment apart. -/
  sequence : Nat
  deriving DecidableEq

namespace QueueEntry

/-- Came before another entry. -/
def older (a b : QueueEntry) : Bool :=
  a.enqueuedAt.lt b.enqueuedAt ||
    (a.enqueuedAt.eqv b.enqueuedAt && decide (a.sequence < b.sequence))

/-- Runs before another entry. -/
def runsBefore (a b : QueueEntry) : Bool :=
  decide (b.priority.rank < a.priority.rank) || (a.priority == b.priority && a.older b)

/-- Is dropped before another entry. -/
def dropsBefore (a b : QueueEntry) : Bool :=
  decide (a.priority.rank < b.priority.rank) || (a.priority == b.priority && a.older b)

end QueueEntry

/-- The waiting updates. -/
structure UpdateQueue where
  entries : List QueueEntry := []
  /-- How many entries may wait. -/
  maxQueue : Int := 500
  /-- The sequence number of the next entry. -/
  nextSequence : Nat := 0
  /-- How many entries were dropped. -/
  dropped : Nat := 0

namespace UpdateQueue

/-- The entries with one put in front of the first one that it runs before. -/
def lineUp (e : QueueEntry) : List QueueEntry → List QueueEntry
  | [] => [e]
  | f :: fs => if e.runsBefore f then e :: f :: fs else f :: lineUp e fs

/-- The entries in the order in which they run. -/
def pending (q : UpdateQueue) : List QueueEntry :=
  q.entries.foldl (fun line e => lineUp e line) []

/-- The node waits. -/
def waits (q : UpdateQueue) (node : String) : Bool := q.entries.any (·.node == node)

/-- The entry to drop first. -/
def victim? : List QueueEntry → Option QueueEntry
  | [] => none
  | e :: es => some (es.foldl (fun v e => if e.dropsBefore v then e else v) e)

/-- Drops entries until the others fit, at most so many; gives the dropped ones. -/
def trim : (most : Nat) → UpdateQueue → UpdateQueue × List QueueEntry
  | 0, q => (q, [])
  | n + 1, q =>
    if (q.entries.length : Int) ≤ q.maxQueue then (q, [])
    else match victim? q.entries with
      | none => (q, [])
      | some v =>
        let (q, vs) := trim n
          { q with entries := q.entries.erase v, dropped := q.dropped + 1 }
        (q, v :: vs)

/-- Lets a node wait.  If it waits with a higher priority already, that stays; otherwise the new
entry takes the place of the one there was.  Gives the new entry and the entries dropped for it. -/
def enqueue (q : UpdateQueue) (now : Binary64) (node : String) (priority : Priority)
    (source : Option String) : UpdateQueue × Option QueueEntry × List QueueEntry :=
  if q.entries.any fun e => e.node == node && decide (priority.rank < e.priority.rank) then
    (q, none, [])
  else
    let entry : QueueEntry := ⟨node, priority, source, now, q.nextSequence⟩
    let others := q.entries.filter fun e => e.node != node
    let q := { q with entries := others ++ [entry], nextSequence := q.nextSequence + 1 }
    let (q, vs) := q.trim q.entries.length
    (q, some entry, vs)

/-- The first entries in the order in which they run: so many, or with a negative number all but
so many of the last. -/
def front (limit : Int) (es : List QueueEntry) : List QueueEntry :=
  if 0 ≤ limit then es.take limit.toNat else es.take (es.length - limit.natAbs)

/-- Takes the first entries out. -/
def take (q : UpdateQueue) (limit : Int) : List QueueEntry × UpdateQueue :=
  let batch := front limit q.pending
  (batch, { q with entries := q.entries.filter (!batch.contains ·) })

/-- Nothing waits any more. -/
def clear (q : UpdateQueue) : UpdateQueue := { q with entries := [] }

end UpdateQueue

end LiveForm
