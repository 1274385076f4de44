import LiveForm.Clock.Timers

/-!
# Debouncing

Work that comes in again and again under one key is done once, when it has been quiet for a while:
each time the key is scheduled anew, its earlier timer is cancelled.  Pending work can also be
flushed, which does it at once.
-/

namespace LiveForm

/-- What a timer was set for: the work of a key, or some work on its own. -/
inductive Alarm (κ ω : Type) where
  | keyed (key : κ) (work : ω)
  | plain (work : ω)

/-- The work of a key that waits for its timer. -/
structure PendingWork (κ ω : Type) where
  key : κ
  /-- The timer. -/
  serial : Nat
  work : ω

/-- Timers and the work that waits for some of them. -/
structure Debouncer (κ ω : Type) where
  timers : Timers (Alarm κ ω) := {}
  /-- In the order of scheduling. -/
  pending : List (PendingWork κ ω) := []

namespace Debouncer

variable {κ ω ε : Type} [BEq κ]

/-- What is left to do while work is done. -/
inductive Frame (κ ω : Type) where
  | clock (f : Timers.Frame)
  /-- A timer fires. -/
  | ring (a : Alarm κ ω)
  /-- Do the rest of the flushed work. -/
  | flushing (rest : List (PendingWork κ ω)) (total : Nat)

/-- A move of a debouncer; it asks its surroundings to do work. -/
abbrev Move (κ ω ε : Type) :=
  LiveForm.Move (Debouncer κ ω) (Activity (Frame κ ω) ω) Answer ε

/-- The key has pending work. -/
def contains (d : Debouncer κ ω) (key : κ) : Bool := d.pending.any (·.key == key)

/-- Without the pending work of a key; its timer stays. -/
def forget (d : Debouncer κ ω) (key : κ) : Debouncer κ ω :=
  { d with pending := d.pending.filter fun p => !(p.key == key) }

/-- Cancels the timers of some pending work. -/
def cancelTimers (ts : Timers (Alarm κ ω)) (ps : List (PendingWork κ ω)) : Timers (Alarm κ ω) :=
  ps.foldl (fun ts p => ts.cancel p.serial) ts

/-- Cancels the pending work of a key; says whether there was any. -/
def cancel (d : Debouncer κ ω) (key : κ) : Bool × Debouncer κ ω :=
  let gone := d.pending.filter (·.key == key)
  (!gone.isEmpty, { d.forget key with timers := cancelTimers d.timers gone })

/-- Schedules work under a key after a delay, in the place of what was scheduled before. -/
def schedule (d : Debouncer κ ω) (key : κ) (delay : Binary64) (work : ω) : Debouncer κ ω :=
  let d := (d.cancel key).2
  let (serial, timers) := d.timers.set delay (.keyed key work)
  { timers, pending := d.pending ++ [⟨key, serial, work⟩] }

/-- Cancels all pending work. -/
def cancelAll (d : Debouncer κ ω) : Debouncer κ ω :=
  { timers := cancelTimers d.timers d.pending, pending := [] }

/-- Sets a timer for some work on its own. -/
def callLater (d : Debouncer κ ω) (delay : Binary64) (work : ω) : Nat × Debouncer κ ω :=
  let (serial, timers) := d.timers.set delay (.plain work)
  (serial, { d with timers })

/-- Cancels a timer. -/
def cancelTimer (d : Debouncer κ ω) (serial : Nat) : Debouncer κ ω :=
  { d with timers := d.timers.cancel serial }

/-- A move of the timers as one of the debouncer. -/
def ofTimers (d : Debouncer κ ω) (m : Timers.Move (Alarm κ ω) ε) : Move κ ω ε :=
  m.embed (fun timers => { d with timers })
    (Activity.elim (fun f => .own (.clock f)) (fun a => .own (.ring a))) id

/-- Moves time forward and does the work that is due; says how many timers fired. -/
def advance (d : Debouncer κ ω) (seconds : Binary64) : Move κ ω ε :=
  d.ofTimers (d.timers.advance seconds)

/-- Fires all timers; says how many. -/
def runAll (d : Debouncer κ ω) : Move κ ω ε := d.ofTimers d.timers.runAll

/-- Does all pending work now, in the order of scheduling; says how much. -/
def flush (d : Debouncer κ ω) : Move κ ω ε :=
  .call { d with pending := [] } [.own (.flushing d.pending d.pending.length)]

/-- Goes on when what was called has come back. -/
def resume (f : Frame κ ω) (d : Debouncer κ ω) : Move κ ω ε :=
  match f with
  | .clock f => d.ofTimers (d.timers.resume f)
  | .ring (.keyed key work) => .call (d.forget key) [.ask work]
  | .ring (.plain work) => .call d [.ask work]
  | .flushing [] total => .ret d (.count total)
  | .flushing (p :: rest) total =>
    .call (d.cancelTimer p.serial) [.ask p.work, .own (.flushing rest total)]

end Debouncer

end LiveForm
