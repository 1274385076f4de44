import LiveForm.Number.Binary64
import LiveForm.Schedule.YieldPoint

/-!
# Timers in virtual time

Time stands still until it is advanced.  Then the timers that are due fire one after another, in
the order of their due times, and of those due at the same time in the order in which they were
set.  A timer that fires may set and cancel others, and may even advance time itself.
-/

namespace LiveForm

/-- A timer that was set and has neither fired nor been cancelled. -/
structure Timer (π : Type) where
  due : Binary64
  /-- Names the timer. -/
  serial : Nat
  payload : π

/-- The live timers and the time. -/
structure Timers (π : Type) where
  now : Binary64 := 0
  /-- In the order in which they fire. -/
  live : List (Timer π) := []
  /-- The name of the next timer. -/
  nextSerial : Nat := 0

namespace Timers

variable {π ε : Type}

/-- What is left to do while a timer fires. -/
inductive Frame where
  /-- Advance time to a target. -/
  | advancing (target : Binary64) (fired : Nat)
  /-- Fire all timers. -/
  | exhausting (fired : Nat)
  deriving DecidableEq

/-- A move of the timers; they ask their surroundings to do what a timer was set for. -/
abbrev Move (π ε : Type) := LiveForm.Move (Timers π) (Activity Frame π) Answer ε

/-- The timers with one more, behind those due no later. -/
def insert (t : Timer π) : List (Timer π) → List (Timer π)
  | [] => [t]
  | u :: us => if t.due < u.due then t :: u :: us else u :: insert t us

/-- Sets a timer; a negative delay counts as none. -/
def set (ts : Timers π) (delay : Binary64) (payload : π) : Nat × Timers π :=
  let t : Timer π := ⟨ts.now + delay.max 0, ts.nextSerial, payload⟩
  (t.serial, { ts with live := insert t ts.live, nextSerial := ts.nextSerial + 1 })

/-- Cancels a timer, if it is live. -/
def cancel (ts : Timers π) (serial : Nat) : Timers π :=
  { ts with live := ts.live.filter (·.serial != serial) }

/-- Fires the first timer at its time, and goes on with a frame. -/
def fire (ts : Timers π) (t : Timer π) (rest : List (Timer π)) (frame : Frame) : Move π ε :=
  .call { ts with live := rest, now := ts.now.max t.due } [.ask t.payload, .own frame]

/-- Goes on when a timer has fired: as long as the next one is due, and then the time is the
target. -/
def resume (f : Frame) (ts : Timers π) : Move π ε :=
  match f, ts.live with
  | .advancing target fired, t :: rest =>
    if t.due ≤ target then ts.fire t rest (.advancing target (fired + 1))
    else .ret { ts with now := target } (.count fired)
  | .advancing target fired, [] => .ret { ts with now := target } (.count fired)
  | .exhausting fired, t :: rest => ts.fire t rest (.exhausting (fired + 1))
  | .exhausting fired, [] => .ret ts (.count fired)

/-- Moves time forward and fires the timers that are due; says how many. -/
def advance (ts : Timers π) (seconds : Binary64) : Move π ε :=
  .call ts [.own (.advancing (ts.now + seconds) 0)]

/-- Fires all timers, moving time to each one's due time; says how many. -/
def runAll (ts : Timers π) : Move π ε := .call ts [.own (.exhausting 0)]

end Timers

end LiveForm
