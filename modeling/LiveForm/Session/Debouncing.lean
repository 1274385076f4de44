import LiveForm.Clock.Debouncer

/-!
# Sessions on a debouncer

Work has a tag and a script, which is done when the work is.
-/

namespace LiveForm.Session.Debouncing

/-- Something done to the debouncer or to its timers. -/
inductive Step where
  | schedule (key : String) (delay : Binary64) (tag : String) (script : List Step)
  /-- Set a timer for some work on its own. -/
  | callLater (delay : Binary64) (tag : String) (script : List Step)
  /-- Cancel such a timer. -/
  | cancelTimer (tag : String)
  | cancel (key : String)
  | contains (key : String)
  | advance (seconds : Binary64)
  | runAll
  | flush
  | cancelAll
  deriving Inhabited

/-- Some work. -/
structure Work where
  tag : String
  script : List Step

/-- What is noted of work. -/
inductive Event where
  | fired (tag : String) (time : Binary64)
  | did (step : Step) (r : Answer)

/-- Why a step fails. -/
inductive Failure where
  /-- No timer was set under this tag. -/
  | unknownTimer (tag : String)
  deriving DecidableEq

/-- A debouncer, the timers set by tag, and what was noted. -/
structure State where
  debouncer : Debouncer String Work
  handles : List (String × Nat) := []
  events : List Event := []

/-- What is left to do. -/
inductive Frame where
  | begin (step : Step)
  | debouncing (f : Debouncer.Frame String Work)
  | work (w : Work)
  /-- Note what a step answered and do the rest of the script. -/
  | rest (step : Step) (script : List Step)

abbrev Move := LiveForm.Move State Frame Answer Failure

def State.note (s : State) (e : Event) : State := { s with events := s.events ++ [e] }

/-- A move of the debouncer as one of the session. -/
def State.ofDebouncer (s : State) (m : Debouncer.Move String Work Failure) : Move :=
  m.embed (fun debouncer => { s with debouncer }) (Activity.elim .debouncing .work) id

def perform (s : State) : Step → Move
  | .schedule key delay tag script =>
    .ret { s with debouncer := s.debouncer.schedule key delay ⟨tag, script⟩ } .done
  | .callLater delay tag script =>
    let (serial, debouncer) := s.debouncer.callLater delay ⟨tag, script⟩
    .ret { s with debouncer, handles := (tag, serial) :: s.handles } .done
  | .cancelTimer tag =>
    match s.handles.lookup tag with
    | some serial => .ret { s with debouncer := s.debouncer.cancelTimer serial } .done
    | none => .fail s (.unknownTimer tag)
  | .cancel key =>
    let (found, debouncer) := s.debouncer.cancel key
    .ret { s with debouncer } (.flag found)
  | .contains key => .ret s (.flag (s.debouncer.contains key))
  | .advance seconds => s.ofDebouncer (s.debouncer.advance seconds)
  | .runAll => s.ofDebouncer s.debouncer.runAll
  | .flush => s.ofDebouncer s.debouncer.flush
  | .cancelAll => .ret { s with debouncer := s.debouncer.cancelAll } .done

/-- Does the rest of a script. -/
def goOn (s : State) : List Step → Move
  | [] => .ret s .done
  | step :: script => .call s [.begin step, .rest step script]

def machine : Machine State Frame Answer Failure
  | .begin step, _, s => perform s step
  | .debouncing f, .returned _, s => s.ofDebouncer (s.debouncer.resume f)
  | .debouncing _, .raised e, s => .fail s e
  | .work w, _, s => goOn (s.note (.fired w.tag s.debouncer.timers.now)) w.script
  | .rest step script, .returned r, s => goOn (s.note (.did step r)) script
  | .rest .., .raised e, s => .fail s e

/-- Does a step; gives the state with what was noted during it, and what the step answers. -/
def doStep (s : State) (step : Step) : State × Reply Answer Failure :=
  Machine.complete machine (.call { s with events := [] } [.begin step])

end LiveForm.Session.Debouncing
