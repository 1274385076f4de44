import LiveForm.Engine.Operation

/-!
# Running the engine on its own

Without anybody who acts on what watchers and listeners hear, an operation runs to its end.
-/

namespace LiveForm.Engine

/-- The engine in surroundings that do nothing. -/
def machine : Machine Engine (Activity Frame Ask) Response EngineError
  | .own f, .returned _, e => e.resume f
  | .own f, .raised err, e => e.recover f err
  | .ask _, _, e => e.finish

/-- Performs an operation to its end. -/
def run (e : Engine) (op : Operation) : Engine × Reply Response EngineError :=
  machine.complete (e.perform op)

end LiveForm.Engine
