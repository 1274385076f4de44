import LiveForm.Cli.Run

/-!
# The program

Reads the files that a command needs, runs it, and shows and writes what it gives.
-/

open LiveForm

/-- The text of a form file. -/
def readForm (path : String) : IO (Except Cli.FileFault String) := do
  try
    return .ok (← IO.FS.readFile path)
  catch
    | .noFileOrDirectory .. => return .error .notFound
    | _ => return .error .other

/-- The text of the first of these files that can be read. -/
def readFirst : List (List String) → IO (Option String)
  | [] => return none
  | path :: rest => do
    try
      return some (← IO.FS.readFile ("/" ++ "/".intercalate path))
    catch _ => readFirst rest

def main (args : List String) : IO UInt32 := do
  match Cli.parse args with
  | .help =>
    Cli.usage.forM IO.println
    return 0
  | .misuse =>
    Cli.usage.forM IO.eprintln
    return 2
  | .command c =>
    let here := Cli.Files.names (← IO.currentDir).toString
    let project ← readFirst (Project.candidates here)
    let outcome := Cli.run c (← readForm c.form) project
    outcome.output.forM IO.println
    if let some (target, text) := outcome.export? then
      IO.FS.writeFile target text
    if outcome.exitCode ≠ 0 then
      IO.eprintln (outcome.message.getD "The command failed.")
    return outcome.exitCode.toUInt32
