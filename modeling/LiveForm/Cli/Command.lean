/-!
# The command line

`calc FORM [-o PATH] [--set NAME=VALUE]...` computes a form and `deps FORM` shows how its outputs
hang together; `--verbose` may stand in front of the command.  Options of a command may stand
anywhere behind it, and `--` ends them.
-/

namespace LiveForm.Cli

/-- What is to be done. -/
inductive Command where
  /-- Compute a form, edit some of its fields, and perhaps write the results to a file. -/
  | compute (form : String) (output : Option String) (assignments : List String)
  /-- Show what each output reads and which outputs are linked. -/
  | dependencies (form : String)
  deriving DecidableEq, Repr

/-- What a command line asks for. -/
inductive Request where
  | command (c : Command)
  | help
  /-- It cannot be understood. -/
  | misuse
  deriving DecidableEq, Repr

/-- An option: the ways to write it, and whether a value belongs to it. -/
structure Switch where
  long : String
  short : Option Char := none
  valued : Bool := false

/-- What was read of a command line: the options with their values, and the other arguments. -/
structure Arguments where
  options : List (String × String) := []
  others : List String := []

/-- The argument is a way to write options. -/
def isOption (arg : String) : Bool := arg.startsWith "-" && 1 < arg.length

/-- An option as it is written: the option, and the value that is joined to it. -/
def readOption (known : List Switch) (arg : String) : Option (Switch × Option String) :=
  let cs := arg.toList
  let name := String.ofList (cs.takeWhile (· != '='))
  let joined := match cs.dropWhile (· != '=') with
    | [] => none
    | _ :: value => some (String.ofList value)
  match known.find? (·.long == name) with
  | some o => some (o, joined)
  | none =>
    match cs with
    | '-' :: c :: value =>
      (known.find? (·.short == some c)).map fun o =>
        (o, if value.isEmpty then none else some (String.ofList value))
    | _ => none

/-- Reads arguments.  Options may stand behind other arguments if they are `mixed`; otherwise the
first other argument ends them. -/
def readArguments (known : List Switch) (mixed : Bool) (acc : Arguments) :
    List String → Option Arguments
  | [] => some acc
  | arg :: rest =>
    if arg == "--" then some { acc with others := acc.others ++ rest }
    else if isOption arg then
      match readOption known arg with
      | none => none
      | some (o, joined) =>
        let add (value : String) : Arguments :=
          { acc with options := acc.options ++ [(o.long, value)] }
        if o.valued then
          match joined, rest with
          | some value, rest => readArguments known mixed (add value) rest
          | none, value :: rest => readArguments known mixed (add value) rest
          | none, [] => none
        else if joined.isSome then none
        else readArguments known mixed (add "") rest
    else if mixed then readArguments known mixed { acc with others := acc.others ++ [arg] } rest
    else some { acc with others := acc.others ++ arg :: rest }

/-- The values of an option, in order. -/
def Arguments.values (a : Arguments) (long : String) : List String :=
  (a.options.filter (·.1 == long)).map (·.2)

/-- An option was given. -/
def Arguments.has (a : Arguments) (long : String) : Bool := a.options.any (·.1 == long)

def help : Switch := ⟨"--help", none, false⟩

/-- The options in front of the command. -/
def globalOptions : List Switch := [⟨"--verbose", none, false⟩, ⟨"--no-verbose", none, false⟩, help]

/-- A command with one argument. -/
def readCommand (known : List Switch) (make : String → Arguments → Command)
    (args : List String) : Request :=
  match readArguments (known ++ [help]) true {} args with
  | none => .misuse
  | some a =>
    if a.has help.long then .help
    else
      match a.others with
      | [form] => .command (make form a)
      | _ => .misuse

/-- What a command line asks for. -/
def parse (args : List String) : Request :=
  match readArguments globalOptions false {} args with
  | none => .misuse
  | some a =>
    if a.has help.long then .help
    else
      match a.others with
      | "calc" :: args =>
        readCommand [⟨"--output", some 'o', true⟩, ⟨"--set", none, true⟩]
          (fun form a => .compute form (a.values "--output").getLast? (a.values "--set")) args
      | "deps" :: args => readCommand [] (fun form _ => .dependencies form) args
      | _ => .misuse

/-- How the command line is used. -/
def usage : List String :=
  ["Usage: [--verbose] calc FORM [-o PATH] [--set NAME=VALUE]...",
    "       [--verbose] deps FORM"]

/-- The file that a command reads its form from. -/
def Command.form : Command → String
  | .compute form .. => form
  | .dependencies form => form

end LiveForm.Cli
