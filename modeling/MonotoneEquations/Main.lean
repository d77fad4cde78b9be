import MonotoneEquations.CommandLine

/-!
# The program

Reads the command line and the named file, runs a session, and writes its output and its reports.
With the verbose switch the log of the solver is written beside the reports, without the single
substitutions. The program ends with code 0 if no error was reported, 1 if one was, and 2 if the
command line or the file cannot be read.
-/

open MonotoneEquations

namespace MonotoneEquations.Program

/-- How the program is called. -/
def usage : String :=
  "Usage: equations [--domain ternary|contract] [--limit N] [--show-unresolved] " ++
    "[--dump-equations] [-v|--verbose] FILENAME"

/-- A line about an event of the log. -/
def eventLine (event : Event String) : String :=
  let fields := match event with
    | .pending key products => " key=" ++ key.describe ++ " products=" ++ toString products
    | .resolved key value => " key=" ++ key.describe ++ " value=" ++ value
    | .substituted source target value =>
      " from=" ++ source.describe ++ " to=" ++ target.describe ++ " value=" ++ value
    | .registered equations waiting =>
      " equations=" ++ toString equations ++ " pending=" ++ toString waiting
    | .finished solved unresolved =>
      " solved=" ++ toString solved ++ " unresolved=" ++ toString unresolved
  event.level.name ++ " " ++ event.message ++ fields

/-- Run a session with the given options on the file that they name. -/
def runFile (options : Options) : IO UInt32 := do
  let source ←
    try IO.FS.readFile options.filename
    catch error =>
      IO.eprintln ("Failed to read '" ++ options.filename ++ "': " ++ toString error)
      return 2
  let outcome := Session.run options source
  if options.verbose then
    for event in outcome.log do
      if event.level ≠ .trace then IO.eprintln (eventLine event)
  IO.print outcome.diagnostics.out
  IO.eprint outcome.diagnostics.err
  return if outcome.succeeded then 0 else 1

end MonotoneEquations.Program

/-- Run the program. -/
def main (arguments : List String) : IO UInt32 := do
  match Options.ofArguments arguments with
  | .ok options => Program.runFile options
  | .error .displayHelp => IO.println Program.usage; return 0
  | .error .displayVersion => IO.println "equations 0.1.0"; return 0
  | .error error => IO.eprintln Program.usage; return UInt32.ofNat error.exitCode
