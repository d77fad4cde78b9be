/-!
# Diagnostics

The regular output of a run and the reports about its input. A report is an error or a warning
about a line of the input, usually with the item that caused it; it takes one line of its own in
the error text unless its message has several.

The two texts are either kept in memory, where they can be looked at, or handed to a writer, which
does not give them back. Errors and warnings are counted in both cases.
-/

namespace MonotoneEquations

/-- How serious a report is. -/
inductive Severity where
  | error
  | warning
  deriving DecidableEq, Repr

/-- The word under which a severity is shown. -/
def Severity.name : Severity → String
  | .error => "Error"
  | .warning => "Warning"

/-- A finding about a line of the input. -/
structure Report where
  severity : Severity
  line : Nat
  item : String
  message : String
  deriving DecidableEq, Repr

/-- The text of a report. -/
def Report.text (report : Report) : String :=
  "[line " ++ toString report.line ++ "] " ++ report.severity.name ++ " " ++ report.item ++ ": " ++
    report.message ++ "\n"

/-- Where the texts of a run go. -/
inductive Sink where
  | buffer
  | writer
  deriving DecidableEq, Repr

/-- What a run has written and reported so far. -/
structure Diagnostics where
  sink : Sink
  out : String
  err : String
  errors : Nat
  warnings : Nat
  deriving DecidableEq, Repr

namespace Diagnostics

/-- Diagnostics to which nothing was written. -/
def new (sink : Sink) : Diagnostics := ⟨sink, "", "", 0, 0⟩

/-- Write a text to the regular output. -/
def print (diagnostics : Diagnostics) (text : String) : Diagnostics :=
  { diagnostics with out := diagnostics.out ++ text }

/-- Write a text and a line feed to the regular output. -/
def printLine (diagnostics : Diagnostics) (text : String) : Diagnostics :=
  (diagnostics.print text).print "\n"

/-- Write a report and count it. -/
def report (diagnostics : Diagnostics) (report : Report) : Diagnostics :=
  let written := { diagnostics with err := diagnostics.err ++ report.text }
  match report.severity with
  | .error => { written with errors := written.errors + 1 }
  | .warning => { written with warnings := written.warnings + 1 }

/-- Write a list of reports in order. -/
def reportAll (diagnostics : Diagnostics) (reports : List Report) : Diagnostics :=
  reports.foldl report diagnostics

/-- The regular output, if it is kept in memory. -/
def outBuffer? (diagnostics : Diagnostics) : Option String :=
  match diagnostics.sink with
  | .buffer => some diagnostics.out
  | .writer => none

/-- The text of the reports, if it is kept in memory. -/
def errBuffer? (diagnostics : Diagnostics) : Option String :=
  match diagnostics.sink with
  | .buffer => some diagnostics.err
  | .writer => none

end Diagnostics

end MonotoneEquations
