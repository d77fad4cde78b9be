import MonotoneEquations.Domain.Contract
import MonotoneEquations.Domain.Ternary
import MonotoneEquations.Solver.Store
import MonotoneEquations.Source.Printer

/-!
# Sessions

A session reads a text of equations over one of two domains, registers the definitions in the order
of the text, solves them, and prints the solution. A definition whose key already has an equation
is reported as a warning, one whose right hand side is too large as an error; both are left out.

A session whose text has an error fails at once: nothing is printed and the log is empty. Otherwise
the solution is printed even when definitions were left out, and the session succeeds if no error
was reported by then.
-/

namespace MonotoneEquations

/-- The domains that equations can be read over. -/
inductive DomainChoice where
  | ternary
  | contract
  deriving DecidableEq, Repr

/-- What a session is asked to do. -/
structure Options where
  domain : DomainChoice := .ternary
  limit : Nat := defaultLimit
  showUnresolved : Bool := false
  dumpEquations : Bool := false
  verbose : Bool := false
  filename : String := ""
  deriving DecidableEq, Repr

/-- Whether a session succeeded and what it leaves, with the values of its log in the form `V`. -/
structure Outcome (V : Type) where
  succeeded : Bool
  diagnostics : Diagnostics
  log : List (Event V)

/-- Change the values in the log of an outcome. -/
def Outcome.map {V W : Type} (f : V → W) (outcome : Outcome V) : Outcome W :=
  ⟨outcome.succeeded, outcome.diagnostics, outcome.log.map (Event.map f)⟩

namespace Session

variable {D : Type} [Domain D] [DecidableEq D] [Spelling D]

/-- The report of a definition that the solver refuses. -/
def refusal (definition : Definition D) (error : EquationError) : Report :=
  let item := "at '" ++ definition.equation.key.write ++ "'"
  match error with
  | .duplicate _ =>
    ⟨.warning, definition.line, item, "Duplicate equation, keeping the first one."⟩
  | .tooLarge excess =>
    ⟨.error, definition.line, item, "Equation dropped, " ++ excess.message ++ "."⟩

/-- Register definitions in order, and report those that the solver refuses. -/
def register (store : Store D) : List (Definition D) → Store D × List Report
  | [] => (store, [])
  | definition :: rest =>
    let (result, store) := store.add definition.equation
    let (last, reports) := register store rest
    match result with
    | .ok () => (last, reports)
    | .error error => (last, refusal definition error :: reports)

/-- Solve a list of definitions and print the solution. -/
def solve (options : Options) (diagnostics : Diagnostics) (definitions : List (Definition D)) :
    Outcome D :=
  let diagnostics :=
    if options.dumpEquations then diagnostics.printLine (printEquations definitions)
    else diagnostics
  let (store, reports) := register (.new options.limit) definitions
  let found := (store.record (.registered store.size store.pendingCount)).solve
  let written := (diagnostics.reportAll reports).print
    (printSolution options.showUnresolved definitions found.solution)
  ⟨written.errors = 0, written, found.log⟩

/-- Run a session over the domain `D`. -/
def runOver (D : Type) [Domain D] [DecidableEq D] [Spelling D] (options : Options)
    (source : String) : Outcome D :=
  let reading : Reading D := .ofSource options.limit source
  let diagnostics := (Diagnostics.new .buffer).reportAll reading.reports
  match reading.definitions? with
  | some definitions => solve options diagnostics definitions
  | none => ⟨false, diagnostics, []⟩

/-- Run a session over the domain that its options choose. -/
def run (options : Options) (source : String) : Outcome String :=
  match options.domain with
  | .ternary => (runOver Ternary options source).map Spelling.describe
  | .contract => (runOver (Flat Contract) options source).map Spelling.describe

end Session

end MonotoneEquations
