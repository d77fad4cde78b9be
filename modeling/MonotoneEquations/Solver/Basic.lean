import MonotoneEquations.Equation
import MonotoneEquations.Event
import MonotoneEquations.Sum

/-!
# Registering equations

A solver holds the accepted equations in the order of registration. Each entry knows which keys its
sum mentioned when it was registered; values of those keys are passed on to it as long as it waits.
The worklist holds the resolved keys, with their values, whose readers have not heard of them yet,
the newest first.

A refused equation leaves the solver as it was. Whether a key is already defined is checked before
the size of the new equation.
-/

namespace MonotoneEquations

/-- The number of key occurrences that an equation may have unless another limit is set. -/
def defaultLimit : Nat := 30

/-- An accepted equation and how far it is known. -/
structure Entry (D : Type) where
  key : Key
  mentions : List Key
  status : Status D

/-- The state of a system of equations under solution. -/
structure Solver (D : Type) where
  limit : Nat
  entries : List (Entry D)
  worklist : List (Key × D)
  log : List (Event D)

/-- The event that records how an equation was stored. -/
def Status.event {D : Type} (key : Key) : Status D → Event D
  | .waiting sum => .pending key sum.length
  | .resolved value => .resolved key value

namespace Solver

variable {D : Type}

/-- A solver without equations. -/
def new (limit : Nat) : Solver D := ⟨limit, [], [], []⟩

/-- The number of accepted equations. -/
def size (solver : Solver D) : Nat := solver.entries.length

/-- The number of accepted equations without a value. -/
def pendingCount (solver : Solver D) : Nat :=
  solver.entries.countP fun entry => entry.status.isWaiting

/-- The number of accepted equations with a value. -/
def resolvedCount (solver : Solver D) : Nat :=
  solver.entries.countP fun entry => !entry.status.isWaiting

/-- Whether a key has an accepted equation. -/
def defines (solver : Solver D) (key : Key) : Bool :=
  solver.entries.any fun entry => entry.key = key

/-- Append an event to the log. -/
def record (solver : Solver D) (event : Event D) : Solver D :=
  { solver with log := solver.log ++ [event] }

/-- Append an entry; if it has a value, its readers are still to be told. -/
def register (solver : Solver D) (key : Key) (status : Status D) : Solver D :=
  { solver with
    entries := solver.entries ++ [⟨key, status.mentions, status⟩]
    worklist := (status.event key).resolution?.toList ++ solver.worklist
    log := solver.log ++ [status.event key] }

variable [Domain D] [DecidableEq D]

/-- Accept an equation, or say why it is refused. -/
def add (solver : Solver D) (equation : Equation D) : Except EquationError (Solver D) :=
  if solver.defines equation.key then .error (.duplicate equation.key)
  else
    match equation.rhs with
    | .final value => .ok (solver.register equation.key (.resolved value))
    | .pending products =>
      let size := Product.occurrences products.toList
      if solver.limit < size then .error (.tooLarge ⟨size, solver.limit⟩)
      else .ok (solver.register equation.key (.normalize products.toList))

end Solver

end MonotoneEquations
