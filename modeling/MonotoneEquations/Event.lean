import MonotoneEquations.Key

/-!
# The solver's log

Events record what a solver does, in the order in which it does it: which equations were stored,
which keys got a value, and which values were put into which equations. Two summary events count
the equations, once all of them are registered and once the run is over.

Failed registrations leave no event.
-/

namespace MonotoneEquations

/-- A step of the solver's work, with values of type `V`. -/
inductive Event (V : Type) where
  /-- An equation was stored with this many products. -/
  | pending (key : Key) (products : Nat)
  /-- A key got its value. -/
  | resolved (key : Key) (value : V)
  /-- A value was put in the place of `source` in the equation of `target`. -/
  | substituted (source target : Key) (value : V)
  /-- All equations of a system are registered, and some of them wait. -/
  | registered (equations waiting : Nat)
  /-- The run is over. -/
  | finished (solved unresolved : Nat)
  deriving DecidableEq, Repr

/-- How much detail an event gives, from the least to the most. -/
inductive Level where
  | info
  | debug
  | trace
  deriving DecidableEq, Repr

/-- The name under which a level is shown. -/
def Level.name : Level → String
  | .info => "INFO"
  | .debug => "DEBUG"
  | .trace => "TRACE"

namespace Event

variable {V W : Type}

/-- The level of detail of an event. -/
def level : Event V → Level
  | .registered .. => .info
  | .substituted .. => .trace
  | .pending .. | .resolved .. | .finished .. => .debug

/-- The message of an event, without its fields. -/
def message : Event V → String
  | .pending .. => "pending"
  | .resolved .. => "resolved"
  | .substituted .. => "substitute"
  | .registered .. => "equations registered"
  | .finished .. => "solver finished"

/-- The key and the value that an event announces as resolved. -/
def resolution? : Event V → Option (Key × V)
  | .resolved key value => some (key, value)
  | _ => none

/-- Change the values of an event. -/
def map (f : V → W) : Event V → Event W
  | .pending key products => .pending key products
  | .resolved key value => .resolved key (f value)
  | .substituted source target value => .substituted source target (f value)
  | .registered equations waiting => .registered equations waiting
  | .finished solved unresolved => .finished solved unresolved

end Event

end MonotoneEquations
