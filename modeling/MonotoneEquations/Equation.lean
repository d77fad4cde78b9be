import MonotoneEquations.Rhs

/-!
# Equations

An equation binds a key to a right hand side. A system holds at most one equation for each key,
and none whose right hand side mentions more keys than the limit of the system.
-/

namespace MonotoneEquations

/-- A key together with the right hand side that defines it. -/
structure Equation (D : Type) where
  key : Key
  rhs : Rhs D
  deriving DecidableEq

/-- Why an equation is refused. -/
inductive EquationError where
  /-- The right hand side mentions too many keys. -/
  | tooLarge (excess : TooLarge)
  /-- The key already has an equation, which stays. -/
  | duplicate (key : Key)
  deriving DecidableEq, Repr

/-- The message that reports a refused equation. -/
def EquationError.message : EquationError → String
  | .tooLarge excess => excess.message
  | .duplicate key => "duplicate equation for " ++ key.describe

end MonotoneEquations
