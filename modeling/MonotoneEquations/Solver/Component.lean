import MonotoneEquations.Domain.Basic

/-!
# Sums over handles

A store knows every key by its handle, the position at which the key arrived. A component is a
product over handles: a constant, and the handles that it mentions in ascending order. A handle is
looked up by halving, which finds it only where the order holds.

Sums are folded as in `Status.normalize`: known components become one constant, and that constant
either settles the sum or stays as a last component without handles.
-/

namespace MonotoneEquations

/-- The meet of a constant and the values of some handles. -/
structure Component (D : Type) where
  value : D
  ids : List Nat
  deriving DecidableEq

/-- A sum of components that is settled, or that still waits on handles. -/
inductive Term (D : Type) where
  | final (value : D)
  | pending (sum : List (Component D))
  deriving DecidableEq

/-- The position of a handle in an ascending list, found by halving. -/
def position? (id : Nat) (ids : List Nat) : Option Nat :=
  match _hdrop : ids.drop (ids.length / 2) with
  | [] => none
  | middle :: above =>
    match compare id middle with
    | .lt => position? id (ids.take (ids.length / 2))
    | .eq => some (ids.length / 2)
    | .gt => (position? id above).map fun position => ids.length / 2 + 1 + position
termination_by ids.length
decreasing_by
  all_goals
    have hlength := congrArg List.length _hdrop
    simp only [List.length_drop, List.length_cons, List.length_take] at hlength ⊢
    omega

namespace Component

variable {D : Type} [Domain D]

/-- Put a known value in the place of a handle, wherever the handle is found. -/
def substitute (id : Nat) (value : D) (component : Component D) : Component D :=
  match position? id component.ids with
  | some position => ⟨Domain.meet component.value value, component.ids.eraseIdx position⟩
  | none => component

/-- A component is known when no handle can change it: it has none, or its constant is bottom. -/
def isKnown [DecidableEq D] (component : Component D) : Bool :=
  component.ids.isEmpty || component.value = Domain.bottom

end Component

namespace Term

variable {D : Type} [Domain D] [DecidableEq D]

/-- Fold the known components of a sum, which settles it if they decide its value. -/
def normalize (sum : List (Component D)) : Term D :=
  let known := Domain.joinAll ((sum.filter Component.isKnown).map Component.value)
  let rest := sum.filter fun component => !component.isKnown
  if rest.isEmpty || known = Domain.top then .final known
  else if known = Domain.bottom then .pending rest
  else .pending (rest ++ [⟨known, []⟩])

/-- Put a known value in the place of a handle throughout a sum, and normalize. -/
def substitute (id : Nat) (value : D) (sum : List (Component D)) : Term D :=
  normalize (sum.map (Component.substitute id value))

end Term

end MonotoneEquations
