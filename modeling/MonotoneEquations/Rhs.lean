import MonotoneEquations.ArrivalSet
import MonotoneEquations.Product

/-!
# Right hand sides

The right hand side of an equation is a value that is already known, or the join of a set of
products that mention keys. The set remembers the order of its products, which the printed form
shows and the meaning ignores; an empty set stands for bottom.

Two right hand sides are joined without knowing any key. Top absorbs the other side, and joining
two sets fails if the union mentions more keys than a limit allows. Adding a known value to a set
is never refused, whatever the limit.
-/

namespace MonotoneEquations

/-- The value of an equation, or the products whose join it is. -/
inductive Rhs (D : Type) where
  | final (value : D)
  | pending (products : ArrivalSet (Product D))
  deriving DecidableEq

/-- A set of products that mentions more keys than allowed. -/
structure TooLarge where
  size : Nat
  limit : Nat
  deriving DecidableEq, Repr

/-- The message that reports a set of products above the limit. -/
def TooLarge.message (error : TooLarge) : String :=
  "equation size " ++ toString error.size ++ " exceeds the limit of " ++ toString error.limit

namespace Rhs

variable {D : Type}

/-- The number of key occurrences. -/
def size : Rhs D → Nat
  | .final _ => 0
  | .pending products => Product.occurrences products.toList

/-- Accept a set of products whose size is within the limit. -/
def pendingWithin (limit : Nat) (products : ArrivalSet (Product D)) : Except TooLarge (Rhs D) :=
  let size := Product.occurrences products.toList
  if limit < size then .error ⟨size, limit⟩ else .ok (.pending products)

variable [DecidableEq D]

/-- Whether two right hand sides are the same value or have the same products. -/
def Same : Rhs D → Rhs D → Prop
  | .final a, .final b => a = b
  | .pending ps, .pending qs => ps.SameMembers qs
  | _, _ => False

instance (r s : Rhs D) : Decidable (r.Same s) := by
  cases r <;> cases s <;> unfold Same <;> infer_instance

/-- The pending right hand side of a list of products. -/
def ofProducts (products : List (Product D)) : Rhs D := .pending (.ofList products)

variable [Domain D]

/-- The right hand side that is known to be top. -/
def top : Rhs D := .final Domain.top

/-- The join of two right hand sides; the first side decides when both are top. -/
def join (limit : Nat) (r s : Rhs D) : Except TooLarge (Rhs D) :=
  if r = top then .ok r
  else if s = top then .ok s
  else
    match r, s with
    | .final a, .final b => .ok (.final (Domain.join a b))
    | .final a, .pending products | .pending products, .final a =>
      .ok (.pending (products.insert (.constant a)))
    | .pending ps, .pending qs => pendingWithin limit (ps.insertAll qs.toList)

end Rhs

end MonotoneEquations
