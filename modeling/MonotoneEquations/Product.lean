import MonotoneEquations.Domain.Basic
import MonotoneEquations.Key

/-!
# Products

A product is the meet of a constant and the values of finitely many keys. A product without keys
is that constant. Once the value of a key is known, it is met into the constant and the key
disappears.
-/

namespace MonotoneEquations

/-- The meet of a constant and the values of some keys. -/
structure Product (D : Type) where
  value : D
  ids : KeySet
  deriving DecidableEq

namespace Product

variable {D : Type}

/-- The product of a constant and a list of keys, whose order and repetition do not matter. -/
def ofKeys (value : D) (keys : List Key) : Product D := ⟨value, .ofList keys⟩

/-- A product without keys. -/
def constant (value : D) : Product D := ⟨value, .empty⟩

/-- Put a known value in the place of a key, wherever the key occurs. -/
def substitute [Domain D] (key : Key) (value : D) (product : Product D) : Product D :=
  if key ∈ product.ids then ⟨Domain.meet product.value value, product.ids.erase key⟩ else product

/-- A product is known when no key can change it: it has none, or its constant is bottom. -/
def isKnown [Domain D] [DecidableEq D] (product : Product D) : Bool :=
  product.ids.isEmpty || product.value = Domain.bottom

/-- The number of key occurrences in a list of products. -/
def occurrences : List (Product D) → Nat
  | [] => 0
  | product :: rest => product.ids.size + occurrences rest

end Product

end MonotoneEquations
