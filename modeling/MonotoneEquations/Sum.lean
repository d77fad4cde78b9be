import MonotoneEquations.Product

/-!
# Partly known sums

While a system is being solved, an equation is the join of a list of products of which some may
already be known. Normalizing folds the known products into one constant. If nothing else is left,
or if the constant is top, the sum has that value; otherwise the constant stays as a last product
without keys, so that it still counts after later substitutions. A constant of bottom adds nothing
and is left out.

The remaining products keep their order.
-/

namespace MonotoneEquations

/-- How far an equation is known: it waits on the keys of a sum, or it has a value. -/
inductive Status (D : Type) where
  | waiting (sum : List (Product D))
  | resolved (value : D)
  deriving DecidableEq

namespace Status

variable {D : Type}

/-- The keys that an equation waits on, as they occur in its sum. -/
def mentions : Status D → List Key
  | .waiting sum => sum.flatMap fun product => product.ids.toList
  | .resolved _ => []

/-- Whether an equation has no value yet. -/
def isWaiting : Status D → Bool
  | .waiting _ => true
  | .resolved _ => false

/-- The value of an equation, if it has one. -/
def value? : Status D → Option D
  | .waiting _ => none
  | .resolved value => some value

variable [Domain D] [DecidableEq D]

/-- The join of the known products of a sum. -/
def knownPart (sum : List (Product D)) : D :=
  Domain.joinAll ((sum.filter Product.isKnown).map Product.value)

/-- The products of a sum that still depend on a key. -/
def openPart (sum : List (Product D)) : List (Product D) :=
  sum.filter fun product => !product.isKnown

/-- Fold the known products of a sum, which resolves it if that settles its value. -/
def normalize (sum : List (Product D)) : Status D :=
  let known := knownPart sum
  let rest := openPart sum
  if rest.isEmpty || known = Domain.top then .resolved known
  else if known = Domain.bottom then .waiting rest
  else .waiting (rest ++ [.constant known])

/-- Put a known value in the place of a key throughout a sum, and normalize. -/
def substitute (key : Key) (value : D) (sum : List (Product D)) : Status D :=
  normalize (sum.map (Product.substitute key value))

end Status

end MonotoneEquations
