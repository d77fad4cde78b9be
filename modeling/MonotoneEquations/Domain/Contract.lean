import MonotoneEquations.Domain.Flat

/-!
# Contracts

The facts that an analysis of compiled methods infers about a method: what it returns, and whether
it has side effects. Two different contracts cannot hold at the same time, so as values of
equations contracts form a flat domain: their join says nothing and their meet is unreachable.

The contracts themselves are listed in a fixed order, which has no part in the domain.
-/

namespace MonotoneEquations

/-- What is known about the result or the effects of a method. -/
inductive Contract where
  | notNull
  | null
  | true
  | false
  | pure
  deriving DecidableEq, Ord, Repr

namespace Contract

/-- The name by which a contract is read, written and described. -/
def name : Contract → String
  | .notNull => "NotNull"
  | .null => "Null"
  | .true => "True"
  | .false => "False"
  | .pure => "Pure"

instance : Spelling Contract where
  read := readName
    [("NotNull", .notNull), ("Null", .null), ("True", .true), ("False", .false), ("Pure", .pure)]
  write := name
  describe := name

end Contract

end MonotoneEquations
