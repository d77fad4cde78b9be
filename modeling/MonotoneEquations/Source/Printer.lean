import MonotoneEquations.Source.Definition

/-!
# Printed equations and solutions

Equations are printed in the form in which they are read, one to a line. Top is the unit of meet,
so the constant of a product is left out if it is top and the product has keys. An empty set of
products has no written form; it prints as nothing.

A solution lists the keys that have a definition, in the order of keys and once each. Keys without
a value are listed on demand, with a question mark in place of the value.
-/

namespace MonotoneEquations

variable {D : Type} [Spelling D]

/-- The printed form of a product. -/
def Product.print [Domain D] [DecidableEq D] (product : Product D) : String :=
  let value :=
    if product.value ≠ Domain.top ∨ product.ids.isEmpty then [Spelling.write product.value] else []
  " & ".intercalate (value ++ product.ids.toList.map Key.write)

/-- The printed form of a right hand side. -/
def Rhs.print [Domain D] [DecidableEq D] : Rhs D → String
  | .final value => Spelling.write value
  | .pending products => " | ".intercalate (products.toList.map Product.print)

/-- The printed form of an equation, with the line feed that ends it. -/
def Equation.print [Domain D] [DecidableEq D] (equation : Equation D) : String :=
  equation.key.write ++ " = " ++ equation.rhs.print ++ ";\n"

/-- The printed form of a list of definitions. -/
def printEquations [Domain D] [DecidableEq D] (definitions : List (Definition D)) : String :=
  String.join (definitions.map fun definition => definition.equation.print)

/-- The line of a solution about a key, if it has one. -/
def solutionLine? (showUnresolved : Bool) (solution : KeyMap D) (key : Key) : Option String :=
  match solution.get? key with
  | some value => some (key.write ++ " = " ++ Spelling.write value ++ "\n")
  | none => if showUnresolved then some (key.write ++ " = ?\n") else none

/-- The printed form of a solution, restricted to the keys of some definitions. -/
def printSolution (showUnresolved : Bool) (definitions : List (Definition D))
    (solution : KeyMap D) : String :=
  let keys := KeySet.ofList (definitions.map fun definition => definition.equation.key)
  String.join (keys.toList.filterMap (solutionLine? showUnresolved solution))

end MonotoneEquations
