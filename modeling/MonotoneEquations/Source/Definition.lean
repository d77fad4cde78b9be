import MonotoneEquations.Equation
import MonotoneEquations.Source.Statement
import MonotoneEquations.Spelling

/-!
# Definitions

A definition is an equation over a domain together with the line on which it was written. An atom
without marks whose base spells a value of the domain is that value; every other atom is a key. An
alternative is the meet of its atoms, and a statement is the join of its alternatives.

A statement whose alternatives cannot be joined within the limit is dropped and reported, and the
others stay. If the text has an error, the dropped statements before it are still reported, but
there are no definitions.
-/

namespace MonotoneEquations

/-- An equation and the line on which it was written. -/
structure Definition (D : Type) where
  line : Nat
  equation : Equation D
  deriving DecidableEq

/-- What a text of equations gives: the definitions, if it is free of errors, and the reports. -/
structure Reading (D : Type) where
  definitions? : Option (List (Definition D))
  reports : List Report

variable {D : Type} [Domain D] [DecidableEq D] [Spelling D]

/-- The value that an atom spells, if it has no marks and the domain knows its base. -/
def Key.constant? (atom : Key) : Option D :=
  if atom.stable && !atom.negated then Spelling.read? atom.base else none

/-- The right hand side of an alternative: a value, unless one of its atoms is a key. -/
def Rhs.ofAlternative (atoms : List Key) : Rhs D :=
  let value := Domain.meetAll (atoms.filterMap Key.constant?)
  let keys := atoms.filter fun atom => (atom.constant? : Option D).isNone
  if keys.isEmpty then .final value else .ofProducts [.ofKeys value keys]

/-- The join of alternatives, from left to right; nothing joins to bottom. -/
def Rhs.ofAlternatives (limit : Nat) : List (List Key) → Except TooLarge (Rhs D)
  | [] => .ok (.final Domain.bottom)
  | first :: others =>
    others.foldlM (fun rhs atoms => rhs.join limit (.ofAlternative atoms)) (.ofAlternative first)

namespace Statement

/-- The report of a statement that was dropped because its right hand side is too large. -/
def dropReport (statement : Statement) (excess : TooLarge) : Report :=
  ⟨.error, statement.line, "at '" ++ statement.key.base ++ "'",
    "Equation dropped, " ++ excess.message ++ "."⟩

/-- The definition that a statement makes, or the report that it was dropped. -/
def define (limit : Nat) (statement : Statement) : Except Report (Definition D) :=
  match Rhs.ofAlternatives limit statement.alternatives with
  | .ok rhs => .ok ⟨statement.line, statement.key, rhs⟩
  | .error excess => .error (statement.dropReport excess)

/-- The definitions and the reports of a list of statements, each in the order of the text. -/
def defineAll (limit : Nat) : List Statement → List (Definition D) × List Report
  | [] => ([], [])
  | statement :: rest =>
    let (definitions, reports) := defineAll limit rest
    match statement.define limit with
    | .ok definition => (definition :: definitions, reports)
    | .error report => (definitions, report :: reports)

end Statement

namespace Reading

/-- The definitions of the tokens of a text. -/
def ofTokens (limit : Nat) (tokens : Tokens) : Reading D :=
  let script := Script.ofTokens tokens.body
  let (definitions, reports) := Statement.defineAll limit script.statements
  match script.failure with
  | none => ⟨some definitions, reports⟩
  | some error => ⟨none, reports ++ [error.report tokens.lastLine]⟩

/-- The definitions of a text of equations. -/
def ofSource (limit : Nat) (source : String) : Reading D :=
  match Tokens.ofSource source with
  | .ok tokens => ofTokens limit tokens
  | .error error => ⟨none, [error.report]⟩

end Reading

end MonotoneEquations
