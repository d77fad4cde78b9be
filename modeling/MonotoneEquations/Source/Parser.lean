import MonotoneEquations.Source.Definition
import MonotoneEquations.Source.Scanner

/-!
# Parsing by position

A parser goes over the marks of a text with one position, looks names up in their table, and builds
definitions on the way. A part of an equation that cannot be read has no result, and then the error has
been reported. As for a scanner, a run is checked: reading a mark or a name that is not there is a fault,
stepping behind the last mark is one, and asking for the mark before the first one is one. A loop is cut
off after the number of rounds that it is given.

`Reading.ofTokens` describes the same definitions without positions.
-/

namespace MonotoneEquations

/-- The state of a parser. -/
structure Parser where
  marks : List Mark
  names : ArrivalSet String
  current : Nat
  reports : List Report

/-- A computation that moves a parser, and that has no result if something cannot be read. -/
abbrev Parsing : Type → Type := OptionT (StateT Parser Checked)

namespace Parser

/-- A parser at the first mark of a text. -/
def new (scanned : Scanned) : Parser := ⟨scanned.marks, scanned.names, 0, scanned.reports⟩

/-- Run a computation on a parser. -/
def run {α : Type} (parser : Parser) (parsing : Parsing α) : Checked (Option α × Parser) :=
  StateT.run (OptionT.run parsing) parser

/-- Stop with a fault. -/
def fault {α : Type} (fault : Fault) : Parsing α := OptionT.lift (StateT.lift (throw fault))

/-- Be cut off. -/
def cutOff {α : Type} : Parsing α := OptionT.lift (StateT.lift (ExceptT.lift none))

/-- The mark at a place. -/
def markAt (place : Nat) : Parsing Mark := do
  match (← get).marks[place]? with
  | some mark => return mark
  | none => fault (.mark place)

/-- The next mark. -/
def peek : Parsing Mark := do markAt (← get).current

/-- The mark before the next one. -/
def previous : Parsing Mark := do
  let parser ← get
  if parser.current = 0 then fault .noMarkBefore else markAt (parser.current - 1)

/-- The name at a place of the table. -/
def nameAt (place : Nat) : Parsing String := do
  match (← get).names.toList[place]? with
  | some name => return name
  | none => fault (.name place)

/-- Whether the end of the text is next. -/
def isAtEnd : Parsing Bool := do return (← peek).word = .endOfText

/-- Whether an operator is next. -/
def check (operator : Operator) : Parsing Bool := do
  if ← isAtEnd then return false else return (← peek).word = .operator operator

/-- Go one mark on. -/
def step : Parsing Unit := do
  let parser ← get
  if parser.current + 1 < parser.marks.length then
    set { parser with current := parser.current + 1 }
  else fault (.mark (parser.current + 1))

/-- Take the next mark, but never the end of the text. -/
def advance : Parsing Mark := do
  if !(← isAtEnd) then step
  previous

/-- Report an error at a mark. -/
def report (mark : Mark) (message : String) : Parsing Unit := do
  let item ← match mark.word with
    | .endOfText => pure "at end of file"
    | .name place => do pure ("at '" ++ (← nameAt place) ++ "'")
    | .operator operator => pure ("at '" ++ operator.char.toString ++ "'")
  modify fun parser =>
    { parser with reports := parser.reports ++ [⟨.error, mark.line, item, message⟩] }

/-- Take an operator that has to be next. -/
def consume (operator : Operator) : Parsing Mark := do
  if ← check operator then advance
  else
    report (← peek) ("'" ++ operator.char.toString ++ "' expected.")
    failure

/-- Take an operator if it is next. -/
def tryConsume (operator : Operator) : Parsing (Option Mark) := do
  if ← check operator then return some (← advance) else return none

/-- Read a name that may be marked as unstable, with its own mark. -/
def markedName (negated : Bool) : Parsing (Mark × Key) := do
  let mark ← peek
  match mark.word with
  | .name place =>
    let _ ← advance
    let base ← nameAt place
    let stable := (← tryConsume .unstable).isNone
    return (mark, ⟨base, stable, negated⟩)
  | _ =>
    report mark "Key expected."
    failure

/-- Read a key, with the mark of its name. -/
def key : Parsing (Mark × Key) := do markedName (← tryConsume .not).isSome

/-- Whether a name with a mark for unstable keys is next. -/
def isUnstableName : Parsing Bool := do
  match (← peek).word with
  | .name _ =>
    let parser ← get
    return parser.marks[parser.current + 1]?.any (·.word = .operator .unstable)
  | _ => return false

/-- Read parts with an operator between them, after some others. -/
def parts {α : Type} (operator : Operator) (part : Parsing α) : Nat → List α → Parsing (List α)
  | 0, _ => cutOff
  | rounds + 1, read => do
    let a ← part
    if (← tryConsume operator).isSome then parts operator part rounds (read ++ [a])
    else return read ++ [a]

/-- An atom is a value or a key. -/
inductive Atom (D : Type) where
  | value (value : D)
  | key (key : Key)

/-- The value of an atom, if it is one. -/
def Atom.value? {D : Type} : Atom D → Option D
  | .value constant => some constant
  | .key _ => none

/-- The key of an atom, if it is one. -/
def Atom.key? {D : Type} : Atom D → Option Key
  | .value _ => none
  | .key reference => some reference

variable {D : Type} [Domain D] [DecidableEq D] [Spelling D]

/-- The value that the next mark spells, if it is an unmarked name that spells one. -/
def spelled? : Parsing (Option D) := do
  if ← check .not then return none
  if ← isUnstableName then return none
  match (← peek).word with
  | .name place => return Spelling.read? (← nameAt place)
  | _ => return none

/-- Read an atom. -/
def atom : Parsing (Atom D) := do
  match ← spelled? with
  | some value =>
    let _ ← advance
    return .value value
  | none => return .key (← key).2

/-- Read a product, which is a value unless one of its atoms is a key. -/
def product (rounds : Nat) : Parsing (Rhs D) := do
  let atoms ← parts .and atom rounds []
  let value : D := Domain.meetAll (atoms.filterMap Atom.value?)
  let keys := atoms.filterMap Atom.key?
  return if keys.isEmpty then .final value else .ofProducts [.ofKeys value keys]

/-- Read the key of an equation, with the mark of its name, and the products. -/
def written (rounds : Nat) : Parsing ((Mark × Key) × List (Rhs D)) := do
  let placed ← key
  let _ ← consume .define
  let products ← parts .or (product rounds) rounds []
  let _ ← consume .semicolon
  return (placed, products)

/-- Define a key by products, unless they cannot be joined within the limit. -/
def define (limit : Nat) (placed : Mark × Key) : List (Rhs D) → Parsing (Option (Definition D))
  | [] => failure
  | first :: others =>
    match others.foldlM (fun rhs product => rhs.join limit product) first with
    | .ok rhs => return some ⟨placed.1.line, placed.2, rhs⟩
    | .error excess => do
      report placed.1 ("Equation dropped, " ++ excess.message ++ ".")
      return none

/-- Read an equation. It has no definition if it is dropped. -/
def equation (limit rounds : Nat) : Parsing (Option (Definition D)) := do
  let (placed, products) ← written rounds
  define limit placed products

/-- Read equations up to the end of the text, after some that have definitions. -/
def equations (limit : Nat) : Nat → List (Definition D) → Parsing (List (Definition D))
  | 0, _ => cutOff
  | rounds + 1, read => do
    if ← isAtEnd then return read
    let definition? ← equation limit (rounds + 1)
    equations limit rounds (read ++ definition?.toList)

end Parser

/-- The definitions of a text of equations, read by position. A text without marks is not parsed. -/
def Reading.byPosition {D : Type} [Domain D] [DecidableEq D] [Spelling D] (rounds limit : Nat)
    (source : String) : Checked (Reading D) := do
  let scanned ← Scanner.scan rounds source
  if scanned.marks.isEmpty then return ⟨none, scanned.reports⟩
  let (definitions?, parser) ← (Parser.new scanned).run (Parser.equations limit rounds [])
  return ⟨definitions?, parser.reports⟩

end MonotoneEquations
