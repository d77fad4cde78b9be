import MonotoneEquations.Source.Token

/-!
# Scanning by position

A scanner goes over a text with two positions: where the current lexeme starts, and the first character
that it has not taken. Lexemes are numbered: a name stands for its place in a table, and the end of a
text is marked by a lexeme of its own.

Positions can leave the text and loops can go on for ever, so a run is checked. It has a result, it
stops with a fault at the first step out of bounds, or it has no outcome: loops are given a number of
rounds, and a run that needs more is cut off. Nothing here assumes that some number is enough. A step
behind the end of the text is a fault as well, although it would do no harm by itself.

`Tokens.ofSource` describes the same lexemes without positions.
-/

namespace MonotoneEquations

/-- How a run leaves its bounds. -/
inductive Fault where
  /-- A position behind the end of the text. -/
  | position (position : Nat)
  /-- A part of the text that does not lie inside it. -/
  | part (start stop : Nat)
  /-- A place at which there is no mark. -/
  | mark (place : Nat)
  /-- The mark before the first one. -/
  | noMarkBefore
  /-- A place at which the table of names has no name. -/
  | name (place : Nat)
  deriving DecidableEq, Repr

/-- A run that may stop with a fault, or be cut off. -/
abbrev Checked : Type → Type := ExceptT Fault Option

/-- A numbered lexeme: a name by its place in a table, an operator, or the end of the text. -/
inductive Word where
  | name (place : Nat)
  | operator (operator : Operator)
  | endOfText
  deriving DecidableEq, Repr

/-- A numbered lexeme and the line on which it stands. -/
structure Mark where
  word : Word
  line : Nat
  deriving DecidableEq, Repr

/-- What scanning a text gives: its marks and the table of its names, and the reports. -/
structure Scanned where
  marks : List Mark
  names : ArrivalSet String
  reports : List Report
  deriving DecidableEq

/-- The state of a scan over the characters of an ASCII text. -/
structure Scanner where
  text : List Char
  start : Nat
  current : Nat
  line : Nat
  failed : Bool
  names : ArrivalSet String
  reports : List Report

/-- A computation that moves a scanner. -/
abbrev Scanning : Type → Type := StateT Scanner Checked

namespace Scanner

/-- A scanner at the start of a text. -/
def new (text : List Char) : Scanner := ⟨text, 0, 0, 1, false, .empty, []⟩

/-- Run a computation on a scanner. -/
def run {α : Type} (scanner : Scanner) (scanning : Scanning α) : Checked (α × Scanner) :=
  StateT.run scanning scanner

/-- Whether the whole text is taken. -/
def isAtEnd (scanner : Scanner) : Bool := scanner.text.length ≤ scanner.current

/-- The next character, or the null character at the end of the text. -/
def peek (scanner : Scanner) : Char := scanner.text.getD scanner.current '\x00'

/-- The character after the next one, or the null character if there is none. -/
def peekNext (scanner : Scanner) : Char := scanner.text.getD (scanner.current + 1) '\x00'

/-- Stop with a fault. -/
def fault {α : Type} (fault : Fault) : Scanning α := StateT.lift (throw fault)

/-- Be cut off. -/
def cutOff {α : Type} : Scanning α := StateT.lift (ExceptT.lift none)

/-- Go one position on. -/
def step : Scanning Unit := do
  let scanner ← get
  if scanner.current < scanner.text.length then
    set { scanner with current := scanner.current + 1 }
  else fault (.position (scanner.current + 1))

/-- Take the next character. -/
def advance : Scanning Char := do
  let next := (← get).peek
  step
  return next

/-- Take the next character if it is the expected one. -/
def matchChar (expected : Char) : Scanning Bool := do
  if (← get).peek = expected then
    step
    return true
  else return false

/-- The part of the text from the start of the current lexeme to the current position. -/
def part : Scanning String := do
  let scanner ← get
  if scanner.start ≤ scanner.current ∧ scanner.current ≤ scanner.text.length then
    return String.ofList ((scanner.text.take scanner.current).drop scanner.start)
  else fault (.part scanner.start scanner.current)

/-- Report what was taken as something that starts no lexeme. -/
def unexpected : Scanning Unit := do
  let text ← part
  modify fun scanner =>
    { scanner with
      failed := true
      reports := scanner.reports ++
        [⟨.error, scanner.line, "", "Unexpected token: '" ++ text ++ "'."⟩] }

/-- The place of a name in the table, to which a new name is added. -/
def placeOf (name : String) : Scanning Nat := do
  let scanner ← get
  if name ∈ scanner.names then return scanner.names.indexOf name
  else
    set { scanner with names := scanner.names.insert name }
    return scanner.names.toList.length

/-- Skip to the end of the line. -/
def skipLine : Nat → Scanning Unit
  | 0 => cutOff
  | rounds + 1 => do
    let scanner ← get
    if !scanner.isAtEnd && scanner.peek != '\n' then
      let _ ← advance
      skipLine rounds
    else return ()

/-- Skip the characters that continue a name. -/
def skipName : Nat → Scanning Unit
  | 0 => cutOff
  | rounds + 1 => do
    let scanner ← get
    if Tokens.isNameChar scanner.peek && !(scanner.peek = '/' && scanner.peekNext = '/') then
      let _ ← advance
      skipName rounds
    else return ()

/-- Take the rest of a name. -/
def takeName (rounds : Nat) : Scanning String := do
  skipName rounds
  part

/-- The next mark behind separators. There is none at the end of the text, and none after an error. -/
def next : Nat → Scanning (Option Mark)
  | 0 => cutOff
  | rounds + 1 => do
    if (← get).isAtEnd then return none
    modify fun scanner => { scanner with start := scanner.current }
    let first ← advance
    match Operator.ofChar? first with
    | some operator => return some ⟨.operator operator, (← get).line⟩
    | none =>
      if first = '\n' then
        modify fun scanner => { scanner with line := scanner.line + 1 }
        next rounds
      else if Tokens.isBlank first then next rounds
      else if first = '#' then
        skipLine rounds
        next rounds
      else if first = '/' then
        if ← matchChar '/' then
          skipLine rounds
          next rounds
        else
          unexpected
          return none
      else if Tokens.isNameStart first then
        let name ← takeName rounds
        let place ← placeOf name
        return some ⟨.name place, (← get).line⟩
      else
        unexpected
        return none

/-- Collect marks up to the end of the text, after some others; there are none after an error. -/
def collect : Nat → List Mark → Scanning Scanned
  | 0, _ => cutOff
  | rounds + 1, marks => do
    let scanner ← get
    if scanner.isAtEnd then
      return ⟨marks ++ [⟨.endOfText, scanner.line⟩], scanner.names, scanner.reports⟩
    match ← next (rounds + 1) with
    | some mark => collect rounds (marks ++ [mark])
    | none =>
      let scanner ← get
      if scanner.failed then return ⟨[], .empty, scanner.reports⟩ else collect rounds marks

/-- The marks of a text; only ASCII is scanned. -/
def scan (rounds : Nat) (source : String) : Checked Scanned :=
  if source.toList.all (·.toNat < 128) then do
    let (scanned, _) ← (new source.toList).run (collect rounds [])
    return scanned
  else return ⟨[], .empty, [TokenError.notAscii.report]⟩

end Scanner

end MonotoneEquations
