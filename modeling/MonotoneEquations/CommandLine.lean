import MonotoneEquations.Session

/-!
# The command line

The arguments set a domain and a limit, turn on switches, and name the file with the equations.
Settings take a value, either after an equals sign in the same argument or as the next argument;
switches take none. Switches also have one-letter forms, several of which can share an argument.
After an argument of two dashes everything names a file. Nothing may be given twice.

Arguments are read from left to right. A value is only looked at once it is complete: at the next
setting, switch or file name, or at the end. An argument that is not understood is reported first,
before any fault in a value that still waits. That is the order in which faults are found; the
first one found is the answer.
-/

namespace MonotoneEquations

/-- Why there is nothing to run. -/
inductive UsageError where
  | unknownArgument
  | valueValidation
  | invalidValue
  | argumentConflict
  | missingRequiredArgument
  | tooManyValues
  | displayHelp
  | displayVersion
  deriving DecidableEq, Repr

/-- The code with which the program ends; asking for help or the version is no fault. -/
def UsageError.exitCode : UsageError → Nat
  | .displayHelp | .displayVersion => 0
  | _ => 2

namespace CommandLine

/-- The arguments that take a value. -/
inductive Setting where
  | domain
  | limit
  deriving DecidableEq, Repr

/-- The arguments that take no value. -/
inductive Switch where
  | showUnresolved
  | dumpEquations
  | verbose
  | help
  | version
  deriving DecidableEq, Repr

/-- An argument that is spelled with two dashes. -/
inductive Flag where
  | setting (setting : Setting)
  | switch (switch : Switch)
  deriving DecidableEq, Repr

/-- The argument that a name after two dashes stands for. -/
def Flag.ofName? (name : String) : Option Flag :=
  [("domain", .setting .domain), ("limit", .setting .limit),
    ("show-unresolved", .switch .showUnresolved), ("dump-equations", .switch .dumpEquations),
    ("verbose", .switch .verbose), ("help", .switch .help), ("version", .switch .version)].lookup name

/-- The switch that a letter after one dash stands for. -/
def Switch.ofLetter? : Char → Option Switch
  | 'v' => some .verbose
  | 'h' => some .help
  | 'V' => some .version
  | _ => none

/-- The domain that a value of the domain setting names. -/
def readDomain (text : String) : Except UsageError DomainChoice :=
  match text with
  | "ternary" => .ok .ternary
  | "contract" => .ok .contract
  | _ => .error .invalidValue

/-- The number that decimal digits write. -/
def ofDigits (digits : List Char) : Nat :=
  digits.foldl (fun n c => 10 * n + (c.toNat - '0'.toNat)) 0

/-- The largest limit, which takes 64 bits. -/
def largestLimit : Nat := 18446744073709551615

/-- A limit is written with decimal digits after an optional plus sign. -/
def readLimit (text : String) : Except UsageError Nat :=
  let digits := match text.toList with
    | '+' :: rest => rest
    | all => all
  if digits ≠ [] ∧ digits.all Char.isDigit ∧ ofDigits digits ≤ largestLimit then .ok (ofDigits digits)
  else .error .valueValidation

/-- What the arguments have settled so far. -/
structure Draft where
  domain? : Option DomainChoice := none
  limit? : Option Nat := none
  switches : List Switch := []
  filename? : Option String := none
  deriving DecidableEq, Repr

/-- An argument that is not settled yet: a setting that may lack its value, or a file name. -/
inductive Held where
  | setting (setting : Setting) (value? : Option String)
  | filename (text : String)
  deriving DecidableEq, Repr

namespace Draft

/-- Settle a setting: it needs a value, may not be settled before, and the value must be readable. -/
def set (draft : Draft) (setting : Setting) : Option String → Except UsageError Draft
  | none => .error .invalidValue
  | some text =>
    match setting with
    | .domain =>
      if draft.domain?.isSome then .error .argumentConflict
      else (readDomain text).map fun domain => { draft with domain? := some domain }
    | .limit =>
      if draft.limit?.isSome then .error .argumentConflict
      else (readLimit text).map fun limit => { draft with limit? := some limit }

/-- Turn a switch on. -/
def turnOn (draft : Draft) : Switch → Except UsageError Draft
  | .help => .error .displayHelp
  | .version => .error .displayVersion
  | switch =>
    if draft.switches.contains switch then .error .argumentConflict
    else .ok { draft with switches := switch :: draft.switches }

/-- Settle the argument that was held back. -/
def settle (draft : Draft) : Option Held → Except UsageError Draft
  | none => .ok draft
  | some (.setting setting value?) => draft.set setting value?
  | some (.filename text) => .ok { draft with filename? := some text }

/-- Turn on the switches of the letters of an argument, from left to right. -/
def turnOnLetters (draft : Draft) : List Char → Except UsageError Draft
  | [] => .ok draft
  | c :: rest =>
    match Switch.ofLetter? c with
    | none => .error .unknownArgument
    | some switch => do (← draft.turnOn switch).turnOnLetters rest

/-- The options of a complete command line. -/
def options (draft : Draft) : Except UsageError Options :=
  match draft.filename? with
  | none => .error .missingRequiredArgument
  | some filename =>
    .ok {
      domain := draft.domain?.getD .ternary
      limit := draft.limit?.getD defaultLimit
      showUnresolved := draft.switches.contains .showUnresolved
      dumpEquations := draft.switches.contains .dumpEquations
      verbose := draft.switches.contains .verbose
      filename }

end Draft

/-- The draft and the argument held back after an argument with two dashes. -/
def long (draft : Draft) (held : Option Held) (body : List Char) :
    Except UsageError (Draft × Option Held) :=
  let name := String.ofList (body.takeWhile (· ≠ '='))
  let value? := (body.dropWhile (· ≠ '=')).tail?.map String.ofList
  match Flag.ofName? name, value? with
  | none, _ => .error .unknownArgument
  | some (.switch _), some _ => .error .tooManyValues
  | some (.switch switch), none => do return (← (← draft.settle held).turnOn switch, none)
  | some (.setting setting), some value => do
    return (← (← draft.settle held).set setting (some value), none)
  | some (.setting setting), none => do
    return (← draft.settle held, some (.setting setting none))

/-- The draft and the argument held back after an argument with one dash. -/
def short (draft : Draft) (held : Option Held) (letters : List Char) :
    Except UsageError (Draft × Option Held) :=
  match letters with
  | c :: _ =>
    if (Switch.ofLetter? c).isNone then .error .unknownArgument
    else do return (← (← draft.settle held).turnOnLetters letters, none)
  | [] => .ok (draft, held)

/-- Whether the file is already named, settled or not. -/
def hasFilename (draft : Draft) (held : Option Held) : Bool :=
  match held with
  | some (.filename _) => true
  | _ => draft.filename?.isSome

/-- The draft and the argument held back after an argument that names the file. -/
def positional (draft : Draft) (held : Option Held) (text : String) :
    Except UsageError (Draft × Option Held) :=
  if hasFilename draft held then .error .unknownArgument
  else do return (← draft.settle held, some (.filename text))

/-- Read the rest of the arguments; after two dashes alone they all name the file. -/
def readFrom (draft : Draft) (held : Option Held) (trailing : Bool) :
    List String → Except UsageError Options
  | [] => do (← draft.settle held).options
  | text :: rest =>
    if trailing then do
      let (draft, held) ← positional draft held text
      readFrom draft held true rest
    else
      match text.toList with
      | ['-', '-'] => readFrom draft held true rest
      | '-' :: '-' :: body => do
        let (draft, held) ← long draft held body
        readFrom draft held false rest
      | '-' :: c :: letters => do
        let (draft, held) ← short draft held (c :: letters)
        readFrom draft held false rest
      | _ =>
        match held with
        | some (.setting setting none) => readFrom draft (some (.setting setting (some text))) false rest
        | _ => do
          let (draft, held) ← positional draft held text
          readFrom draft held false rest

end CommandLine

/-- The options that a list of arguments asks for. -/
def Options.ofArguments (arguments : List String) : Except UsageError Options :=
  CommandLine.readFrom {} none false arguments

end MonotoneEquations
