import MonotoneEquations.ArrivalSet
import MonotoneEquations.Diagnostics

/-!
# Tokens

The smallest parts of a text of equations are names and operators; blanks, line ends and comments
only separate them. A name starts with a letter or an underscore. Names of methods contain package
separators, markers of inner classes and descriptors, so those characters may follow; two slashes
in a row always start a comment, even within a name.

Only ASCII is accepted, anywhere in the text. Otherwise reading stops at the first character that
starts neither a token nor a separator.
-/

namespace MonotoneEquations

/-- The punctuation of equations. -/
inductive Operator where
  | define
  | and
  | or
  | not
  | unstable
  | semicolon
  deriving DecidableEq, Repr

/-- The character that stands for an operator. -/
def Operator.char : Operator → Char
  | .define => '='
  | .and => '&'
  | .or => '|'
  | .not => '!'
  | .unstable => '?'
  | .semicolon => ';'

/-- The operator that a character stands for. -/
def Operator.ofChar? : Char → Option Operator
  | '=' => some .define
  | '&' => some .and
  | '|' => some .or
  | '!' => some .not
  | '?' => some .unstable
  | ';' => some .semicolon
  | _ => none

/-- A character stands for an operator exactly when it is that operator's character. -/
theorem Operator.ofChar?_eq_some_iff {c : Char} {operator : Operator} :
    ofChar? c = some operator ↔ c = operator.char := by
  constructor
  · intro h
    unfold ofChar? at h
    split at h <;> simp at h <;> subst h <;> rfl
  · rintro rfl
    cases operator <;> rfl

/-- A name or an operator. -/
inductive Lexeme where
  | name (text : String)
  | operator (operator : Operator)
  deriving DecidableEq, Repr

/-- A lexeme and the line on which it stands. -/
structure Token where
  lexeme : Lexeme
  line : Nat
  deriving DecidableEq, Repr

/-- The tokens of a text, and the line on which the text ends. -/
structure Tokens where
  body : List Token
  lastLine : Nat
  deriving DecidableEq, Repr

/-- Why a text has no tokens. -/
inductive TokenError where
  /-- The text holds a character outside ASCII. -/
  | notAscii
  /-- No token starts with this character. -/
  | unexpected (line : Nat) (char : Char)
  deriving DecidableEq, Repr

/-- The report of a text without tokens; a text outside ASCII is reported at its first line. -/
def TokenError.report : TokenError → Report
  | .notAscii => ⟨.error, 1, "", "Only ASCII input is supported."⟩
  | .unexpected line char => ⟨.error, line, "", "Unexpected token: '" ++ char.toString ++ "'."⟩

namespace Tokens

/-- Whether a character separates tokens without ending the line. -/
def isBlank (c : Char) : Bool := c = ' ' || c = '\t' || c = '\r'

/-- Whether a name can start with a character. -/
def isNameStart (c : Char) : Bool := c.isAlpha || c = '_'

/-- Whether a character can follow in a name. -/
def isNameChar (c : Char) : Bool :=
  c.isAlphanum || ['_', '.', '$', '/', '<', '>', '(', ')', '['].contains c

/-- The rest of a text from the end of the current line on. -/
def afterLine (text : List Char) : List Char := text.dropWhile (· ≠ '\n')

/-- Whether a comment of two slashes starts here. -/
def startsComment : List Char → Bool
  | '/' :: '/' :: _ => true
  | _ => false

/-- Split a text after the characters that continue a name. -/
def splitName : List Char → List Char × List Char
  | [] => ([], [])
  | c :: rest =>
    if isNameChar c && !startsComment (c :: rest) then
      (c :: (splitName rest).1, (splitName rest).2)
    else ([], c :: rest)

/-- Splitting a name off loses no character. -/
theorem splitName_append (text : List Char) : (splitName text).1 ++ (splitName text).2 = text := by
  induction text with
  | nil => rfl
  | cons c rest ih =>
    unfold splitName
    split
    · simp [ih]
    · rfl

/-- What is left after a name is no longer than the text. -/
theorem length_splitName_le (text : List Char) : (splitName text).2.length ≤ text.length := by
  have h := congrArg List.length (splitName_append text)
  simp only [List.length_append] at h
  omega

/-- What is left after a line is no longer than the text. -/
theorem length_afterLine_le (text : List Char) : (afterLine text).length ≤ text.length :=
  (List.dropWhile_sublist _).length_le

/-- Put a token in front of the tokens that follow it. -/
def cons (token : Token) (tokens : Tokens) : Tokens := { tokens with body := token :: tokens.body }

/-- The tokens of a text that starts on the given line. -/
def scan (line : Nat) : List Char → Except TokenError Tokens
  | [] => .ok ⟨[], line⟩
  | c :: rest =>
    match Operator.ofChar? c with
    | some operator => (scan line rest).map (cons ⟨.operator operator, line⟩)
    | none =>
      if c = '\n' then scan (line + 1) rest
      else if isBlank c then scan line rest
      else if c = '#' || startsComment (c :: rest) then
        have := length_afterLine_le rest
        scan line (afterLine rest)
      else if isNameStart c then
        have := length_splitName_le rest
        (scan line (splitName rest).2).map
          (cons ⟨.name (String.ofList (c :: (splitName rest).1)), line⟩)
      else .error (.unexpected line c)
termination_by text => text.length

/-- The tokens of a text of equations. -/
def ofSource (source : String) : Except TokenError Tokens :=
  if source.toList.all (·.toNat < 128) then scan 1 source.toList else .error .notAscii

/-- The names of a text, each at its first occurrence. -/
def names (tokens : Tokens) : ArrivalSet String :=
  .ofList (tokens.body.filterMap fun token =>
    match token.lexeme with
    | .name text => some text
    | .operator _ => none)

/-- The position of a name in a table of names. -/
def indexIn? (names : ArrivalSet String) (name : String) : Option Nat := names.toList.idxOf? name

/-- The label under which a lexeme is listed: a name by its position in the table of names. -/
def label (names : ArrivalSet String) : Lexeme → String
  | .name text => "name_" ++ toString (names.toList.idxOf text)
  | .operator operator => operator.char.toString

/-- The label under which the end of a text is listed. -/
def endLabel : String := "END_OF_FILE"

end Tokens

end MonotoneEquations
