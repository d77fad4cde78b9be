import MonotoneEquations.Text.Quoted

/-!
# Spellings of values

How values of a type are read from a text, written back, and described in the log. Reading can
fail in two ways: most types name the text they do not know, while the two truth values only say
which texts they accept.

The written form of a value reads back as that value for the types of this library whose values
have names of their own. A flat domain over arbitrary texts is the exception, since two of its
element texts are taken by the bounds.
-/

namespace MonotoneEquations

/-- Why a text is not the spelling of a value. -/
inductive ReadError where
  /-- No value is spelled by this text. -/
  | unknownValue (text : String)
  /-- The text is neither of the two truth values. -/
  | notBoolean
  deriving DecidableEq, Repr

/-- The message that reports an unreadable value. -/
def ReadError.message : ReadError → String
  | .unknownValue text => "unknown lattice value '" ++ text ++ "'"
  | .notBoolean => "provided string was not `true` or `false`"

/-- Values that are read from a text, written as a text, and described in the log. -/
class Spelling (D : Type) where
  /-- The value spelled by a text. -/
  read : String → Except ReadError D
  /-- The text that spells a value. -/
  write : D → String
  /-- The description of a value in the log. -/
  describe : D → String

/-- The value spelled by a text, if there is one. -/
def Spelling.read? {D : Type} [Spelling D] (text : String) : Option D :=
  match Spelling.read text with
  | .ok value => some value
  | .error _ => none

/-- Read a value from a fixed table of names. -/
def readName {D : Type} (names : List (String × D)) (text : String) : Except ReadError D :=
  match names.lookup text with
  | some value => .ok value
  | none => .error (.unknownValue text)

/-- Every text spells itself; in the log it stands quoted. -/
instance : Spelling String where
  read := .ok
  write := id
  describe := Text.quote

end MonotoneEquations
