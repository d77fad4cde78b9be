import MonotoneEquations.Text.Shapeless

/-!
# Quoted text

A text between double quotes, in which every character is either shown as it stands or written
as an escape. NUL, tab, line feed, carriage return, the double quote and the backslash have short
escapes; other characters without a shape are written by their code point in hexadecimal.

A single quote needs no escape, because the text stands between double quotes.
-/

namespace MonotoneEquations.Text

/-- The short escape of a character, where it has one. -/
def shortEscape? : Char → Option String
  | '\x00' => some "\\0"
  | '\t' => some "\\t"
  | '\n' => some "\\n"
  | '\r' => some "\\r"
  | '"' => some "\\\""
  | '\\' => some "\\\\"
  | _ => none

/-- A code point written by its hexadecimal digits. -/
def numberedEscape (c : Char) : String :=
  "\\u\x7b" ++ String.ofList (Nat.toDigits 16 c.toNat) ++ "\x7d"

/-- A character as it stands in a quoted text. -/
def quoteChar (c : Char) : String :=
  match shortEscape? c with
  | some escape => escape
  | none => if isShapeless c then numberedEscape c else c.toString

/-- A text between double quotes, with escapes where they are needed. -/
def quote (text : String) : String :=
  "\"" ++ String.join (text.toList.map quoteChar) ++ "\""

end MonotoneEquations.Text
