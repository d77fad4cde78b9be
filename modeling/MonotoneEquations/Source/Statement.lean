import MonotoneEquations.Key
import MonotoneEquations.Source.Token

/-!
# Statements

A statement gives a key a list of alternatives, each a list of atoms, and ends with a semicolon.
An atom is written like a key. Which atoms are values depends on the domain and is decided later,
so statements are the same for all domains.

    statement   := key '=' alternative ('|' alternative)* ';'
    alternative := key ('&' key)*
    key         := '!'? name '?'?

Reading goes from left to right without going back, and stops at the first token that no
continuation could make part of a sequence of statements. The statements before it stay.
-/

namespace MonotoneEquations

/-- An equation as it is written. -/
structure Statement where
  line : Nat
  key : Key
  alternatives : List (List Key)
  deriving DecidableEq, Repr

/-- What a statement needs at some point. -/
inductive Expected where
  | key
  | operator (operator : Operator)
  deriving DecidableEq, Repr

/-- A token, or the end of the text, where something else is needed. -/
structure SyntaxError where
  found : Option Token
  expected : Expected
  deriving DecidableEq, Repr

namespace SyntaxError

/-- The item at which an error is reported. -/
def item (error : SyntaxError) : String :=
  match error.found with
  | none => "at end of file"
  | some ⟨.name text, _⟩ => "at '" ++ text ++ "'"
  | some ⟨.operator operator, _⟩ => "at '" ++ operator.char.toString ++ "'"

/-- What the report of an error asks for. -/
def message (error : SyntaxError) : String :=
  match error.expected with
  | .key => "Key expected."
  | .operator operator => "'" ++ operator.char.toString ++ "' expected."

/-- The report of an error in a text that ends on the given line. -/
def report (lastLine : Nat) (error : SyntaxError) : Report :=
  ⟨.error, (error.found.map Token.line).getD lastLine, error.item, error.message⟩

end SyntaxError

/-- Reads a part of a statement from the front of a list of tokens. -/
abbrev Reader (α : Type) : Type := List Token → Except SyntaxError (α × List Token)

/-- A reader that takes at least one token whenever it succeeds. -/
def Reader.Advances {α : Type} (reader : Reader α) : Prop :=
  ∀ tokens a rest, reader tokens = .ok (a, rest) → rest.length < tokens.length

namespace Statement

/-- Read a name with an optional mark for unstable keys; the line is that of the name. -/
def markedName (negated : Bool) : Reader (Nat × Key)
  | ⟨.name base, line⟩ :: ⟨.operator .unstable, _⟩ :: rest =>
    .ok ((line, ⟨base, false, negated⟩), rest)
  | ⟨.name base, line⟩ :: rest => .ok ((line, ⟨base, true, negated⟩), rest)
  | tokens => .error ⟨tokens.head?, .key⟩

/-- Read a key with the line of its name. -/
def placedKey : Reader (Nat × Key)
  | ⟨.operator .not, _⟩ :: rest => markedName true rest
  | tokens => markedName false tokens

/-- Read a key. -/
def atom : Reader Key := fun tokens => do
  let ((_, key), rest) ← placedKey tokens
  return (key, rest)

/-- Read a given operator. -/
def expect (operator : Operator) : Reader Unit
  | token :: rest =>
    if token.lexeme = .operator operator then .ok ((), rest)
    else .error ⟨some token, .operator operator⟩
  | [] => .error ⟨none, .operator operator⟩

/-- A marked name takes its tokens. -/
theorem markedName_advances (negated : Bool) : Reader.Advances (markedName negated) := by
  intro tokens a rest h
  unfold markedName at h
  split at h <;> simp at h
  all_goals
    obtain ⟨_, rfl⟩ := h
    simp only [List.length_cons]
    omega

/-- A key with its line takes its tokens. -/
theorem placedKey_advances : Reader.Advances placedKey := by
  intro tokens a rest h
  unfold placedKey at h
  split at h
  · have := markedName_advances true _ _ _ h
    simp only [List.length_cons]
    omega
  · exact markedName_advances false _ _ _ h

/-- A key takes its tokens. -/
theorem atom_advances : Reader.Advances atom := by
  intro tokens a rest h
  unfold atom at h
  match hkey : placedKey tokens with
  | .error _ => simp [hkey, bind, Except.bind] at h
  | .ok (_, _) =>
    simp only [hkey, bind, Except.bind, pure, Except.pure, Except.ok.injEq, Prod.mk.injEq] at h
    obtain ⟨_, rfl⟩ := h
    exact placedKey_advances _ _ _ hkey

/-- An operator takes its token. -/
theorem expect_advances (operator : Operator) : Reader.Advances (expect operator) := by
  intro tokens a rest h
  unfold expect at h
  split at h
  · split at h
    · simp only [Except.ok.injEq, Prod.mk.injEq, true_and] at h
      simp [h]
    · simp at h
  · simp at h

/-- Read one or more parts with an operator between them. -/
def separated {α : Type} (operator : Operator) (part : Reader α) (advances : part.Advances)
    (tokens : List Token) : Except SyntaxError (List α × List Token) :=
  match hpart : part tokens with
  | .error error => .error error
  | .ok (first, rest) =>
    match hrest : expect operator rest with
    | .error _ => .ok ([first], rest)
    | .ok (_, more) =>
      have : more.length < tokens.length :=
        Nat.lt_trans (expect_advances operator _ _ _ hrest) (advances _ _ _ hpart)
      match separated operator part advances more with
      | .error error => .error error
      | .ok (others, last) => .ok (first :: others, last)
termination_by tokens.length

/-- One part or more take the tokens of the first. -/
theorem separated_advances {α : Type} (operator : Operator) (part : Reader α)
    (advances : part.Advances) : Reader.Advances (separated operator part advances) := by
  intro tokens a rest h
  fun_induction separated operator part advances tokens generalizing a rest with
  | case1 => simp at h
  | case2 tokens first next hpart =>
    simp only [Except.ok.injEq, Prod.mk.injEq] at h
    exact h.2 ▸ advances _ _ _ hpart
  | case3 => simp at h
  | case4 tokens first next hpart _ more hrest shorter others last hothers ih =>
    simp only [Except.ok.injEq, Prod.mk.injEq] at h
    exact h.2 ▸ Nat.lt_trans (ih _ _ hothers) shorter

/-- Read an alternative. -/
def alternative : Reader (List Key) := separated .and atom atom_advances

/-- An alternative takes the tokens of its atoms. -/
theorem alternative_advances : Reader.Advances alternative :=
  separated_advances .and atom atom_advances

/-- Read a statement. -/
def reader : Reader Statement := fun tokens => do
  let ((line, key), rest) ← placedKey tokens
  let (_, rest) ← expect .define rest
  let (alternatives, rest) ← separated .or alternative alternative_advances rest
  let (_, rest) ← expect .semicolon rest
  return (⟨line, key, alternatives⟩, rest)

/-- A statement takes its tokens, so reading on from its end comes to an end. -/
theorem reader_advances : Reader.Advances reader := by
  intro tokens a rest h
  unfold reader at h
  match hkey : placedKey tokens with
  | .error _ => simp [hkey, bind, Except.bind] at h
  | .ok ((line, key), afterKey) =>
    match hdefine : expect .define afterKey with
    | .error _ => simp [hkey, hdefine, bind, Except.bind] at h
    | .ok (_, body) =>
      match halternatives : separated .or alternative alternative_advances body with
      | .error _ => simp [hkey, hdefine, halternatives, bind, Except.bind] at h
      | .ok (alternatives, afterBody) =>
        match hend : expect .semicolon afterBody with
        | .error _ => simp [hkey, hdefine, halternatives, hend, bind, Except.bind] at h
        | .ok (_, last) =>
          simp only [hkey, hdefine, halternatives, hend, bind, Except.bind, pure, Except.pure,
            Except.ok.injEq, Prod.mk.injEq] at h
          have := placedKey_advances _ _ _ hkey
          have := expect_advances _ _ _ _ hdefine
          have := separated_advances _ _ _ _ _ _ halternatives
          have := expect_advances _ _ _ _ hend
          rw [← h.2]
          omega

end Statement

/-- The complete statements of a text, and the error that ended the reading, if there was one. -/
structure Script where
  statements : List Statement
  failure : Option SyntaxError
  deriving DecidableEq, Repr

/-- The statements of a list of tokens. -/
def Script.ofTokens (tokens : List Token) : Script :=
  if tokens.isEmpty then ⟨[], none⟩
  else
    match h : Statement.reader tokens with
    | .error error => ⟨[], some error⟩
    | .ok (statement, rest) =>
      have := Statement.reader_advances _ _ _ h
      let script := Script.ofTokens rest
      { script with statements := statement :: script.statements }
termination_by tokens.length

end MonotoneEquations
