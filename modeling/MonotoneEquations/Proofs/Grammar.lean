import Mathlib
import MonotoneEquations.Source.Statement

/-!
# The grammar of equations

The words of the grammar are lists of lexemes. A text is a sequence of equations, an equation gives
a key a list of alternatives, an alternative is a list of keys.

Each part of the grammar has a written form: keys and statements spell the words of the grammar, and
every word is spelled by some of them. The line of a statement has no part in its word.
-/

namespace MonotoneEquations

open scoped Computability

/-! ## Words -/

namespace Grammar

/-- An operator as a word of its own. -/
def mark (symbol : Operator) : Language Lexeme := {[.operator symbol]}

/-- The names, each as a word of its own. -/
def name : Language Lexeme := Set.range fun text => [.name text]

/-- One part or more with an operator between them. -/
def separated (symbol : Operator) (part : Language Lexeme) : Language Lexeme :=
  part * (mark symbol * part)∗

/-- A name that may be negated and may be marked as unstable. -/
def key : Language Lexeme := (1 + mark .not) * name * (1 + mark .unstable)

/-- Keys of which all have to hold. -/
def product : Language Lexeme := separated .and key

/-- A key and its alternatives. -/
def equation : Language Lexeme := key * mark .define * separated .or product * mark .semicolon

/-- A sequence of equations. -/
def text : Language Lexeme := equation∗

end Grammar

/-! ## Written forms -/

/-- The written forms of some parts with an operator between them. -/
def lexemesOf {α : Type} (symbol : Operator) (spell : α → List Lexeme) : List α → List Lexeme
  | [] => []
  | first :: others => spell first ++ others.flatMap fun part => .operator symbol :: spell part

/-- The lexemes of a key as it is written. -/
def Key.lexemes (key : Key) : List Lexeme :=
  (if key.negated then [.operator .not] else []) ++ [.name key.base] ++
    (if key.stable then [] else [.operator .unstable])

/-- The lexemes of a list of alternatives as they are written. -/
def alternativesLexemes : List (List Key) → List Lexeme := lexemesOf .or (lexemesOf .and Key.lexemes)

namespace Statement

/-- The lexemes of a statement as it is written. -/
def lexemes (statement : Statement) : List Lexeme :=
  statement.key.lexemes ++ [.operator .define] ++ alternativesLexemes statement.alternatives ++
    [.operator .semicolon]

/-- Whether a statement has alternatives, and an atom in each of them. -/
def IsComplete (statement : Statement) : Prop :=
  statement.alternatives ≠ [] ∧ ∀ atoms ∈ statement.alternatives, atoms ≠ []

instance (statement : Statement) : Decidable statement.IsComplete := inferInstanceAs (Decidable (_ ∧ _))

end Statement

namespace Grammar

/-- An operator is the only word of its mark. -/
theorem mem_mark {symbol : Operator} {word : List Lexeme} :
    word ∈ mark symbol ↔ word = [.operator symbol] := Iff.rfl

/-- A mark that may be missing is there or not. -/
theorem mem_optional_mark {symbol : Operator} {word : List Lexeme} :
    word ∈ 1 + mark symbol ↔ ∃ given : Bool, (if given then [.operator symbol] else []) = word := by
  rw [Language.mem_add, Language.mem_one, mem_mark, Bool.exists_bool]
  simp [eq_comm]

section Spelled

variable {α : Type} {part : Language Lexeme} {P : α → Prop} {spell : α → List Lexeme}

/-- Sequences of spelled words are spelled by lists. -/
theorem mem_kstar_iff_of_spelled (hpart : ∀ word, word ∈ part ↔ ∃ a, P a ∧ spell a = word)
    (word : List Lexeme) :
    word ∈ part∗ ↔ ∃ parts : List α, (∀ a ∈ parts, P a) ∧ parts.flatMap spell = word := by
  rw [Language.mem_kstar]
  constructor
  · rintro ⟨words, rfl, hwords⟩
    induction words with
    | nil => exact ⟨[], by simp, rfl⟩
    | cons first others ih =>
      rw [List.forall_mem_cons] at hwords
      obtain ⟨a, ha, rfl⟩ := (hpart first).mp hwords.1
      obtain ⟨parts, hparts, heq⟩ := ih hwords.2
      exact ⟨a :: parts, List.forall_mem_cons.mpr ⟨ha, hparts⟩, by simp [heq]⟩
  · rintro ⟨parts, hparts, rfl⟩
    refine ⟨parts.map spell, List.flatMap_def, ?_⟩
    simpa using fun a ha => (hpart (spell a)).mpr ⟨a, hparts a ha, rfl⟩

/-- Parts with an operator between them are spelled by lists that are not empty. -/
theorem mem_separated_iff_of_spelled (symbol : Operator)
    (hpart : ∀ word, word ∈ part ↔ ∃ a, P a ∧ spell a = word) (word : List Lexeme) :
    word ∈ separated symbol part ↔
      ∃ parts : List α, (parts ≠ [] ∧ ∀ a ∈ parts, P a) ∧ lexemesOf symbol spell parts = word := by
  have hmarked (word : List Lexeme) : word ∈ mark symbol * part ↔
      ∃ a, P a ∧ .operator symbol :: spell a = word := by
    constructor
    · rintro ⟨_, rfl, rest, hrest, rfl⟩
      obtain ⟨a, ha, rfl⟩ := (hpart rest).mp hrest
      exact ⟨a, ha, rfl⟩
    · rintro ⟨a, ha, rfl⟩
      exact ⟨_, rfl, spell a, (hpart _).mpr ⟨a, ha, rfl⟩, rfl⟩
  rw [separated, Language.mem_mul]
  constructor
  · rintro ⟨first, hfirst, others, hothers, rfl⟩
    obtain ⟨a, ha, rfl⟩ := (hpart first).mp hfirst
    obtain ⟨parts, hparts, rfl⟩ := (mem_kstar_iff_of_spelled hmarked others).mp hothers
    exact ⟨a :: parts, ⟨List.cons_ne_nil _ _, List.forall_mem_cons.mpr ⟨ha, hparts⟩⟩, rfl⟩
  · rintro ⟨parts, ⟨hne, hparts⟩, rfl⟩
    obtain ⟨a, others, rfl⟩ := List.exists_cons_of_ne_nil hne
    rw [List.forall_mem_cons] at hparts
    exact ⟨spell a, (hpart _).mpr ⟨a, hparts.1, rfl⟩, _,
      (mem_kstar_iff_of_spelled hmarked _).mpr ⟨others, hparts.2, rfl⟩, rfl⟩

end Spelled

/-- The words of keys are spelled by keys. -/
theorem mem_key_iff {word : List Lexeme} : word ∈ Grammar.key ↔ ∃ key : Key, key.lexemes = word := by
  simp only [Grammar.key, Language.mem_mul, mem_optional_mark]
  constructor
  · rintro ⟨_, ⟨_, ⟨negated, rfl⟩, _, ⟨base, rfl⟩, rfl⟩, _, ⟨unstable, rfl⟩, rfl⟩
    refine ⟨⟨base, !unstable, negated⟩, ?_⟩
    cases unstable <;> rfl
  · rintro ⟨key, rfl⟩
    refine ⟨_, ⟨_, ⟨key.negated, rfl⟩, [.name key.base], ⟨key.base, rfl⟩, rfl⟩, _,
      ⟨!key.stable, rfl⟩, ?_⟩
    cases hstable : key.stable <;> simp [Key.lexemes, hstable]

/-- The words of products are spelled by alternatives that are not empty. -/
theorem mem_product_iff (word : List Lexeme) :
    word ∈ product ↔ ∃ atoms : List Key, atoms ≠ [] ∧ lexemesOf .and Key.lexemes atoms = word := by
  have hkey (word : List Lexeme) : word ∈ Grammar.key ↔ ∃ key : Key, True ∧ key.lexemes = word := by
    simpa using mem_key_iff
  rw [product, mem_separated_iff_of_spelled .and hkey word]
  simp

/-- The words of equations are spelled by complete statements, whatever their line. -/
theorem mem_equation_iff (word : List Lexeme) :
    word ∈ equation ↔ ∃ statement : Statement, statement.IsComplete ∧ statement.lexemes = word := by
  simp only [equation, Language.mem_mul, mem_mark,
    mem_separated_iff_of_spelled .or mem_product_iff, mem_key_iff]
  constructor
  · rintro ⟨_, ⟨_, ⟨_, ⟨key, rfl⟩, _, rfl, rfl⟩, _, ⟨alternatives, hcomplete, rfl⟩, rfl⟩, _, rfl, rfl⟩
    exact ⟨⟨0, key, alternatives⟩, hcomplete, rfl⟩
  · rintro ⟨statement, hcomplete, rfl⟩
    exact ⟨_, ⟨_, ⟨_, ⟨statement.key, rfl⟩, _, rfl, rfl⟩, _,
      ⟨statement.alternatives, hcomplete, rfl⟩, rfl⟩, _, rfl, rfl⟩

/-- The words of texts are spelled by sequences of complete statements. -/
theorem mem_text_iff (word : List Lexeme) :
    word ∈ text ↔ ∃ statements : List Statement, (∀ statement ∈ statements, statement.IsComplete) ∧
      statements.flatMap Statement.lexemes = word :=
  mem_kstar_iff_of_spelled mem_equation_iff word

end Grammar

end MonotoneEquations
