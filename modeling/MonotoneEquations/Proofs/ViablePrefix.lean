import Mathlib
import MonotoneEquations.Proofs.StatementReader
import MonotoneEquations.Source.Definition

/-!
# The first wrong token

A text is read statement by statement. If its lexemes are a text of the grammar, every equation of it
makes a definition or is dropped. Otherwise there are no definitions, and the error is found at the
first token with which no text of the grammar begins, the end of the text being the last token.

That no text begins so is not a matter of the derivation. The reader looks at nothing behind the wrong
token, so it would fail in the same way on a text of the grammar that begins with these tokens, but it
reads all of those.

The report of an error shows the line and the item of the wrong token, and asks for a lexeme with which
a text of the grammar could have gone on.
-/

namespace MonotoneEquations

/-! ## Words with an end -/

/-- A word with the mark that stands for the end of a text. -/
def withEnd (word : List Lexeme) : List (Option Lexeme) := word.map some ++ [none]

/-- Whether a text of the grammar begins with the given lexemes, its end being one of them. -/
def Grammar.Viable (start : List (Option Lexeme)) : Prop :=
  ∃ word ∈ Grammar.text, start <+: withEnd word

/-- The lexemes of some tokens. -/
def Tokens.lexemes (tokens : Tokens) : List Lexeme := tokens.body.map Token.lexeme

/-- Tokens that begin with those of a word, up to and including the next one, can go on as the word. -/
theorem exists_tokens_of_isPrefix {front : List Token} {next? : Option Token} {word : List Lexeme}
    (h : front.map (fun token => some token.lexeme) ++ [next?.map Token.lexeme] <+: withEnd word) :
    ∃ other : List Token, other.head? = next? ∧ (front ++ other).map Token.lexeme = word := by
  induction front generalizing word with
  | nil =>
    cases word with
    | nil =>
      have hnext : next? = none := by simpa [withEnd] using h
      exact ⟨[], by rw [hnext]; rfl, rfl⟩
    | cons first more =>
      obtain ⟨token, rfl, rfl⟩ : ∃ token, next? = some token ∧ token.lexeme = first := by
        simpa [withEnd] using h
      exact ⟨token :: more.map fun lexeme => ⟨lexeme, 0⟩, rfl, by simp [Function.comp_def]⟩
  | cons token front ih =>
    cases word with
    | nil => simp [withEnd] at h
    | cons first more =>
      obtain ⟨heq, hrest⟩ := List.cons_prefix_cons.mp h
      obtain ⟨other, hother, hmore⟩ := ih hrest
      exact ⟨other, hother, congrArg₂ List.cons (Option.some.inj heq) hmore⟩

/-- The end of some tokens in a row is the end of the last ones. -/
theorem withEnd_append (front rest : List Token) : withEnd ((front ++ rest).map Token.lexeme) =
    front.map (fun token => some token.lexeme) ++ withEnd (rest.map Token.lexeme) := by
  simp [withEnd, Function.comp_def]

/-- The lexemes up to and including the one behind some tokens. -/
theorem take_withEnd (front rest : List Token) :
    (withEnd ((front ++ rest).map Token.lexeme)).take (front.length + 1) =
      front.map (fun token => some token.lexeme) ++ [rest.head?.map Token.lexeme] := by
  have hlength : (front.map fun token => some token.lexeme).length = front.length := List.length_map ..
  rw [withEnd_append, ← hlength, List.take_length_add_append]
  cases rest <;> rfl

/-- The lexemes of some tokens begin the same words, whatever follows them. -/
theorem take_withEnd_prefix {front : List Token} {n : Nat} (hn : n ≤ front.length)
    (rest other : List Token) : (withEnd ((front ++ rest).map Token.lexeme)).take n <+:
      withEnd ((front ++ other).map Token.lexeme) := by
  have hlength : n ≤ (front.map fun token => some token.lexeme).length := by rwa [List.length_map]
  rw [withEnd_append, withEnd_append, List.take_append_of_le_length hlength]
  exact (List.take_prefix ..).trans (List.prefix_append ..)

/-- The lexemes of some tokens, and then that of another one, begin every word that goes on with it. -/
theorem take_withEnd_concat_prefix (front rest : List Token) (next : Token) (more : List Token) :
    (withEnd ((front ++ rest).map Token.lexeme)).take front.length ++ [some next.lexeme] <+:
      withEnd ((front ++ next :: more).map Token.lexeme) := by
  have htaken := take_withEnd front (next :: more)
  rw [withEnd_append, List.take_left' (List.length_map ..)]
  exact htaken ▸ List.take_prefix ..

namespace Statement

/-- The definition over `D` that a statement makes, unless its right hand side is too large. -/
def definition? (D : Type) [Domain D] [DecidableEq D] [Spelling D] (limit : Nat)
    (statement : Statement) : Option (Definition D) :=
  match Rhs.ofAlternatives limit statement.alternatives with
  | .ok rhs => some ⟨statement.line, statement.key, rhs⟩
  | .error _ => none

/-- The report that a statement is dropped, if its right hand side over `D` is too large. -/
def drop? (D : Type) [Domain D] [DecidableEq D] [Spelling D] (limit : Nat) (statement : Statement) :
    Option Report :=
  match (Rhs.ofAlternatives limit statement.alternatives : Except TooLarge (Rhs D)) with
  | .ok _ => none
  | .error excess => some (statement.dropReport excess)

/-- A complete statement that is written in tokens is spelled by them, on one of their lines. -/
theorem IsComplete.exists_isSpelledBy {statement : Statement} (hcomplete : statement.IsComplete)
    {tokens : List Token} (hlexemes : tokens.map Token.lexeme = statement.lexemes) :
    ∃ line, IsSpelledBy { statement with line } tokens := by
  obtain ⟨_, _, rfl, hfront, -⟩ := List.map_eq_append_iff.mp hlexemes
  obtain ⟨_, _, rfl, hfront, -⟩ := List.map_eq_append_iff.mp hfront
  obtain ⟨key, _, rfl, hkey, -⟩ := List.map_eq_append_iff.mp hfront
  obtain ⟨line, -, hline⟩ := exists_isSpelledAt hkey
  exact ⟨line, hcomplete, hlexemes, nameLine?_append (nameLine?_append (nameLine?_append hline _) _) _⟩

end Statement

namespace Script

/-- Without tokens there are no statements. -/
theorem ofTokens_nil : ofTokens [] = ⟨[], none⟩ := by
  rw [ofTokens]
  rfl

/-- Reading goes on behind a statement. -/
theorem ofTokens_of_ok {tokens rest : List Token} {statement : Statement}
    (h : Statement.reader tokens = .ok (statement, rest)) :
    ofTokens tokens = ⟨statement :: (ofTokens rest).statements, (ofTokens rest).failure⟩ := by
  have hne : ¬ tokens.isEmpty := by
    intro hempty
    have hshorter := Statement.reader_advances _ _ _ h
    simp [List.isEmpty_iff.mp hempty] at hshorter
  rw [ofTokens, if_neg hne]
  split
  next error herror => rw [h] at herror; cases herror
  next other after hok =>
    rw [h] at hok
    cases hok
    rfl

/-- Reading ends where no statement can be read. -/
theorem ofTokens_of_error {tokens : List Token} {error : SyntaxError} (hne : tokens ≠ [])
    (h : Statement.reader tokens = .error error) : ofTokens tokens = ⟨[], some error⟩ := by
  rw [ofTokens, if_neg (by simpa using hne)]
  split
  next other hother => rw [h] at hother; cases hother; rfl
  next statement rest hok => rw [h] at hok; cases hok

/-- Statements that are spelled are read, and then what follows them. -/
theorem ofTokens_append {statements : List Statement} {parts : List (List Token)}
    (hspelled : List.Forall₂ Statement.IsSpelledBy statements parts) (rest : List Token) :
    ofTokens (parts.flatten ++ rest) =
      ⟨statements ++ (ofTokens rest).statements, (ofTokens rest).failure⟩ := by
  induction hspelled with
  | nil => rfl
  | @cons statement part statements parts hfirst _ ih =>
    have hread : Statement.reader (part ++ (parts.flatten ++ rest)) =
        .ok (statement, parts.flatten ++ rest) :=
      Statement.reader_accepts hfirst fun _ _ _ hmem => nomatch hmem
    rw [List.flatten_cons, List.append_assoc, ofTokens_of_ok hread, ih]
    rfl

/-- The tokens of a text are those of its statements, up to its end or to where none can be read. -/
theorem exists_parts (tokens : List Token) :
    ∃ parts rest, List.Forall₂ Statement.IsSpelledBy (ofTokens tokens).statements parts ∧
      tokens = parts.flatten ++ rest ∧
      ((ofTokens tokens).failure = none ∧ rest = [] ∨
        ∃ error, (ofTokens tokens).failure = some error ∧ rest ≠ [] ∧
          Statement.reader rest = .error error) := by
  induction hlength : tokens.length using Nat.strongRecOn generalizing tokens with
  | ind n ih =>
    by_cases hne : tokens = []
    · subst hne
      exact ⟨[], [], by simp [ofTokens_nil], rfl, .inl ⟨by rw [ofTokens_nil], rfl⟩⟩
    · match hread : Statement.reader tokens with
      | .error error =>
        rw [ofTokens_of_error hne hread]
        exact ⟨[], tokens, .nil, rfl, .inr ⟨error, rfl, hne, hread⟩⟩
      | .ok (statement, more) =>
        obtain ⟨part, rfl, hspelled, -⟩ := Statement.reader_reads.takes hread
        have hshorter := Statement.reader_advances _ _ _ hread
        obtain ⟨parts, rest, hparts, rfl, hend⟩ := ih _ (hlength ▸ hshorter) more rfl
        rw [ofTokens_of_ok hread]
        exact ⟨part :: parts, rest, .cons hspelled hparts, by simp, hend⟩

/-- Tokens whose lexemes are those of complete statements are spelled by them, each on its line. -/
theorem exists_parts_of_lexemes {statements : List Statement}
    (hcomplete : ∀ statement ∈ statements, statement.IsComplete) {tokens : List Token}
    (hlexemes : tokens.map Token.lexeme = statements.flatMap Statement.lexemes) :
    ∃ spelled parts, List.Forall₂ Statement.IsSpelledBy spelled parts ∧ parts.flatten = tokens := by
  induction statements generalizing tokens with
  | nil => exact ⟨[], [], .nil, (List.map_eq_nil_iff.mp hlexemes).symm⟩
  | cons statement statements ih =>
    rw [List.forall_mem_cons] at hcomplete
    rw [List.flatMap_cons] at hlexemes
    obtain ⟨part, rest, rfl, hpart, hrest⟩ := List.map_eq_append_iff.mp hlexemes
    obtain ⟨line, hspelled⟩ := hcomplete.1.exists_isSpelledBy hpart
    obtain ⟨spelled, parts, hparts, rfl⟩ := ih hcomplete.2 hrest
    exact ⟨_ :: spelled, part :: parts, .cons hspelled hparts, rfl⟩

/-- What complete statements are spelled by is a text of the grammar. -/
theorem mem_text_of_spelled {statements : List Statement} {parts : List (List Token)}
    (hspelled : List.Forall₂ Statement.IsSpelledBy statements parts) :
    parts.flatten.map Token.lexeme ∈ Grammar.text := by
  refine (Grammar.mem_text_iff _).mpr ⟨statements, ?_, ?_⟩
  · induction hspelled with
    | nil => simp
    | cons hfirst _ ih => exact List.forall_mem_cons.mpr ⟨hfirst.complete, ih⟩
  · induction hspelled with
    | nil => rfl
    | cons hfirst _ ih => rw [List.flatMap_cons, List.flatten_cons, List.map_append, hfirst.lexemes, ih]

/-- Reading comes to the end of the texts of the grammar, and of no others. -/
theorem failure_eq_none_iff {tokens : List Token} :
    (ofTokens tokens).failure = none ↔ tokens.map Token.lexeme ∈ Grammar.text := by
  constructor
  · intro hnone
    obtain ⟨parts, rest, hparts, hsplit, ⟨-, rfl⟩ | ⟨error, hsome, -⟩⟩ := exists_parts tokens
    · rw [hsplit, List.append_nil]
      exact mem_text_of_spelled hparts
    · rw [hnone] at hsome
      cases hsome
  · intro htext
    obtain ⟨statements, hcomplete, hlexemes⟩ := (Grammar.mem_text_iff _).mp htext
    obtain ⟨spelled, parts, hparts, rfl⟩ := exists_parts_of_lexemes hcomplete hlexemes.symm
    have hread := ofTokens_append hparts []
    rw [List.append_nil] at hread
    rw [hread, ofTokens_nil]

/-- Reading that fails stops at the first token with which no text of the grammar begins. With what was
expected there, one would. -/
theorem exists_isLeast_of_failure {tokens : Tokens} {error : SyntaxError}
    (hfailure : (ofTokens tokens.body).failure = some error) :
    ∃ position, IsLeast {n | ¬ Grammar.Viable ((withEnd tokens.lexemes).take (n + 1))} position ∧
      error.found = tokens.body[position]? ∧
      ∃ lexeme, error.expected.IsMetBy lexeme ∧
        Grammar.Viable ((withEnd tokens.lexemes).take position ++ [some lexeme]) := by
  obtain ⟨parts, rest, hparts, hsplit, hend⟩ := exists_parts tokens.body
  obtain ⟨hne, hread⟩ : rest ≠ [] ∧ Statement.reader rest = .error error := by
    rcases hend with ⟨hnone, -⟩ | ⟨other, hsome, hne, hread⟩
    · rw [hfailure] at hnone
      cases hnone
    · rw [hfailure] at hsome
      cases hsome
      exact ⟨hne, hread⟩
  obtain ⟨taken, wrong, rfl, hfound, ⟨statement, token, more, hmet, hspelled⟩, hlocal⟩ :=
    Statement.reader_reads.stops hread
  have hbody : tokens.body = (parts.flatten ++ taken) ++ wrong := by rw [hsplit, List.append_assoc]
  -- The tokens before the wrong one can go on to a statement with what was expected.
  have htext : ((parts.flatten ++ taken) ++ token :: more).map Token.lexeme ∈ Grammar.text := by
    have hword := mem_text_of_spelled (List.rel_append hparts (.cons hspelled .nil))
    rwa [List.flatten_append, List.flatten_singleton, ← List.append_assoc] at hword
  rw [Tokens.lexemes, hbody]
  refine ⟨(parts.flatten ++ taken).length, ⟨?_, ?_⟩, ?_, token.lexeme, hmet, _, htext,
    take_withEnd_concat_prefix _ wrong token more⟩
  · -- A text that begins so is read without failure, but also like the given one up to its failure.
    rintro ⟨word, hword, hprefix⟩
    rw [take_withEnd] at hprefix
    obtain ⟨other, hother, rfl⟩ := exists_tokens_of_isPrefix hprefix
    have hstops : Statement.reader (taken ++ other) = .error error := hlocal other hother
    have hne' : taken ++ other ≠ [] := by
      intro hnil
      obtain ⟨rfl, rfl⟩ := List.append_eq_nil_iff.mp hnil
      rw [List.head?_nil, eq_comm, List.head?_eq_none_iff] at hother
      exact hne hother
    have hnone := failure_eq_none_iff.mpr hword
    rw [List.append_assoc, ofTokens_append hparts, ofTokens_of_error hne' hstops] at hnone
    cases hnone
  · intro n hn
    by_contra hlt
    exact hn ⟨_, htext, take_withEnd_prefix (Nat.lt_of_not_le hlt) wrong (token :: more)⟩
  · rw [hfound, List.getElem?_append_right (Nat.le_refl _), Nat.sub_self, List.head?_eq_getElem?]

/-- Where no statement can be read, no equation of the grammar begins. -/
theorem not_isPrefix_of_reader_error {tokens : List Token} {error : SyntaxError}
    (hread : Statement.reader tokens = .error error) :
    ∀ word ∈ Grammar.equation, ¬ word <+: tokens.map Token.lexeme := by
  rintro word hword ⟨after, heq⟩
  obtain ⟨statement, hcomplete, rfl⟩ := (Grammar.mem_equation_iff word).mp hword
  obtain ⟨part, rest, rfl, hpart, -⟩ := List.map_eq_append_iff.mp heq.symm
  obtain ⟨line, hspelled⟩ := hcomplete.exists_isSpelledBy hpart
  rw [Statement.reader_accepts hspelled fun _ _ _ hmem => nomatch hmem] at hread
  cases hread

end Script

/-! ## Definitions and reports -/

/-- The line and the item under which the token at some position is reported. Behind the last token that
is the end of the text. -/
inductive Tokens.StandsAt (tokens : Tokens) (position : Nat) : Nat → String → Prop
  | name {text : String} {line : Nat} : tokens.body[position]? = some ⟨.name text, line⟩ →
    StandsAt tokens position line ("at '" ++ text ++ "'")
  | operator {symbol : Operator} {line : Nat} : tokens.body[position]? = some ⟨.operator symbol, line⟩ →
    StandsAt tokens position line ("at '" ++ symbol.char.toString ++ "'")
  | endOfText : tokens.body[position]? = none →
    StandsAt tokens position tokens.lastLine "at end of file"

/-- The message that asks for a lexeme; names are asked for as keys. -/
inductive Lexeme.IsAskedFor : Lexeme → String → Prop
  | name (text : String) : IsAskedFor (.name text) "Key expected."
  | operator (symbol : Operator) :
    IsAskedFor (.operator symbol) ("'" ++ symbol.char.toString ++ "' expected.")

/-- The report of an error shows what stands at its position, and asks for what was expected there. -/
theorem SyntaxError.exists_report_eq {error : SyntaxError} {tokens : Tokens} {position : Nat}
    (hfound : error.found = tokens.body[position]?) :
    ∃ line item message, error.report tokens.lastLine = ⟨.error, line, item, message⟩ ∧
      tokens.StandsAt position line item ∧
      ∀ lexeme, error.expected.IsMetBy lexeme → lexeme.IsAskedFor message := by
  obtain ⟨found, expected⟩ := error
  refine ⟨_, _, _, rfl, ?_, fun lexeme hmet => ?_⟩
  · match found with
    | some ⟨.name text, line⟩ => exact .name hfound.symm
    | some ⟨.operator symbol, line⟩ => exact .operator hfound.symm
    | none => exact .endOfText hfound.symm
  · match expected, lexeme with
    | .key, .name text => exact .name text
    | .operator symbol, .operator _ =>
      obtain rfl := Lexeme.operator.inj hmet
      exact .operator _

/-- The message about a dropped equation gives its size and the limit. -/
theorem TooLarge.dropped_message (size limit : Nat) :
    "Equation dropped, " ++ (TooLarge.mk size limit).message ++ "." =
      "Equation dropped, equation size " ++ toString size ++ " exceeds the limit of " ++ toString limit ++
        "." := by
  have hstart : "Equation dropped, " ++ "equation size " = "Equation dropped, equation size " := rfl
  simp only [message, ← hstart, String.append_assoc]

/-- The results of a partial function stand for the members of a list that have one, in their order. -/
theorem forall₂_filter_filterMap {α β : Type} {f : α → Option β} {R : α → β → Prop} {l : List α}
    (h : ∀ a ∈ l, ∀ b, f a = some b → R a b) :
    List.Forall₂ R (l.filter fun a => (f a).isSome) (l.filterMap f) := by
  induction l with
  | nil => exact .nil
  | cons a l ih =>
    rw [List.forall_mem_cons] at h
    rw [List.filter_cons, List.filterMap_cons]
    cases hf : f a with
    | none => simpa using ih h.2
    | some b => exact .cons (h.1 b hf) (ih h.2)

section Definitions

variable {D : Type} [Domain D] [DecidableEq D] [Spelling D]

omit [Spelling D] in
/-- A join that fails reports a size above the limit. -/
theorem Rhs.lt_of_join_eq_error {limit : Nat} {r s : Rhs D} {excess : TooLarge}
    (h : r.join limit s = .error excess) : excess.limit = limit ∧ limit < excess.size := by
  unfold join at h
  split at h
  next => cases h
  split at h
  next => cases h
  match r, s with
  | .final _, .final _ | .final _, .pending _ | .pending _, .final _ => cases h
  | .pending products, .pending others =>
    simp only [pendingWithin] at h
    split at h
    next hlarge =>
      cases h
      exact ⟨rfl, hlarge⟩
    next => cases h

/-- Alternatives that cannot be joined report a size above the limit. -/
theorem Rhs.lt_of_ofAlternatives_eq_error {limit : Nat} {alternatives : List (List Key)}
    {excess : TooLarge} (h : (ofAlternatives limit alternatives : Except TooLarge (Rhs D)) = .error excess) :
    excess.limit = limit ∧ limit < excess.size := by
  cases alternatives with
  | nil => cases h
  | cons first others =>
    rw [ofAlternatives] at h
    generalize (ofAlternative first : Rhs D) = rhs at h
    induction others generalizing rhs with
    | nil => cases h
    | cons atoms others ih =>
      rw [List.foldlM_cons] at h
      cases hjoin : rhs.join limit (ofAlternative atoms) with
      | error other =>
        rw [hjoin] at h
        cases h
        exact lt_of_join_eq_error hjoin
      | ok joined =>
        rw [hjoin] at h
        exact ih joined h

namespace Statement

omit [Domain D] [DecidableEq D] [Spelling D] in
/-- A statement is reported as dropped on its line and at its key, with the size that exceeds the limit. -/
theorem dropReport_mk (statement : Statement) (size limit : Nat) :
    statement.dropReport ⟨size, limit⟩ = ⟨.error, statement.line, "at '" ++ statement.key.base ++ "'",
      "Equation dropped, equation size " ++ toString size ++ " exceeds the limit of " ++ toString limit ++
        "."⟩ := by
  rw [dropReport, TooLarge.dropped_message]

/-- Whether a report says that a statement is dropped, because its alternatives cannot be joined over
`D`: on its line, at its key, and with the size that exceeds the limit. -/
def IsDroppedWith (D : Type) [Domain D] [DecidableEq D] [Spelling D] (limit : Nat)
    (statement : Statement) (report : Report) : Prop :=
  ∃ size, (Rhs.ofAlternatives limit statement.alternatives : Except TooLarge (Rhs D)) =
      .error ⟨size, limit⟩ ∧ limit < size ∧
    report = ⟨.error, statement.line, "at '" ++ statement.key.base ++ "'",
      "Equation dropped, equation size " ++ toString size ++ " exceeds the limit of " ++ toString limit ++
        "."⟩

/-- The report that a statement is dropped gives the size and the limit. -/
theorem drop?_eq_some_iff {limit : Nat} {statement : Statement} {report : Report} :
    statement.drop? D limit = some report ↔ statement.IsDroppedWith D limit report := by
  unfold drop? IsDroppedWith
  cases hrhs : (Rhs.ofAlternatives limit statement.alternatives : Except TooLarge (Rhs D)) with
  | ok rhs => simp
  | error excess =>
    obtain ⟨size, other⟩ := excess
    obtain ⟨rfl, hlarge⟩ := Rhs.lt_of_ofAlternatives_eq_error hrhs
    simp [dropReport_mk, hlarge, eq_comm]

/-- The statements without a definition are reported one by one, in their order. -/
theorem forall₂_isDroppedWith (limit : Nat) (statements : List Statement) :
    List.Forall₂ (IsDroppedWith D limit) (statements.filter fun s => (s.definition? D limit).isNone)
      (statements.filterMap (drop? D limit)) := by
  have hdropped : (fun s : Statement => (s.definition? D limit).isNone) =
      fun s => (s.drop? D limit).isSome := by
    funext s
    unfold definition? drop?
    cases (Rhs.ofAlternatives limit s.alternatives : Except TooLarge (Rhs D)) <;> rfl
  rw [hdropped]
  exact forall₂_filter_filterMap fun _ _ _ => drop?_eq_some_iff.mp

/-- Statements make definitions and reports in the order in which they stand. -/
theorem defineAll_eq (limit : Nat) (statements : List Statement) :
    defineAll limit statements =
      (statements.filterMap (definition? D limit), statements.filterMap (drop? D limit)) := by
  induction statements with
  | nil => rfl
  | cons statement statements ih =>
    rw [defineAll, ih, List.filterMap_cons, List.filterMap_cons, define, definition?, drop?]
    cases (Rhs.ofAlternatives limit statement.alternatives : Except TooLarge (Rhs D)) <;> rfl

/-- Every statement makes a definition or is dropped. -/
theorem length_definitions_add_length_drops (limit : Nat) (statements : List Statement) :
    (statements.filterMap (definition? D limit)).length +
      (statements.filterMap (drop? D limit)).length = statements.length := by
  induction statements with
  | nil => rfl
  | cons statement statements ih =>
    rw [List.filterMap_cons, List.filterMap_cons, definition?, drop?, List.length_cons, ← ih]
    cases (Rhs.ofAlternatives limit statement.alternatives : Except TooLarge (Rhs D)) with
    | ok => exact Nat.succ_add _ _
    | error => exact Nat.add_succ _ _

end Statement

namespace Reading

/-- Tokens of a text of the grammar give a definition or a drop report for every equation of it. -/
theorem ofTokens_of_mem_text (limit : Nat) {tokens : Tokens} (htext : tokens.lexemes ∈ Grammar.text) :
    ∃ statements parts, List.Forall₂ Statement.IsSpelledBy statements parts ∧
      parts.flatten = tokens.body ∧
      ofTokens limit tokens = ⟨some (statements.filterMap (Statement.definition? D limit)),
        statements.filterMap (Statement.drop? D limit)⟩ := by
  obtain ⟨parts, rest, hparts, hsplit, hend⟩ := Script.exists_parts tokens.body
  have hnone := Script.failure_eq_none_iff.mpr htext
  obtain rfl : rest = [] := by
    rcases hend with ⟨-, hnil⟩ | ⟨error, hsome, -⟩
    · exact hnil
    · rw [hnone] at hsome
      cases hsome
  refine ⟨_, parts, hparts, by rw [hsplit, List.append_nil], ?_⟩
  rw [ofTokens, Statement.defineAll_eq]
  simp only [hnone]

/-- Other tokens give no definitions, the drop reports of the equations before the first wrong token,
and the report of that token, which asks for one that is possible there. -/
theorem ofTokens_of_not_mem_text (limit : Nat) {tokens : Tokens}
    (htext : tokens.lexemes ∉ Grammar.text) :
    ∃ statements parts rest, ∃ error : SyntaxError, ∃ position,
      List.Forall₂ Statement.IsSpelledBy statements parts ∧ parts.flatten ++ rest = tokens.body ∧
      (∀ word ∈ Grammar.equation, ¬ word <+: rest.map Token.lexeme) ∧
      (ofTokens limit tokens : Reading D) =
        ⟨none, statements.filterMap (Statement.drop? D limit) ++ [error.report tokens.lastLine]⟩ ∧
      IsLeast {n | ¬ Grammar.Viable ((withEnd tokens.lexemes).take (n + 1))} position ∧
      error.found = tokens.body[position]? ∧
      ∃ lexeme, error.expected.IsMetBy lexeme ∧
        Grammar.Viable ((withEnd tokens.lexemes).take position ++ [some lexeme]) := by
  obtain ⟨parts, rest, hparts, hsplit, hend⟩ := Script.exists_parts tokens.body
  obtain ⟨error, hsome, -, hread⟩ := hend.resolve_left fun h =>
    htext (Script.failure_eq_none_iff.mp h.1)
  obtain ⟨position, hleast⟩ := Script.exists_isLeast_of_failure hsome
  refine ⟨_, parts, rest, error, position, hparts, hsplit.symm,
    Script.not_isPrefix_of_reader_error hread, ?_, hleast⟩
  rw [ofTokens, Statement.defineAll_eq]
  simp only [hsome]

/-- Tokens have definitions exactly if they are a text of the grammar. Each equation of the text then
makes one definition or is reported once as dropped, in the order of the text, and nothing else is
reported. Otherwise, after the drop reports of the equations that are complete, one error is reported,
on the line and at the item of the first token, or of the end, with which no text of the grammar begins.
It asks for a lexeme with which one does. -/
theorem ofTokens_exact (limit : Nat) (tokens : Tokens) :
    ((ofTokens limit tokens : Reading D).definitions?.isSome ↔ tokens.lexemes ∈ Grammar.text) ∧
    (tokens.lexemes ∈ Grammar.text → ∃ statements parts definitions drops,
      List.Forall₂ Statement.IsSpelledBy statements parts ∧ parts.flatten = tokens.body ∧
      (ofTokens limit tokens : Reading D) = ⟨some definitions, drops⟩ ∧
      definitions = statements.filterMap (Statement.definition? D limit) ∧
      drops = statements.filterMap (Statement.drop? D limit) ∧
      List.Forall₂ (Statement.IsDroppedWith D limit)
        (statements.filter fun s => (s.definition? D limit).isNone) drops ∧
      definitions.length + drops.length = parts.length) ∧
    (tokens.lexemes ∉ Grammar.text → ∃ statements parts rest drops position line item message,
      List.Forall₂ Statement.IsSpelledBy statements parts ∧ parts.flatten ++ rest = tokens.body ∧
      (∀ word ∈ Grammar.equation, ¬ word <+: rest.map Token.lexeme) ∧
      (ofTokens limit tokens : Reading D) = ⟨none, drops ++ [⟨.error, line, item, message⟩]⟩ ∧
      drops = statements.filterMap (Statement.drop? D limit) ∧
      List.Forall₂ (Statement.IsDroppedWith D limit)
        (statements.filter fun s => (s.definition? D limit).isNone) drops ∧
      IsLeast {n | ¬ Grammar.Viable ((withEnd tokens.lexemes).take (n + 1))} position ∧
      tokens.StandsAt position line item ∧
      ∃ lexeme, lexeme.IsAskedFor message ∧
        Grammar.Viable ((withEnd tokens.lexemes).take position ++ [some lexeme])) := by
  refine ⟨?_, fun htext => ?_, fun htext => ?_⟩
  · by_cases htext : tokens.lexemes ∈ Grammar.text
    · obtain ⟨_, _, _, _, hread⟩ := ofTokens_of_mem_text (D := D) limit htext
      exact iff_of_true (by rw [hread]; rfl) htext
    · obtain ⟨_, _, _, _, _, _, _, _, hread, _⟩ := ofTokens_of_not_mem_text (D := D) limit htext
      exact iff_of_false (by rw [hread]; simp) htext
  · obtain ⟨statements, parts, hparts, hbody, hread⟩ := ofTokens_of_mem_text (D := D) limit htext
    refine ⟨statements, parts, _, _, hparts, hbody, hread, rfl, rfl,
      Statement.forall₂_isDroppedWith limit statements, ?_⟩
    rw [Statement.length_definitions_add_length_drops, hparts.length_eq]
  · obtain ⟨statements, parts, rest, error, position, hparts, hbody, hnone, hread, hleast, hfound, lexeme,
      hmet, hviable⟩ := ofTokens_of_not_mem_text (D := D) limit htext
    obtain ⟨line, item, message, hreport, hstands, hasked⟩ := SyntaxError.exists_report_eq hfound
    rw [hreport] at hread
    exact ⟨statements, parts, rest, _, position, line, item, message, hparts, hbody, hnone, hread, rfl,
      Statement.forall₂_isDroppedWith limit statements, hleast, hstands, lexeme, hasked lexeme hmet,
      hviable⟩

end Reading

/-! ## Texts of statements -/

/-- A source consists of some statements: its tokens spell them one after the other. -/
def ConsistsOf (source : String) (statements : List Statement) : Prop :=
  ∃ tokens parts, Tokens.ofSource source = .ok tokens ∧
    List.Forall₂ Statement.IsSpelledBy statements parts ∧ parts.flatten = tokens.body

omit [Domain D] [DecidableEq D] [Spelling D] in
/-- The lexemes of a complete statement spell it, if they all stand on its line. -/
theorem Statement.IsComplete.isSpelledBy_lexemes {statement : Statement} (h : statement.IsComplete) :
    statement.IsSpelledBy (statement.lexemes.map fun lexeme => ⟨lexeme, statement.line⟩) := by
  have hlexemes : (statement.lexemes.map fun lexeme => (⟨lexeme, statement.line⟩ : Token)).map Token.lexeme =
      statement.lexemes := by
    rw [List.map_map]
    exact List.map_id _
  obtain ⟨line, -, -, hline⟩ := h.exists_isSpelledBy hlexemes
  obtain ⟨token, htoken, rfl⟩ := Option.map_eq_some_iff.mp hline
  obtain ⟨lexeme, -, rfl⟩ := List.mem_map.mp (List.mem_of_find?_eq_some htoken)
  exact ⟨h, hlexemes, hline⟩

omit [Domain D] [DecidableEq D] [Spelling D] in
/-- A source consists of complete statements if its tokens are their lexemes, each on the line of its
statement. -/
theorem consistsOf_of_lexemes {source : String} {statements : List Statement} {lastLine : Nat}
    (hcomplete : ∀ statement ∈ statements, statement.IsComplete)
    (htokens : Tokens.ofSource source = .ok ⟨(statements.map fun statement =>
      statement.lexemes.map fun lexeme => ⟨lexeme, statement.line⟩).flatten, lastLine⟩) :
    ConsistsOf source statements := by
  refine ⟨_, _, htokens, List.forall₂_map_right_iff.mpr (List.forall₂_same.mpr ?_), rfl⟩
  exact fun statement hstatement => (hcomplete statement hstatement).isSpelledBy_lexemes

omit [Domain D] [DecidableEq D] [Spelling D] in
/-- A source consists of some statements exactly if its tokens are a text of the grammar. -/
theorem exists_consistsOf_iff {source : String} :
    (∃ statements, ConsistsOf source statements) ↔
      ∃ tokens, Tokens.ofSource source = .ok tokens ∧ tokens.lexemes ∈ Grammar.text := by
  constructor
  · rintro ⟨statements, tokens, parts, hsource, hparts, hbody⟩
    exact ⟨tokens, hsource, by rw [Tokens.lexemes, ← hbody]; exact Script.mem_text_of_spelled hparts⟩
  · rintro ⟨tokens, hsource, htext⟩
    obtain ⟨parts, rest, hparts, hsplit, hend⟩ := Script.exists_parts tokens.body
    have hnone := Script.failure_eq_none_iff.mpr htext
    rcases hend with ⟨-, rfl⟩ | ⟨error, hsome, -⟩
    · exact ⟨_, tokens, parts, hsource, hparts, by rw [hsplit, List.append_nil]⟩
    · rw [hnone] at hsome
      cases hsome

/-- A source that consists of some statements gives their definitions and the reports of the dropped
ones. -/
theorem ConsistsOf.ofSource_eq {source : String} {statements : List Statement}
    (h : ConsistsOf source statements) (limit : Nat) :
    Reading.ofSource limit source = ⟨some (statements.filterMap (Statement.definition? D limit)),
      statements.filterMap (Statement.drop? D limit)⟩ := by
  obtain ⟨tokens, parts, hsource, hparts, hbody⟩ := h
  have hscript := Script.ofTokens_append hparts []
  rw [List.append_nil, Script.ofTokens_nil, List.append_nil, hbody] at hscript
  rw [Reading.ofSource, hsource]
  simp only [Reading.ofTokens, hscript, Statement.defineAll_eq]

end Definitions

end MonotoneEquations
