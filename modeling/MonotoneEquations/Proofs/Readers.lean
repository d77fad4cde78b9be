import Mathlib
import MonotoneEquations.Proofs.Grammar
import MonotoneEquations.Proofs.Pieces

/-!
# Readers

What readers take and where they stop. A reader that succeeds takes tokens that spell its result, and
one that fails stops behind tokens that could go on to spell one. In both cases it looks at no more
than one token behind those it takes, so that it does the same before any other rest that begins
alike. Reading parts one after the other keeps both properties.

The converse depends on what follows. A key that is spelled before a mark for unstable keys would be
read together with that mark, and alternatives before another separator would go on. Before all
other tokens a part that is spelled is read.
-/

namespace MonotoneEquations

/-- The line of the first name among some tokens. -/
def nameLine? (tokens : List Token) : Option Nat :=
  (tokens.find? fun token => token.lexeme.name?.isSome).map Token.line

/-- Whether some tokens spell a key whose name stands on the given line. -/
def Key.IsSpelledAt (line : Nat) (key : Key) (tokens : List Token) : Prop :=
  tokens.map Token.lexeme = key.lexemes ∧ nameLine? tokens = some line

/-- Whether some tokens spell a complete statement and its line. -/
structure Statement.IsSpelledBy (statement : Statement) (tokens : List Token) : Prop where
  complete : statement.IsComplete
  lexemes : tokens.map Token.lexeme = statement.lexemes
  line : nameLine? tokens = some statement.line

/-- Whether some tokens do not begin with one of the given operators. -/
def ClearOf (symbols : List Operator) (tokens : List Token) : Prop :=
  ∀ token ∈ tokens.head?, ∀ symbol ∈ symbols, token.lexeme ≠ .operator symbol

/-- An operator is not one of the operators that it differs from. -/
theorem clearOf_cons {symbol : Operator} {symbols : List Operator} {token : Token}
    (htoken : token.lexeme = .operator symbol) (hsymbol : symbol ∉ symbols) (rest : List Token) :
    ClearOf symbols (token :: rest) := by
  rintro _ ⟨⟩ other hother heq
  rw [htoken] at heq
  cases heq
  exact hsymbol hother

/-- Whether a lexeme is what was expected; where a key was, its name is. -/
def Expected.IsMetBy : Expected → Lexeme → Prop
  | .key, lexeme => lexeme.name?.isSome
  | .operator symbol, lexeme => lexeme = .operator symbol

namespace Reader

variable {α β : Type}

/-- A reader takes what spells its result, and stops where something spelled could still go on with what
it expected. -/
structure Reads (reader : Reader α) (Spells : α → List Token → Prop) : Prop where
  possible : ∃ a taken, Spells a taken
  takes {tokens : List Token} {a : α} {rest : List Token} : reader tokens = .ok (a, rest) →
    ∃ taken, tokens = taken ++ rest ∧ Spells a taken ∧
      ∀ other : List Token, other.head? = rest.head? → reader (taken ++ other) = .ok (a, other)
  stops {tokens : List Token} {error : SyntaxError} : reader tokens = .error error →
    ∃ taken rest, tokens = taken ++ rest ∧ error.found = rest.head? ∧
      (∃ a token more, error.expected.IsMetBy token.lexeme ∧ Spells a (taken ++ token :: more)) ∧
      ∀ other : List Token, other.head? = rest.head? → reader (taken ++ other) = .error error

/-- A reader takes everything that is spelled, unless one of the given operators follows. -/
def Accepts (reader : Reader α) (symbols : List Operator) (Spells : α → List Token → Prop) : Prop :=
  ∀ {a : α} {taken rest : List Token}, Spells a taken → ClearOf symbols rest →
    reader (taken ++ rest) = .ok (a, rest)

/-- Read one part, and then another one that may depend on it. -/
def andThen (first : Reader α) (next : α → Reader β) : Reader β := fun tokens =>
  match first tokens with
  | .error error => .error error
  | .ok (a, rest) => next a rest

/-- Read nothing. -/
def give (b : β) : Reader β := fun tokens => .ok (b, tokens)

/-! ## Readers in a row -/

/-- What follows some tokens begins alike if what follows next does. -/
theorem head?_append_congr {rest other : List Token} (h : other.head? = rest.head?)
    (taken : List Token) : (taken ++ other).head? = (taken ++ rest).head? := by
  rw [List.head?_append, List.head?_append, h]

/-- A reader may be said to take more than it takes. -/
theorem Reads.mono {reader : Reader α} {S T : α → List Token → Prop} (h : reader.Reads S)
    (hmono : ∀ a taken, S a taken → T a taken) : reader.Reads T where
  possible := by
    obtain ⟨a, taken, hspells⟩ := h.possible
    exact ⟨a, taken, hmono a taken hspells⟩
  takes hok := by
    obtain ⟨taken, hsplit, hspells, hlocal⟩ := h.takes hok
    exact ⟨taken, hsplit, hmono _ _ hspells, hlocal⟩
  stops herror := by
    obtain ⟨taken, rest, hsplit, hfound, ⟨a, token, more, hmet, hspells⟩, hlocal⟩ := h.stops herror
    exact ⟨taken, rest, hsplit, hfound, ⟨a, token, more, hmet, hmono _ _ hspells⟩, hlocal⟩

/-- Reading nothing takes no token. -/
theorem give_reads (b : β) : (give b).Reads fun a taken => a = b ∧ taken = [] where
  possible := ⟨b, [], rfl, rfl⟩
  takes hok := by
    obtain ⟨rfl, rfl⟩ : b = _ ∧ _ = _ := by simpa [give] using hok
    exact ⟨[], rfl, ⟨rfl, rfl⟩, fun _ _ => rfl⟩
  stops herror := nomatch herror

/-- Two parts in a row take what spells the first one and then the second one. -/
theorem Reads.andThen {first : Reader α} {next : α → Reader β} {S : α → List Token → Prop}
    {T : α → β → List Token → Prop} (hfirst : first.Reads S) (hnext : ∀ a, (next a).Reads (T a)) :
    (first.andThen next).Reads fun b taken =>
      ∃ a front back, taken = front ++ back ∧ S a front ∧ T a b back where
  possible := by
    obtain ⟨a, front, hS⟩ := hfirst.possible
    obtain ⟨b, back, hT⟩ := (hnext a).possible
    exact ⟨b, front ++ back, a, front, back, rfl, hS, hT⟩
  takes {tokens b rest} hok := by
    unfold Reader.andThen at hok
    split at hok
    next => cases hok
    next a middle ha =>
      obtain ⟨front, rfl, hS, hfront⟩ := hfirst.takes ha
      obtain ⟨back, rfl, hT, hback⟩ := (hnext a).takes hok
      refine ⟨front ++ back, (List.append_assoc ..).symm, ⟨a, front, back, rfl, hS, hT⟩, ?_⟩
      intro other hother
      rw [List.append_assoc, Reader.andThen, hfront _ (head?_append_congr hother back)]
      exact hback other hother
  stops {tokens error} herror := by
    unfold Reader.andThen at herror
    split at herror
    next failure hfailure =>
      cases herror
      obtain ⟨taken, rest, rfl, hfound, ⟨a, token, more, hmet, hS⟩, hlocal⟩ := hfirst.stops hfailure
      obtain ⟨b, last, hT⟩ := (hnext a).possible
      refine ⟨taken, rest, rfl, hfound,
        ⟨b, token, more ++ last, hmet, a, taken ++ token :: more, last, ?_, hS, hT⟩, ?_⟩
      · rw [List.append_assoc, List.cons_append]
      · intro other hother
        rw [Reader.andThen, hlocal other hother]
    next a middle ha =>
      obtain ⟨front, rfl, hS, hfront⟩ := hfirst.takes ha
      obtain ⟨back, rest, rfl, hfound, ⟨b, token, more, hmet, hT⟩, hback⟩ := (hnext a).stops herror
      refine ⟨front ++ back, rest, (List.append_assoc ..).symm, hfound,
        ⟨b, token, more, hmet, a, front, back ++ token :: more, List.append_assoc .., hS, hT⟩, ?_⟩
      intro other hother
      rw [List.append_assoc, Reader.andThen, hfront _ (head?_append_congr hother back)]
      exact hback other hother

end Reader

namespace Statement

open Reader

/-! ## Keys -/

/-- A marked name before anything else is a stable key. -/
theorem markedName_stable (negated : Bool) (base : String) (line : Nat) {rest : List Token}
    (hclear : ClearOf [.unstable] rest) :
    markedName negated (⟨.name base, line⟩ :: rest) = .ok ((line, ⟨base, true, negated⟩), rest) := by
  match rest with
  | [] => rfl
  | ⟨.name _, _⟩ :: _ => rfl
  | ⟨.operator symbol, _⟩ :: _ =>
    have hsymbol : symbol ≠ .unstable := by simpa [ClearOf] using hclear
    cases symbol with
    | unstable => exact absurd rfl hsymbol
    | define | and | or | not | semicolon => rfl

/-- Where there is no name, a key is expected. -/
theorem markedName_error (negated : Bool) {tokens : List Token}
    (hname : ∀ token ∈ tokens.head?, token.lexeme.name? = none) :
    markedName negated tokens = .error ⟨tokens.head?, .key⟩ := by
  match tokens with
  | [] => rfl
  | ⟨.name base, _⟩ :: _ => simp [Lexeme.name?] at hname
  | ⟨.operator _, _⟩ :: _ => rfl

/-- A marked name is read from its name, and from the mark for unstable keys if that is next. -/
theorem markedName_reads (negated : Bool) : Reader.Reads (markedName negated) fun placed taken =>
    placed.2.negated = negated ∧ ∃ back, taken = ⟨.name placed.2.base, placed.1⟩ :: back ∧
      back.map Token.lexeme = if placed.2.stable then [] else [.operator .unstable] where
  possible := ⟨(0, ⟨"", true, negated⟩), [⟨.name "", 0⟩], rfl, [], rfl, rfl⟩
  takes {tokens placed rest} hok := by
    match tokens with
    | [] | ⟨.operator _, _⟩ :: _ => cases hok
    | ⟨.name base, line⟩ :: after =>
      by_cases hclear : ClearOf [.unstable] after
      · rw [markedName_stable negated base line hclear] at hok
        cases hok
        refine ⟨[⟨.name base, line⟩], rfl, ⟨rfl, [], rfl, rfl⟩, fun other hother => ?_⟩
        rw [ClearOf, ← hother] at hclear
        exact markedName_stable negated base line hclear
      · obtain ⟨mark, hmark, hunstable⟩ : ∃ token ∈ after.head?, token.lexeme = .operator .unstable := by
          simpa [ClearOf] using hclear
        obtain ⟨after, rfl⟩ := List.head?_eq_some_iff.mp hmark
        obtain ⟨lexeme, other⟩ := mark
        obtain rfl : lexeme = .operator .unstable := hunstable
        cases hok
        exact ⟨[⟨.name base, line⟩, ⟨.operator .unstable, other⟩], rfl, ⟨rfl, _, rfl, rfl⟩,
          fun _ _ => rfl⟩
  stops {tokens error} herror := by
    have hname : ∀ token ∈ tokens.head?, token.lexeme.name? = none := by
      match tokens with
      | [] => simp
      | ⟨.operator _, _⟩ :: _ => simp [Lexeme.name?]
      | ⟨.name base, line⟩ :: after =>
        unfold markedName at herror
        split at herror <;> simp_all
    rw [markedName_error negated hname] at herror
    cases herror
    refine ⟨[], tokens, rfl, rfl,
      ⟨(0, ⟨"", true, negated⟩), ⟨.name "", 0⟩, [], rfl, rfl, [], rfl, rfl⟩, ?_⟩
    intro other hother
    rw [← hother] at hname ⊢
    exact markedName_error negated hname

/-- Without a mark for negation, a key is a marked name. -/
theorem placedKey_of_clearOf {tokens : List Token} (hclear : ClearOf [.not] tokens) :
    placedKey tokens = markedName false tokens := by
  match tokens with
  | [] | ⟨.name _, _⟩ :: _ => rfl
  | ⟨.operator symbol, _⟩ :: _ =>
    have hsymbol : symbol ≠ .not := by simpa [ClearOf] using hclear
    cases symbol with
    | not => exact absurd rfl hsymbol
    | define | and | or | unstable | semicolon => rfl

/-- A key starts with a mark for negation or not. -/
theorem eq_cons_not_or_clearOf (tokens : List Token) :
    (∃ line rest, tokens = ⟨.operator .not, line⟩ :: rest) ∨ ClearOf [.not] tokens := by
  by_cases hclear : ClearOf [.not] tokens
  · exact .inr hclear
  · obtain ⟨⟨lexeme, line⟩, hmark, hnot⟩ :
        ∃ token ∈ tokens.head?, token.lexeme = .operator .not := by simpa [ClearOf] using hclear
    obtain ⟨rest, rfl⟩ := List.head?_eq_some_iff.mp hmark
    obtain rfl : lexeme = .operator .not := hnot
    exact .inl ⟨line, rest, rfl⟩

/-- A key is read from its marks and its name, and placed on the line of its name. -/
theorem placedKey_reads : Reader.Reads placedKey fun placed taken =>
    placed.2.IsSpelledAt placed.1 taken where
  possible := ⟨(0, ⟨"", true, false⟩), [⟨.name "", 0⟩], rfl, rfl⟩
  takes {tokens placed rest} hok := by
    rcases eq_cons_not_or_clearOf tokens with ⟨line, after, rfl⟩ | hclear
    · obtain ⟨taken, rfl, ⟨hnegated, back, rfl, hback⟩, hlocal⟩ := (markedName_reads true).takes hok
      refine ⟨⟨.operator .not, line⟩ :: _, rfl, ⟨?_, rfl⟩, hlocal⟩
      simp [Key.lexemes, hnegated, hback]
    · rw [placedKey_of_clearOf hclear] at hok
      obtain ⟨taken, rfl, ⟨hnegated, back, rfl, hback⟩, hlocal⟩ := (markedName_reads false).takes hok
      refine ⟨_, rfl, ⟨by simp [Key.lexemes, hnegated, hback], rfl⟩, fun other hother => ?_⟩
      rw [placedKey_of_clearOf, hlocal other hother]
      rwa [ClearOf, head?_append_congr hother]
  stops {tokens error} herror := by
    rcases eq_cons_not_or_clearOf tokens with ⟨line, after, rfl⟩ | hclear
    · obtain ⟨taken, rest, rfl, hfound, ⟨placed, token, more, hmet, hnegated, back, heq, hback⟩,
        hlocal⟩ := (markedName_reads true).stops herror
      refine ⟨⟨.operator .not, line⟩ :: taken, rest, rfl, hfound,
        ⟨placed, token, more, hmet, ?_, ?_⟩, hlocal⟩
      · simp [Key.lexemes, hnegated, heq, hback]
      · rw [List.cons_append, heq]
        rfl
    · rw [placedKey_of_clearOf hclear] at herror
      obtain ⟨taken, rest, rfl, hfound, ⟨placed, token, more, hmet, hnegated, back, heq, hback⟩,
        hlocal⟩ := (markedName_reads false).stops herror
      refine ⟨taken, rest, rfl, hfound, ⟨placed, token, more, hmet, ?_, ?_⟩, fun other hother => ?_⟩
      · simp [Key.lexemes, hnegated, heq, hback]
      · rw [heq]
        rfl
      · rw [placedKey_of_clearOf, hlocal other hother]
        rwa [ClearOf, head?_append_congr hother]

/-- A key that is spelled is read, unless a mark for unstable keys follows. -/
theorem placedKey_accepts : Reader.Accepts placedKey [.unstable] fun placed taken =>
    placed.2.IsSpelledAt placed.1 taken := by
  rintro ⟨line, base, stable, negated⟩ taken rest ⟨hlexemes, hline⟩ hclear
  obtain ⟨_, back, rfl, hmarks, hback⟩ := List.map_eq_append_iff.mp hlexemes
  obtain ⟨front, _, rfl, hfront, hname⟩ := List.map_eq_append_iff.mp hmarks
  obtain ⟨⟨_, other⟩, rfl, rfl⟩ := List.map_eq_singleton_iff.mp hname
  -- The marks are there or not; the name between them is the only one.
  obtain rfl : other = line := by
    cases negated with
    | false =>
      obtain rfl := List.map_eq_nil_iff.mp hfront
      exact Option.some.inj hline
    | true =>
      obtain ⟨⟨_, _⟩, rfl, rfl⟩ := List.map_eq_singleton_iff.mp hfront
      exact Option.some.inj hline
  have hmarked : markedName negated (⟨.name base, other⟩ :: back ++ rest) =
      .ok ((other, ⟨base, stable, negated⟩), rest) := by
    cases stable with
    | true =>
      obtain rfl := List.map_eq_nil_iff.mp hback
      exact markedName_stable negated base other hclear
    | false =>
      obtain ⟨⟨_, _⟩, rfl, rfl⟩ := List.map_eq_singleton_iff.mp hback
      rfl
  cases negated with
  | false =>
    obtain rfl := List.map_eq_nil_iff.mp hfront
    exact hmarked
  | true =>
    obtain ⟨⟨_, _⟩, rfl, rfl⟩ := List.map_eq_singleton_iff.mp hfront
    exact hmarked

/-- An atom is read like a key. -/
theorem atom_eq : atom = placedKey.andThen fun placed => Reader.give placed.2 := by
  funext tokens
  unfold atom Reader.andThen
  cases placedKey tokens <;> rfl

/-! ## Operators -/

/-- An operator that is expected is read. -/
theorem expect_cons {symbol : Operator} {token : Token} (h : token.lexeme = .operator symbol)
    (rest : List Token) : expect symbol (token :: rest) = .ok ((), rest) := if_pos h

/-- An operator that is missing is expected. -/
theorem expect_error {symbol : Operator} {tokens : List Token} (hclear : ClearOf [symbol] tokens) :
    expect symbol tokens = .error ⟨tokens.head?, .operator symbol⟩ := by
  cases tokens with
  | nil => rfl
  | cons token rest => exact if_neg (hclear token rfl symbol List.mem_cons_self)

/-- An operator is the first of some tokens or not. -/
theorem eq_cons_or_clearOf (symbol : Operator) (tokens : List Token) :
    (∃ token rest, tokens = token :: rest ∧ token.lexeme = .operator symbol) ∨
      ClearOf [symbol] tokens := by
  by_cases hclear : ClearOf [symbol] tokens
  · exact .inr hclear
  · obtain ⟨token, hmark, hsymbol⟩ : ∃ token ∈ tokens.head?, token.lexeme = .operator symbol := by
      simpa [ClearOf] using hclear
    obtain ⟨rest, rfl⟩ := List.head?_eq_some_iff.mp hmark
    exact .inl ⟨token, rest, rfl, hsymbol⟩

/-- An operator is read from its token. -/
theorem expect_reads (symbol : Operator) : Reader.Reads (expect symbol) fun _ taken =>
    taken.map Token.lexeme = [.operator symbol] where
  possible := ⟨(), [⟨.operator symbol, 0⟩], rfl⟩
  takes {tokens a rest} hok := by
    rcases eq_cons_or_clearOf symbol tokens with ⟨token, after, rfl, hsymbol⟩ | hclear
    · rw [expect_cons hsymbol] at hok
      cases hok
      exact ⟨[token], rfl, congrArg (fun lexeme => [lexeme]) hsymbol,
        fun other _ => expect_cons hsymbol other⟩
    · rw [expect_error hclear] at hok
      cases hok
  stops {tokens error} herror := by
    rcases eq_cons_or_clearOf symbol tokens with ⟨token, after, rfl, hsymbol⟩ | hclear
    · rw [expect_cons hsymbol] at herror
      cases herror
    · rw [expect_error hclear] at herror
      cases herror
      refine ⟨[], tokens, rfl, rfl, ⟨(), ⟨.operator symbol, 0⟩, [], rfl, rfl⟩, fun other hother => ?_⟩
      rw [ClearOf, ← hother] at hclear
      rw [← hother]
      exact expect_error hclear

end Statement

end MonotoneEquations
