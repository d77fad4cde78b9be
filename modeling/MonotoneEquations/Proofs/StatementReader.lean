import Mathlib
import MonotoneEquations.Proofs.Readers

/-!
# Reading statements

Parts with an operator between them are read one by one, as long as the operator follows. Alternatives
are atoms between such operators, and statements hold one alternative or more, so what is known about
the parts carries over to both. A statement ends with a semicolon: the tokens that spell a complete
statement are read as that statement before any other tokens.
-/

namespace MonotoneEquations

namespace Statement

open Reader

/-! ## Parts with an operator between them -/

section Separated

variable {α : Type} {symbol : Operator} {part : Reader α} {Spells : α → List Token → Prop}

/-- Tokens that spell one part or more, with an operator between them. -/
inductive Separated (symbol : Operator) (Spells : α → List Token → Prop) :
    List α → List Token → Prop
  | one {a : α} {taken : List Token} : Spells a taken → Separated symbol Spells [a] taken
  | more {a : α} {taken : List Token} {separator : Token} {others : List α} {rest : List Token} :
    Spells a taken → separator.lexeme = .operator symbol → Separated symbol Spells others rest →
      Separated symbol Spells (a :: others) (taken ++ separator :: rest)

/-- Parts are read one by one, as long as a separator follows. -/
theorem separated_eq (advances : part.Advances) (tokens : List Token) :
    separated symbol part advances tokens =
      match part tokens with
      | .error error => .error error
      | .ok (a, rest) =>
        match expect symbol rest with
        | .error _ => .ok ([a], rest)
        | .ok (_, more) =>
          (separated symbol part advances more).map fun result => (a :: result.1, result.2) := by
  rw [separated]
  split
  next error herror => rw [herror]
  next a rest ha =>
    simp only [ha]
    split
    next error herror => simp only [herror]
    next more hmore =>
      simp only [hmore]
      cases separated symbol part advances more <;> rfl

/-- Reading parts ends where no separator follows. -/
theorem separated_of_clearOf (advances : part.Advances) {tokens rest : List Token} {a : α}
    (hpart : part tokens = .ok (a, rest)) (hclear : ClearOf [symbol] rest) :
    separated symbol part advances tokens = .ok ([a], rest) := by
  simp only [separated_eq, hpart, expect_error hclear]

/-- Reading parts goes on behind a separator. -/
theorem separated_of_cons (advances : part.Advances) {tokens rest : List Token} {a : α}
    {separator : Token} (hpart : part tokens = .ok (a, separator :: rest))
    (hseparator : separator.lexeme = .operator symbol) :
    separated symbol part advances tokens =
      (separated symbol part advances rest).map fun result => (a :: result.1, result.2) := by
  simp only [separated_eq advances tokens, hpart, expect_cons hseparator]

/-- A part that is read before a separator is read before the same separator wherever it goes on. -/
theorem separated_append (advances : part.Advances) {taken : List Token} {a : α} {separator : Token}
    (hlocal : ∀ other : List Token, other.head? = some separator → part (taken ++ other) = .ok (a, other))
    (hseparator : separator.lexeme = .operator symbol) (rest : List Token) :
    separated symbol part advances (taken ++ separator :: rest) =
      (separated symbol part advances rest).map fun result => (a :: result.1, result.2) :=
  separated_of_cons advances (hlocal _ rfl) hseparator

/-- The parts that are read are spelled by the tokens that are taken. -/
theorem separated_takes (advances : part.Advances) (hpart : part.Reads Spells) {tokens rest : List Token}
    {parts : List α} (hok : separated symbol part advances tokens = .ok (parts, rest)) :
    ∃ taken, tokens = taken ++ rest ∧ Separated symbol Spells parts taken ∧
      ∀ other : List Token, other.head? = rest.head? →
        separated symbol part advances (taken ++ other) = .ok (parts, other) := by
  induction hlength : tokens.length using Nat.strongRecOn generalizing tokens parts with
  | ind n ih =>
    cases ha : part tokens with
    | error error =>
      simp only [separated_eq, ha] at hok
      cases hok
    | ok read =>
      obtain ⟨a, next⟩ := read
      obtain ⟨taken, rfl, hspells, hlocal⟩ := hpart.takes ha
      rcases eq_cons_or_clearOf symbol next with ⟨separator, more, rfl, hseparator⟩ | hclear
      · have hshorter : more.length < n := by
          simp only [List.length_append, List.length_cons] at hlength
          omega
        rw [separated_append advances hlocal hseparator] at hok
        cases hmore : separated symbol part advances more with
        | error error =>
          rw [hmore] at hok
          cases hok
        | ok readMore =>
          obtain ⟨others, last⟩ := readMore
          rw [hmore] at hok
          cases hok
          obtain ⟨back, rfl, hspells', hlocal'⟩ := ih _ hshorter hmore rfl
          refine ⟨taken ++ separator :: back, by simp, .more hspells hseparator hspells', ?_⟩
          intro other hother
          rw [List.append_assoc, List.cons_append, separated_append advances hlocal hseparator,
            hlocal' other hother]
          rfl
      · rw [separated_of_clearOf advances ha hclear] at hok
        cases hok
        refine ⟨taken, rfl, .one hspells, fun other hother => ?_⟩
        rw [ClearOf, ← hother] at hclear
        exact separated_of_clearOf advances (hlocal other hother) hclear

/-- Where reading parts stops, what was expected could have gone on to spell some. -/
theorem separated_stops (advances : part.Advances) (hpart : part.Reads Spells) {tokens : List Token}
    {error : SyntaxError} (herror : separated symbol part advances tokens = .error error) :
    ∃ taken rest, tokens = taken ++ rest ∧ error.found = rest.head? ∧
      (∃ parts token more, error.expected.IsMetBy token.lexeme ∧
        Separated symbol Spells parts (taken ++ token :: more)) ∧
      ∀ other : List Token, other.head? = rest.head? →
        separated symbol part advances (taken ++ other) = .error error := by
  induction hlength : tokens.length using Nat.strongRecOn generalizing tokens with
  | ind n ih =>
    cases ha : part tokens with
    | error failure =>
      simp only [separated_eq, ha] at herror
      cases herror
      obtain ⟨taken, rest, rfl, hfound, ⟨a, token, more, hmet, hspells⟩, hlocal⟩ := hpart.stops ha
      refine ⟨taken, rest, rfl, hfound, ⟨[a], token, more, hmet, .one hspells⟩, fun other hother => ?_⟩
      simp only [separated_eq, hlocal other hother]
    | ok read =>
      obtain ⟨a, next⟩ := read
      obtain ⟨taken, rfl, hspells, hlocal⟩ := hpart.takes ha
      rcases eq_cons_or_clearOf symbol next with ⟨separator, more, rfl, hseparator⟩ | hclear
      · have hshorter : more.length < n := by
          simp only [List.length_append, List.length_cons] at hlength
          omega
        rw [separated_append advances hlocal hseparator] at herror
        cases hmore : separated symbol part advances more with
        | ok readMore =>
          rw [hmore] at herror
          cases herror
        | error failure =>
          rw [hmore] at herror
          cases herror
          obtain ⟨back, rest, rfl, hfound, ⟨others, token, last, hmet, hspells'⟩, hlocal'⟩ :=
            ih _ hshorter hmore rfl
          refine ⟨taken ++ separator :: back, rest, by simp, hfound,
            ⟨a :: others, token, last, hmet, ?_⟩, ?_⟩
          · rw [List.append_assoc, List.cons_append]
            exact .more hspells hseparator hspells'
          · intro other hother
            rw [List.append_assoc, List.cons_append, separated_append advances hlocal hseparator,
              hlocal' other hother]
            rfl
      · rw [separated_of_clearOf advances ha hclear] at herror
        cases herror

/-- Parts take what spells them, with the separators between them. -/
theorem separated_reads (advances : part.Advances) (hpart : part.Reads Spells) :
    Reader.Reads (separated symbol part advances) (Separated symbol Spells) where
  possible := by
    obtain ⟨a, taken, hspells⟩ := hpart.possible
    exact ⟨[a], taken, .one hspells⟩
  takes := separated_takes advances hpart
  stops := separated_stops advances hpart

/-- Parts that are spelled are read, unless another separator follows, or an operator that the last
part would have taken. -/
theorem separated_accepts (advances : part.Advances) {symbols : List Operator}
    (hpart : part.Accepts symbols Spells) (hsymbol : symbol ∉ symbols) :
    Reader.Accepts (separated symbol part advances) (symbol :: symbols)
      (Separated symbol Spells) := by
  intro parts taken rest hspells hclear
  have hnext : ClearOf symbols rest := fun token htoken other hother =>
    hclear token htoken other (List.mem_cons_of_mem _ hother)
  have hend : ClearOf [symbol] rest := fun token htoken other hother => by
    obtain rfl := List.mem_singleton.mp hother
    exact hclear token htoken other List.mem_cons_self
  induction hspells with
  | one hspells => exact separated_of_clearOf advances (hpart hspells hnext) hend
  | @more a taken separator others more hspells hseparator _ ih =>
    have hfirst : part (taken ++ separator :: more ++ rest) =
        .ok (a, separator :: (more ++ rest)) := by
      rw [List.append_assoc]
      exact hpart hspells (clearOf_cons hseparator hsymbol _)
    rw [separated_of_cons advances hfirst hseparator, ih]
    rfl

/-- Parts are spelled one by one exactly if their written form is spelled. -/
theorem separated_iff {P : α → Prop} {spell : α → List Lexeme} {parts : List α} {taken : List Token} :
    Separated symbol (fun a taken => P a ∧ taken.map Token.lexeme = spell a) parts taken ↔
      (parts ≠ [] ∧ ∀ a ∈ parts, P a) ∧ taken.map Token.lexeme = lexemesOf symbol spell parts := by
  constructor
  · intro hspells
    induction hspells with
    | one hspells => simpa [lexemesOf] using hspells
    | more hspells hseparator hmore ih =>
      obtain ⟨⟨hne, hall⟩, hlexemes⟩ := ih
      obtain ⟨b, others, rfl⟩ := List.exists_cons_of_ne_nil hne
      refine ⟨⟨List.cons_ne_nil _ _, List.forall_mem_cons.mpr ⟨hspells.1, hall⟩⟩, ?_⟩
      simp [hspells.2, hseparator, hlexemes, lexemesOf]
  · rintro ⟨⟨hne, hall⟩, hlexemes⟩
    induction parts generalizing taken with
    | nil => exact absurd rfl hne
    | cons a others ih =>
      rw [List.forall_mem_cons] at hall
      cases others with
      | nil => exact .one ⟨hall.1, by simpa [lexemesOf] using hlexemes⟩
      | cons b others =>
        obtain ⟨first, more, rfl, hfirst, hmore⟩ := List.map_eq_append_iff.mp hlexemes
        obtain ⟨separator, rest, rfl, hseparator, hrest⟩ := List.map_eq_cons_iff.mp hmore
        exact .more ⟨hall.1, hfirst⟩ hseparator (ih hrest (List.cons_ne_nil _ _) hall.2)

end Separated

/-! ## Statements -/

/-- Whether some tokens spell an alternative with at least one atom. -/
def SpellsAtoms (atoms : List Key) (taken : List Token) : Prop :=
  atoms ≠ [] ∧ taken.map Token.lexeme = lexemesOf .and Key.lexemes atoms

/-- Whether some tokens spell one alternative or more. -/
def SpellsAlternatives (alternatives : List (List Key)) (taken : List Token) : Prop :=
  (alternatives ≠ [] ∧ ∀ atoms ∈ alternatives, atoms ≠ []) ∧
    taken.map Token.lexeme = alternativesLexemes alternatives

/-- Read alternatives. -/
abbrev readAlternatives : Reader (List (List Key)) := separated .or alternative alternative_advances

/-- The tokens of an atom spell it. -/
theorem atom_reads : Reader.Reads atom fun key taken => True ∧ taken.map Token.lexeme = key.lexemes := by
  rw [atom_eq]
  refine (placedKey_reads.andThen fun placed => Reader.give_reads placed.2).mono ?_
  rintro key _ ⟨placed, front, back, rfl, ⟨hlexemes, -⟩, rfl, rfl⟩
  exact ⟨trivial, by rwa [List.append_nil]⟩

/-- What spells an atom has a name. -/
theorem exists_isSpelledAt {key : Key} {taken : List Token}
    (hlexemes : taken.map Token.lexeme = key.lexemes) : ∃ line, key.IsSpelledAt line taken := by
  have hname : .name key.base ∈ taken.map Token.lexeme := by simp [hlexemes, Key.lexemes]
  obtain ⟨token, htoken, heq⟩ := List.mem_map.mp hname
  have hfound : (nameLine? taken).isSome := by
    rw [nameLine?, Option.isSome_map, List.find?_isSome]
    exact ⟨token, htoken, by rw [heq]; rfl⟩
  obtain ⟨line, hline⟩ := Option.isSome_iff_exists.mp hfound
  exact ⟨line, hlexemes, hline⟩

/-- An atom that is spelled is read, unless a mark for unstable keys follows. -/
theorem atom_accepts : Reader.Accepts atom [.unstable] fun key taken =>
    True ∧ taken.map Token.lexeme = key.lexemes := by
  rintro key taken rest ⟨-, hlexemes⟩ hclear
  obtain ⟨line, hspelled⟩ := exists_isSpelledAt hlexemes
  have hkey : placedKey (taken ++ rest) = .ok ((line, key), rest) := placedKey_accepts hspelled hclear
  rw [atom_eq, Reader.andThen, hkey]
  rfl

/-- The tokens of an alternative spell it. -/
theorem alternative_reads : Reader.Reads alternative SpellsAtoms :=
  (separated_reads atom_advances atom_reads).mono fun _ _ h => by
    simpa [SpellsAtoms] using separated_iff.mp h

/-- An alternative that is spelled is read, unless it could go on. -/
theorem alternative_accepts : Reader.Accepts alternative [.and, .unstable] SpellsAtoms :=
  fun hspells => separated_accepts atom_advances atom_accepts (by decide)
    (separated_iff.mpr (by simpa [SpellsAtoms] using hspells))

/-- The tokens of alternatives spell them. -/
theorem readAlternatives_reads : Reader.Reads readAlternatives SpellsAlternatives :=
  (separated_reads alternative_advances alternative_reads).mono fun _ _ h => separated_iff.mp h

/-- Alternatives that are spelled are read, unless they could go on. -/
theorem readAlternatives_accepts :
    Reader.Accepts readAlternatives [.or, .and, .unstable] SpellsAlternatives :=
  fun hspells => separated_accepts alternative_advances alternative_accepts (by decide)
    (separated_iff.mpr hspells)

/-- A statement is read part by part. -/
theorem reader_eq : reader = placedKey.andThen fun placed => (expect .define).andThen fun _ =>
    readAlternatives.andThen fun alternatives => (expect .semicolon).andThen fun _ =>
      Reader.give ⟨placed.1, placed.2, alternatives⟩ := by
  funext tokens
  simp only [reader, Reader.andThen, bind, Except.bind]
  cases placedKey tokens with
  | error _ => rfl
  | ok placed =>
    obtain ⟨⟨line, key⟩, afterKey⟩ := placed
    cases hdefine : expect .define afterKey with
    | error _ => simp only [hdefine]
    | ok defined =>
      obtain ⟨_, body⟩ := defined
      cases halternatives : readAlternatives body with
      | error _ => simp only [hdefine, halternatives]
      | ok readBody =>
        obtain ⟨alternatives, afterBody⟩ := readBody
        cases hend : expect .semicolon afterBody with
        | error _ => simp only [hdefine, halternatives, hend]
        | ok ended =>
          simp only [hdefine, halternatives, hend]
          rfl

/-- The line of the first name does not depend on what follows it. -/
theorem nameLine?_append {taken : List Token} {line : Nat} (h : nameLine? taken = some line)
    (rest : List Token) : nameLine? (taken ++ rest) = some line := by
  obtain ⟨token, htoken, rfl⟩ := Option.map_eq_some_iff.mp h
  rw [nameLine?, List.find?_append, htoken]
  rfl

/-- The tokens of a statement spell it. -/
theorem reader_reads : Reader.Reads reader IsSpelledBy := by
  have hend (placed : Nat × Key) (alternatives : List (List Key)) :=
    (expect_reads .semicolon).andThen fun _ =>
      Reader.give_reads (Statement.mk placed.1 placed.2 alternatives)
  have hdefine (placed : Nat × Key) := (expect_reads .define).andThen fun _ =>
    readAlternatives_reads.andThen (hend placed)
  rw [reader_eq]
  refine (placedKey_reads.andThen hdefine).mono ?_
  rintro _ _ ⟨placed, front, _, rfl, ⟨hkey, hline⟩, _, define, _, rfl, hdefine, alternatives, body, _,
    rfl, ⟨hcomplete, hbody⟩, _, semicolon, _, rfl, hsemicolon, rfl, rfl⟩
  refine ⟨hcomplete, ?_, nameLine?_append hline _⟩
  simp only [List.map_append, hkey, hdefine, hbody, hsemicolon, lexemes, List.append_nil,
    List.append_assoc]

/-- A complete statement that is spelled is read, whatever follows. -/
theorem reader_accepts : Reader.Accepts reader [] IsSpelledBy := by
  rintro statement taken rest ⟨hcomplete, hlexemes, hline⟩ -
  obtain ⟨_, semicolon, rfl, hfront, hsemicolon⟩ := List.map_eq_append_iff.mp hlexemes
  obtain ⟨_, body, rfl, hfront', hbody⟩ := List.map_eq_append_iff.mp hfront
  obtain ⟨key, define, rfl, hkey, hdefine⟩ := List.map_eq_append_iff.mp hfront'
  obtain ⟨define, rfl, hstart⟩ := List.map_eq_singleton_iff.mp hdefine
  obtain ⟨semicolon, rfl, hend⟩ := List.map_eq_singleton_iff.mp hsemicolon
  obtain ⟨line, hspelled⟩ := exists_isSpelledAt hkey
  obtain rfl : line = statement.line := by
    rw [List.append_assoc, List.append_assoc, nameLine?_append hspelled.2] at hline
    exact Option.some.inj hline
  have hplaced := placedKey_accepts (a := (statement.line, statement.key)) hspelled
    (clearOf_cons hstart (by decide) (body ++ semicolon :: rest))
  have halternatives := readAlternatives_accepts ⟨hcomplete, hbody⟩
    (clearOf_cons hend (by decide) rest)
  have hsplit : key ++ [define] ++ body ++ [semicolon] ++ rest =
      key ++ define :: (body ++ semicolon :: rest) := by simp
  rw [hsplit, reader_eq]
  simp only [Reader.andThen, hplaced, expect_cons hstart, halternatives, expect_cons hend]
  rfl

end Statement

end MonotoneEquations
