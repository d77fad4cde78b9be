import Mathlib
import MonotoneEquations.Proofs.Rendering
import MonotoneEquations.Proofs.ViablePrefix

/-!
# Written statements

Statements are written one to a line, with blanks around the operators between their parts. The
pieces of such a text are valid as soon as its names are, and none of its names stands before a
character that could continue it. So the text has the tokens of the statements, and reading these
gives back the statements, each on the line on which it was written.
-/

namespace MonotoneEquations

/-! ## The pieces of statements -/

/-- An operator between two blanks. -/
def spaced (symbol : Operator) : List Piece := [.blank ' ', .lexeme (.operator symbol), .blank ' ']

/-- The pieces of some parts with an operator between them. -/
def piecesOf {α : Type} (symbol : Operator) (pieces : α → List Piece) : List α → List Piece
  | [] => []
  | first :: others => pieces first ++ others.flatMap fun part => spaced symbol ++ pieces part

/-- The pieces of a key. -/
def Key.pieces (key : Key) : List Piece := key.lexemes.map .lexeme

/-- The pieces of a list of alternatives. -/
def alternativesPieces : List (List Key) → List Piece := piecesOf .or (piecesOf .and Key.pieces)

namespace Statement

/-- The pieces of a statement up to its end. -/
def inlinePieces (statement : Statement) : List Piece :=
  statement.key.pieces ++ spaced .define ++ alternativesPieces statement.alternatives

/-- The pieces of a statement and of the end of its line. -/
def pieces (statement : Statement) : List Piece :=
  statement.inlinePieces ++ [.lexeme (.operator .semicolon), .lineFeed]

/-- Whether the names of a statement are valid. -/
def HasNames (statement : Statement) : Prop :=
  IsName statement.key.base.toList ∧
    ∀ atoms ∈ statement.alternatives, ∀ atom ∈ atoms, IsName atom.base.toList

end Statement

section Parts

variable {α : Type} {symbol : Operator} {pieces : α → List Piece} {parts : List α}

/-- A piece of separated parts is a piece of one of them or a piece of a separator. -/
theorem mem_piecesOf {piece : Piece} (h : piece ∈ piecesOf symbol pieces parts) :
    (∃ part ∈ parts, piece ∈ pieces part) ∨ piece ∈ spaced symbol := by
  cases parts with
  | nil => cases h
  | cons first others =>
    simp only [piecesOf, List.mem_append, List.mem_flatMap] at h
    rcases h with h | ⟨part, hpart, h | h⟩
    · exact .inl ⟨first, List.mem_cons_self, h⟩
    · exact .inr h
    · exact .inl ⟨part, List.mem_cons_of_mem _ hpart, h⟩

/-- The lexeme of a spaced operator is the operator. -/
theorem filterMap_lexeme?_spaced (symbol : Operator) :
    (spaced symbol).filterMap Piece.lexeme? = [.operator symbol] := rfl

/-- The lexemes of separated parts are those of the parts with the operator between them. -/
theorem filterMap_lexeme?_piecesOf {spell : α → List Lexeme}
    (hpieces : ∀ part, (pieces part).filterMap Piece.lexeme? = spell part) :
    (piecesOf symbol pieces parts).filterMap Piece.lexeme? = lexemesOf symbol spell parts := by
  cases parts with
  | nil => rfl
  | cons first others =>
    rw [piecesOf, lexemesOf, List.filterMap_append, hpieces, List.filterMap_flatMap]
    simp only [List.filterMap_append, filterMap_lexeme?_spaced, hpieces, List.singleton_append]

end Parts

/-- The lexemes of a key's pieces are those of the key. -/
theorem Key.filterMap_lexeme?_pieces (key : Key) : key.pieces.filterMap Piece.lexeme? = key.lexemes := by
  simp [Key.pieces, List.filterMap_map, Function.comp_def, Piece.lexeme?]

/-- The lexemes of a statement's pieces are those of the statement. -/
theorem Statement.filterMap_lexeme?_pieces (statement : Statement) :
    statement.pieces.filterMap Piece.lexeme? = statement.lexemes := by
  have halternatives :
      (alternativesPieces statement.alternatives).filterMap Piece.lexeme? =
        alternativesLexemes statement.alternatives :=
    filterMap_lexeme?_piecesOf fun _ => filterMap_lexeme?_piecesOf Key.filterMap_lexeme?_pieces
  simp only [pieces, inlinePieces, lexemes, List.filterMap_append, filterMap_lexeme?_spaced,
    halternatives, Key.filterMap_lexeme?_pieces]
  rfl

/-! ## Pieces within a line -/

/-- A character of a name is ASCII and does not end a line. -/
theorem Tokens.isAscii_of_isNameChar {c : Char} (h : isNameChar c) : c.toNat < 128 ∧ c ≠ '\n' := by
  refine ⟨?_, ?_⟩
  · rcases Bool.or_eq_true_iff.mp h with h | h
    · simp only [Char.isAlphanum, Char.isAlpha, Char.isUpper, Char.isLower, Char.isDigit,
        Bool.or_eq_true, Bool.and_eq_true, decide_eq_true_eq, UInt32.le_iff_toNat_le, ge_iff_le] at h
      have hcode : c.toNat = c.val.toNat := rfl
      have hupper : 'Z'.val.toNat = 90 := rfl
      have hlower : 'z'.val.toNat = 122 := rfl
      have hdigit : '9'.val.toNat = 57 := rfl
      omega
    · have hother : ∀ d ∈ ['_', '.', '$', '/', '<', '>', '(', ')', '['], d.toNat < 128 := by
        simp
      exact hother c (List.contains_iff_mem.mp h)
  · rintro rfl
    revert h
    decide

namespace Piece

/-- Whether a piece stays on its line and is no comment. -/
def IsInline : Piece → Prop
  | .lexeme _ | .blank _ => True
  | .lineFeed | .comment _ _ => False

/-- A valid piece within a line is ASCII and does not end the line. -/
theorem IsInline.isAscii {piece : Piece} (hinline : piece.IsInline) (hvalid : piece.IsValid) :
    ∀ c ∈ piece.chars, c.toNat < 128 ∧ c ≠ '\n' := by
  cases piece with
  | lexeme word =>
    cases word with
    | name text => exact fun c hc => Tokens.isAscii_of_isNameChar (hvalid.isNameChar c hc)
    | operator symbol => cases symbol <;> simp [chars, Lexeme.chars, Operator.char]
  | blank char => rcases hvalid with rfl | rfl | rfl <;> simp [chars]
  | lineFeed | comment => exact hinline.elim

end Piece

/-- A spaced operator stays on its line. -/
theorem isInline_of_mem_spaced {symbol : Operator} : ∀ piece ∈ spaced symbol, piece.IsInline := by
  simp [spaced, Piece.IsInline]

/-- Separated parts stay on their line if the parts do. -/
theorem isInline_of_mem_piecesOf {α : Type} {symbol : Operator} {pieces : α → List Piece}
    {parts : List α} (hparts : ∀ part ∈ parts, ∀ piece ∈ pieces part, piece.IsInline) :
    ∀ piece ∈ piecesOf symbol pieces parts, piece.IsInline := by
  intro piece hpiece
  rcases mem_piecesOf hpiece with ⟨part, hpart, hmem⟩ | hmem
  · exact hparts part hpart piece hmem
  · exact isInline_of_mem_spaced piece hmem

/-- A key stays on its line. -/
theorem Key.isInline_of_mem_pieces {key : Key} : ∀ piece ∈ key.pieces, piece.IsInline := by
  simp [Key.pieces, Piece.IsInline]

/-- A statement stays on its line up to its end. -/
theorem Statement.isInline_of_mem_inlinePieces {statement : Statement} :
    ∀ piece ∈ statement.inlinePieces, piece.IsInline := by
  have halternatives : ∀ piece ∈ alternativesPieces statement.alternatives, piece.IsInline :=
    isInline_of_mem_piecesOf fun _ _ => isInline_of_mem_piecesOf fun _ _ => Key.isInline_of_mem_pieces
  intro piece hpiece
  simp only [inlinePieces, List.mem_append] at hpiece
  rcases hpiece with (hpiece | hpiece) | hpiece
  · exact Key.isInline_of_mem_pieces piece hpiece
  · exact isInline_of_mem_spaced piece hpiece
  · exact halternatives piece hpiece

/-! ## Cuts -/

/-- A text is cut into pieces part by part. -/
theorem cutBefore_append {after : List Char} {front back : List Piece} :
    CutBefore after (front ++ back) ↔
      CutBefore (pieceChars back ++ after) front ∧ CutBefore after back := by
  induction front with
  | nil => simp [CutBefore]
  | cons piece front ih =>
    rw [List.cons_append, CutBefore, CutBefore, ih]
    simp [pieceChars, and_assoc]

/-- Whether some pieces are cut before every character that cannot follow in a name. -/
def EndsBeforeGap (pieces : List Piece) : Prop :=
  ∀ c rest, Tokens.isNameChar c = false → CutBefore (c :: rest) pieces

/-- A spaced operator can stand anywhere. -/
theorem cutBefore_spaced (symbol : Operator) (after : List Char) : CutBefore after (spaced symbol) :=
  ⟨.inl rfl, trivial, trivial, trivial, .inl rfl, trivial, trivial⟩

/-- Separated parts end where the last part does. -/
theorem endsBeforeGap_piecesOf {α : Type} {symbol : Operator} {pieces : α → List Piece}
    {parts : List α} (hparts : ∀ part ∈ parts, EndsBeforeGap (pieces part)) :
    EndsBeforeGap (piecesOf symbol pieces parts) := by
  cases parts with
  | nil => exact fun _ _ _ => trivial
  | cons first others =>
    rw [List.forall_mem_cons] at hparts
    obtain ⟨hfirst, hothers⟩ := hparts
    -- Behind each part comes the blank of a separator, or what comes behind all parts.
    have hrest : EndsBeforeGap (others.flatMap fun part => spaced symbol ++ pieces part) := by
      clear hfirst
      induction others with
      | nil => exact fun _ _ _ => trivial
      | cons part others ih =>
        rw [List.forall_mem_cons] at hothers
        intro c rest hc
        rw [List.flatMap_cons, cutBefore_append, cutBefore_append]
        refine ⟨⟨cutBefore_spaced _ _, ?_⟩, ih hothers.2 c rest hc⟩
        cases others with
        | nil => exact hothers.1 c rest hc
        | cons next others => exact hothers.1 ' ' _ (by decide)
    intro c rest hc
    rw [piecesOf, cutBefore_append]
    refine ⟨?_, hrest c rest hc⟩
    cases others with
    | nil => exact hfirst c rest hc
    | cons next others => exact hfirst ' ' _ (by decide)

/-- A key ends before a character that cannot follow in its name. -/
theorem Key.endsBeforeGap_pieces {key : Key} (hname : IsName key.base.toList) :
    EndsBeforeGap key.pieces := by
  intro c rest hc
  have hmark (given : Bool) (symbol : Operator) (after : List Char) :
      CutBefore after ((if given then [.operator symbol] else []).map Piece.lexeme) := by
    cases given with
    | false => trivial
    | true => exact ⟨trivial, trivial, trivial⟩
  rw [pieces, lexemes, List.map_append, List.map_append, cutBefore_append, cutBefore_append]
  refine ⟨⟨hmark _ _ _, hname, ?_, trivial⟩, ?_⟩
  · cases hstable : key.stable with
    | true => exact Piece.endsBefore_of_not_isNameChar hc rest
    | false => exact Piece.endsBefore_of_not_isNameChar (by decide) _
  · cases key.stable with
    | true => trivial
    | false => exact ⟨trivial, trivial, trivial⟩

/-- A statement can stand anywhere. -/
theorem Statement.HasNames.cutBefore_pieces {statement : Statement} (hnames : statement.HasNames)
    (after : List Char) : CutBefore after statement.pieces := by
  have hkey : EndsBeforeGap statement.key.pieces := Key.endsBeforeGap_pieces hnames.1
  have halternatives : EndsBeforeGap (alternativesPieces statement.alternatives) :=
    endsBeforeGap_piecesOf fun atoms hatoms => endsBeforeGap_piecesOf fun atom hatom =>
      Key.endsBeforeGap_pieces (hnames.2 atoms hatoms atom hatom)
  rw [pieces, inlinePieces, cutBefore_append, cutBefore_append, cutBefore_append]
  exact ⟨⟨⟨hkey ' ' _ (by decide), cutBefore_spaced _ _⟩, halternatives ';' _ (by decide)⟩,
    trivial, trivial, trivial, trivial, trivial⟩

/-! ## Reading written statements -/

/-- The tokens of pieces in a row. -/
theorem pieceTokens_append (before : List Char) (front back : List Piece) :
    pieceTokens before (front ++ back) =
      pieceTokens before front ++ pieceTokens (before ++ pieceChars front) back := by
  induction front generalizing before with
  | nil => simp [pieceTokens, pieceChars]
  | cons piece front ih =>
    rw [List.cons_append, pieceTokens, pieceTokens, ih]
    simp [pieceChars]

/-- The lexemes of pieces do not depend on where the pieces stand. -/
theorem map_lexeme_pieceTokens (before : List Char) (pieces : List Piece) :
    (pieceTokens before pieces).map Token.lexeme = pieces.filterMap Piece.lexeme? := by
  induction pieces generalizing before with
  | nil => rfl
  | cons piece rest ih =>
    rw [pieceTokens, List.map_append, ih, List.filterMap_cons]
    cases piece.lexeme? <;> rfl

namespace Statement

/-- A key stands on the line on which it is written. -/
theorem nameLine?_pieceTokens (before : List Char) (key : Key) :
    nameLine? (pieceTokens before key.pieces) = some (1 + before.count '\n') := by
  have hmark : (before ++ ['!']).count '\n' = before.count '\n' := by simp
  cases hnegated : key.negated with
  | false =>
    simp [Key.pieces, Key.lexemes, hnegated, pieceTokens, Piece.lexeme?, nameLine?, Lexeme.name?]
  | true =>
    simp [Key.pieces, Key.lexemes, hnegated, pieceTokens, Piece.lexeme?, nameLine?, Lexeme.name?,
      Piece.chars, Lexeme.chars, Operator.char, hmark]

/-- A statement takes one line. -/
theorem HasNames.count_pieceChars {statement : Statement} (hnames : statement.HasNames) :
    (pieceChars statement.pieces).count '\n' = 1 := by
  have hvalid : ∀ piece ∈ statement.pieces, piece.IsValid :=
    (cutBefore_nil_iff.mp (hnames.cutBefore_pieces [])).1
  have hinline : (pieceChars statement.inlinePieces).count '\n' = 0 := by
    rw [List.count_eq_zero]
    intro hmem
    obtain ⟨piece, hpiece, hc⟩ := List.mem_flatMap.mp hmem
    have hpiece' := hvalid piece (List.mem_append_left _ hpiece)
    exact ((isInline_of_mem_inlinePieces piece hpiece).isAscii hpiece' _ hc).2 rfl
  have hsplit : pieceChars statement.pieces =
      pieceChars statement.inlinePieces ++ [';', '\n'] := List.flatMap_append ..
  rw [hsplit, List.count_append, hinline]
  rfl

/-- A statement is ASCII. -/
theorem HasNames.isAscii_pieceChars {statement : Statement} (hnames : statement.HasNames) :
    IsAscii (pieceChars statement.pieces) := by
  have hvalid : ∀ piece ∈ statement.pieces, piece.IsValid :=
    (cutBefore_nil_iff.mp (hnames.cutBefore_pieces [])).1
  intro c hc
  obtain ⟨piece, hpiece, hc⟩ := List.mem_flatMap.mp hc
  rcases List.mem_append.mp hpiece with hinline | hend
  · exact ((isInline_of_mem_inlinePieces piece hinline).isAscii (hvalid piece hpiece) c hc).1
  · simp only [List.mem_cons, List.not_mem_nil, or_false] at hend
    rcases hend with rfl | rfl
    · obtain rfl : c = ';' := List.mem_singleton.mp hc
      decide
    · obtain rfl : c = '\n' := List.mem_singleton.mp hc
      decide

/-- The tokens of a written statement spell it, on the line on which it is written. -/
theorem IsComplete.isSpelledBy_pieceTokens {statement : Statement} (hcomplete : statement.IsComplete)
    (before : List Char) :
    IsSpelledBy { statement with line := 1 + before.count '\n' }
      (pieceTokens before statement.pieces) where
  complete := hcomplete
  lexemes := by rw [map_lexeme_pieceTokens, filterMap_lexeme?_pieces]; rfl
  line := by
    rw [pieces, inlinePieces, List.append_assoc, List.append_assoc, pieceTokens_append]
    exact nameLine?_append (nameLine?_pieceTokens before statement.key) _

/-- Written statements are spelled by their tokens, one to a line. -/
theorem exists_parts_pieceTokens {statements : List Statement}
    (hcomplete : ∀ statement ∈ statements, statement.IsComplete)
    (hnames : ∀ statement ∈ statements, statement.HasNames) (before : List Char) :
    ∃ parts : List (List Token),
      parts.flatten = pieceTokens before (statements.flatMap pieces) ∧
      List.Forall₂ IsSpelledBy
        (statements.mapIdx fun i statement =>
          { statement with line := 1 + before.count '\n' + i }) parts := by
  induction statements generalizing before with
  | nil => exact ⟨[], rfl, .nil⟩
  | cons statement statements ih =>
    rw [List.forall_mem_cons] at hcomplete hnames
    obtain ⟨parts, hflatten, hspelled⟩ := ih hcomplete.2 hnames.2 (before ++ pieceChars statement.pieces)
    refine ⟨pieceTokens before statement.pieces :: parts, ?_, ?_⟩
    · rw [List.flatten_cons, hflatten, List.flatMap_cons, pieceTokens_append]
    · have hline (i : Nat) : 1 + (before ++ pieceChars statement.pieces).count '\n' + i =
          1 + before.count '\n' + (i + 1) := by
        rw [List.count_append, hnames.1.count_pieceChars]
        omega
      simp only [hline] at hspelled
      rw [List.mapIdx_cons]
      exact .cons (hcomplete.1.isSpelledBy_pieceTokens before) hspelled

/-- The characters of statements, one to a line. -/
def chars (statements : List Statement) : List Char := pieceChars (statements.flatMap pieces)

/-- Statements with valid names are cut into their pieces, whether they are complete or not. -/
theorem exists_tokens_chars {statements : List Statement}
    (hnames : ∀ statement ∈ statements, statement.HasNames) :
    ∃ tokens, Tokens.ofSource (String.ofList (chars statements)) = .ok tokens ∧
      tokens.body = pieceTokens [] (statements.flatMap pieces) := by
  have hcut : CutBefore [] (statements.flatMap pieces) := by
    induction statements with
    | nil => trivial
    | cons statement statements ih =>
      rw [List.forall_mem_cons] at hnames
      rw [List.flatMap_cons, cutBefore_append]
      exact ⟨hnames.1.cutBefore_pieces _, ih hnames.2⟩
  have hascii : IsAscii (chars statements) := by
    intro c hc
    obtain ⟨piece, hpiece, hc⟩ := List.mem_flatMap.mp hc
    obtain ⟨statement, hstatement, hpiece⟩ := List.mem_flatMap.mp hpiece
    exact (hnames statement hstatement).isAscii_pieceChars c (List.mem_flatMap.mpr ⟨piece, hpiece, hc⟩)
  obtain ⟨hvalid, hseparated⟩ := cutBefore_nil_iff.mp hcut
  let rendering : Rendering := ⟨_, hvalid, hseparated⟩
  refine ⟨rendering.tokens, Tokens.ofSource_eq_ok_iff.mpr ?_, rfl⟩
  rw [String.toList_ofList]
  exact ⟨hascii, rendering, rfl, rfl⟩

/-- Complete statements with valid names are read as they are written, one to a line. -/
theorem ofSource_chars {statements : List Statement}
    (hcomplete : ∀ statement ∈ statements, statement.IsComplete)
    (hnames : ∀ statement ∈ statements, statement.HasNames) :
    ∃ tokens, Tokens.ofSource (String.ofList (chars statements)) = .ok tokens ∧
      Script.ofTokens tokens.body =
        ⟨statements.mapIdx fun i statement => { statement with line := i + 1 }, none⟩ := by
  obtain ⟨tokens, htokens, hbody⟩ := exists_tokens_chars hnames
  obtain ⟨parts, hflatten, hspelled⟩ := exists_parts_pieceTokens hcomplete hnames []
  have hread := Script.ofTokens_append hspelled []
  rw [List.append_nil, Script.ofTokens_nil, List.append_nil, hflatten, ← hbody] at hread
  simp only [List.count_nil, Nat.add_comm 1] at hread
  exact ⟨tokens, htokens, hread⟩

end Statement

end MonotoneEquations
