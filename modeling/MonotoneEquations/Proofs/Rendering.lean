import Mathlib
import MonotoneEquations.Proofs.ScannerBounds

/-!
# Renderings of tokens

A text of equations is rendered piece by piece: names and operators with blanks, line feeds and
comments in any number before, between and after them. Three things are not free. A comment runs to
the end of its line, two names in a row need something between them, and a name that ends in a slash
cannot stand right before a comment of two slashes.

Reading is the inverse of rendering. The tokens of a text of ASCII characters are the names and
operators of its rendering, each on its line; a text without tokens has no rendering, and the
character that is reported is the first one at which no piece starts. A scanner finds the same, with
each name at its place in the table that it builds.
-/

namespace MonotoneEquations

/-- The characters of a list of pieces. -/
def pieceChars (pieces : List Piece) : List Char := pieces.flatMap Piece.chars

/-- The tokens of the pieces that follow the given characters, each on its line. -/
def pieceTokens (before : List Char) : List Piece → List Token
  | [] => []
  | piece :: rest =>
    (piece.lexeme?.map fun word => ⟨word, 1 + before.count '\n'⟩).toList ++
      pieceTokens (before ++ piece.chars) rest

/-- A text of equations, piece by piece. -/
structure Rendering where
  pieces : List Piece
  valid : ∀ piece ∈ pieces, piece.IsValid
  separated : pieces.IsChain Piece.MayPrecede

namespace Rendering

/-- The rendered text. -/
def chars (rendering : Rendering) : List Char := pieceChars rendering.pieces

/-- The rendered lexemes, each on its line, and the line on which the text ends. -/
def tokens (rendering : Rendering) : Tokens :=
  ⟨pieceTokens [] rendering.pieces, 1 + rendering.chars.count '\n'⟩

end Rendering

/-! ## Cutting a text into pieces -/

/-- Whether pieces are valid and each of them ends where the next one, or the given rest, starts. -/
def CutBefore (after : List Char) : List Piece → Prop
  | [] => True
  | piece :: rest =>
    piece.IsValid ∧ piece.EndsBefore (pieceChars rest ++ after) ∧ CutBefore after rest

/-- A whole text is cut into pieces that may stand before each other. -/
theorem cutBefore_nil_iff {pieces : List Piece} :
    CutBefore [] pieces ↔ (∀ piece ∈ pieces, piece.IsValid) ∧ pieces.IsChain Piece.MayPrecede := by
  induction pieces with
  | nil => simp [CutBefore]
  | cons piece rest ih =>
    rw [CutBefore, ih, List.forall_mem_cons, List.isChain_cons]
    cases rest with
    | nil => simp [pieceChars, Piece.endsBefore_nil]
    | cons next rest =>
      have hends (hvalid : next.IsValid) : piece.EndsBefore (pieceChars (next :: rest) ++ []) ↔
          piece.MayPrecede next := by
        rw [List.append_nil, Piece.mayPrecede_iff hvalid (pieceChars rest)]
        rfl
      constructor
      · intro h
        obtain ⟨hvalid, hpiece, hrest, hchain⟩ := h
        refine ⟨⟨hvalid, hrest⟩, ?_, hchain⟩
        simpa using (hends (hrest next List.mem_cons_self)).mp hpiece
      · intro h
        obtain ⟨⟨hvalid, hrest⟩, hpiece, hchain⟩ := h
        refine ⟨hvalid, (hends (hrest next List.mem_cons_self)).mpr ?_, hrest, hchain⟩
        exact hpiece next rfl

namespace Tokens

/-- The pieces of a text give its tokens, up to where they end. -/
theorem scan_cut {pieces : List Piece} {after : List Char} (hcut : CutBefore after pieces)
    (before : List Char) :
    scan (1 + before.count '\n') (pieceChars pieces ++ after) =
      (scan (1 + (before ++ pieceChars pieces).count '\n') after).map fun tokens =>
        { tokens with body := pieceTokens before pieces ++ tokens.body } := by
  induction pieces generalizing before with
  | nil =>
    rw [pieceChars, List.flatMap_nil, List.nil_append, List.append_nil]
    cases scan (1 + before.count '\n') after <;> rfl
  | cons piece rest ih =>
    obtain ⟨hvalid, hends, hrest⟩ := hcut
    have hnext := ih hrest (before ++ piece.chars)
    rw [List.count_append, ← Nat.add_assoc] at hnext
    rw [show pieceChars (piece :: rest) = piece.chars ++ pieceChars rest from List.flatMap_cons ..,
      List.append_assoc, Piece.scan_append hvalid hends, hnext, List.append_assoc]
    cases scan (1 + (before ++ (piece.chars ++ pieceChars rest)).count '\n') after with
    | error => rfl
    | ok tokens =>
      simp only [Except.map, Piece.tokens, pieceTokens, List.append_assoc]

/-- A text is cut into pieces up to its end, or up to where no piece starts. -/
theorem exists_cut (text : List Char) :
    ∃ pieces after, text = pieceChars pieces ++ after ∧ CutBefore after pieces ∧
      ¬ Piece.Starts after := by
  induction hlength : text.length using Nat.strongRecOn generalizing text with
  | ind n ih =>
    by_cases hstarts : Piece.Starts text
    · obtain ⟨piece, after, hvalid, hends, hsplit⟩ := Piece.exists_piece hstarts
      have hshorter : after.length < n := by
        have hpos := List.length_pos_of_ne_nil (Piece.chars_ne_nil hvalid)
        have htotal := congrArg List.length hsplit
        rw [List.length_append] at htotal
        omega
      obtain ⟨pieces, last, rfl, hcut, hlast⟩ := ih _ hshorter after rfl
      refine ⟨piece :: pieces, last, ?_, ⟨hvalid, hends, hcut⟩, hlast⟩
      rw [hsplit, ← List.append_assoc]
      rfl
    · exact ⟨[], text, rfl, trivial, hstarts⟩

/-- The text that a rendering shows has its tokens. -/
theorem scan_rendering (rendering : Rendering) : scan 1 rendering.chars = .ok rendering.tokens := by
  have hcut := cutBefore_nil_iff.mpr ⟨rendering.valid, rendering.separated⟩
  have hscan := scan_cut hcut []
  rw [List.append_nil, List.count_nil, Nat.add_zero, scan] at hscan
  rw [Rendering.chars, hscan]
  simp only [Except.map, List.append_nil, List.nil_append, Rendering.tokens, Rendering.chars]

/-- Reading stops at a character where no piece starts. -/
theorem scan_of_cut {pieces : List Piece} {c : Char} {after : List Char}
    (hcut : CutBefore (c :: after) pieces) (hstarts : ¬ Piece.Starts (c :: after)) :
    scan 1 (pieceChars pieces ++ c :: after) =
      .error (.unexpected (1 + (pieceChars pieces).count '\n') c) := by
  have hscan := scan_cut hcut []
  rw [List.count_nil, Nat.add_zero, List.nil_append, Piece.scan_of_not_starts hstarts] at hscan
  exact hscan

end Tokens

/-! ## Reading and rendering -/

/-- The names of a rendering, as often as they occur. -/
def Rendering.names (rendering : Rendering) : List String :=
  rendering.pieces.filterMap fun piece => piece.lexeme?.bind Lexeme.name?

/-- Whether all characters are ASCII. -/
def IsAscii (text : List Char) : Prop := ∀ c ∈ text, c.toNat < 128

namespace Tokens

/-- The tokens of pieces name what the pieces name. -/
theorem filterMap_name?_pieceTokens (pieces : List Piece) (before : List Char) :
    ((pieceTokens before pieces).filterMap fun token => token.lexeme.name?) =
      pieces.filterMap fun piece => piece.lexeme?.bind Lexeme.name? := by
  induction pieces generalizing before with
  | nil => rfl
  | cons piece rest ih =>
    rw [pieceTokens, List.filterMap_append, ih, List.filterMap_cons]
    cases piece with
    | lexeme word => cases word <;> rfl
    | blank | lineFeed | comment => rfl

/-- The table of names lists the names of a rendering in the order in which they first occur. -/
theorem toList_names (rendering : Rendering) :
    rendering.tokens.names.toList = rendering.names.eraseDups := by
  have hnames : rendering.tokens.names =
      .ofList (rendering.tokens.body.filterMap fun token => token.lexeme.name?) := rfl
  rw [hnames, ArrivalSet.toList_ofList]
  exact congrArg List.eraseDups (filterMap_name?_pieceTokens _ _)

/-- The index of a name is the place at which the table lists it. -/
theorem indexIn?_eq_some_iff {names : ArrivalSet String} {name : String} {index : Nat} :
    indexIn? names name = some index ↔ names.toList[index]? = some name := by
  rw [indexIn?, List.idxOf?_eq_some_iff, List.getElem?_eq_some_iff]
  refine exists_congr fun hindex => and_iff_left_of_imp fun heq earlier hearlier hsame => ?_
  exact Nat.ne_of_lt hearlier ((names.nodup.getElem_inj_iff).mp (hsame.trans heq.symm))

/-- A text has a rendering, or it is cut into pieces up to where no piece starts. -/
theorem exists_rendering_or_cut (text : List Char) :
    (∃ rendering : Rendering, rendering.chars = text) ∨
      ∃ pieces c after, text = pieceChars pieces ++ c :: after ∧ CutBefore (c :: after) pieces ∧
        ¬ Piece.Starts (c :: after) := by
  obtain ⟨pieces, after, hsplit, hcut, hstarts⟩ := exists_cut text
  cases after with
  | nil =>
    obtain ⟨hvalid, hseparated⟩ := cutBefore_nil_iff.mp hcut
    exact .inl ⟨⟨pieces, hvalid, hseparated⟩, by rw [hsplit, List.append_nil]; rfl⟩
  | cons c after => exact .inr ⟨pieces, c, after, hsplit, hcut, hstarts⟩

/-- A text of ASCII characters is read character by character. -/
theorem ofSource_of_isAscii {source : String} (h : IsAscii source.toList) :
    ofSource source = scan 1 source.toList :=
  if_pos (by simpa [IsAscii] using h)

/-- A text with other characters has no tokens. -/
theorem ofSource_of_not_isAscii {source : String} (h : ¬ IsAscii source.toList) :
    ofSource source = .error .notAscii :=
  if_neg (by simpa [IsAscii] using h)

/-- A text of ASCII characters has the tokens of its rendering, and no others. -/
theorem ofSource_eq_ok_iff {source : String} {tokens : Tokens} :
    ofSource source = .ok tokens ↔ IsAscii source.toList ∧
      ∃ rendering : Rendering, rendering.chars = source.toList ∧ rendering.tokens = tokens := by
  by_cases hascii : IsAscii source.toList
  · rw [ofSource_of_isAscii hascii, and_iff_right hascii]
    constructor
    · intro hscan
      rcases exists_rendering_or_cut source.toList with
        ⟨rendering, hchars⟩ | ⟨pieces, c, after, hsplit, hcut, hstarts⟩
      · rw [← hchars, scan_rendering] at hscan
        exact ⟨rendering, hchars, Except.ok.inj hscan⟩
      · rw [hsplit, scan_of_cut hcut hstarts] at hscan
        cases hscan
    · rintro ⟨rendering, hchars, rfl⟩
      rw [← hchars, scan_rendering]
  · rw [ofSource_of_not_isAscii hascii]
    exact iff_of_false (fun heq => nomatch heq) fun h => hascii h.1

/-- A text of ASCII characters has the tokens of its rendering, and no others. Scanning it gives a mark
for each of them and one for the end of the text, and reports nothing. Its table lists the distinct names
in the order in which they first occur, so that a name and its index determine each other. A text of ASCII
characters without a rendering has no tokens: it is cut into pieces up to a character at which no piece
starts, and this character is reported on its line. A text with other characters has no tokens either,
and is reported on its first line. In both cases scanning gives nothing but this report. -/
theorem ofSource_exact (source : String) :
    ∃ scanned : Scanned,
      (∀ rounds, source.toList.length < rounds → Scanner.scan rounds source = pure scanned) ∧
      (∀ tokens, ofSource source = .ok tokens ↔ IsAscii source.toList ∧
        ∃ rendering : Rendering, rendering.chars = source.toList ∧ rendering.tokens = tokens) ∧
      (IsAscii source.toList → ∀ rendering : Rendering, rendering.chars = source.toList →
        scanned.reports = [] ∧ scanned.names = rendering.tokens.names ∧
        scanned.names.toList = rendering.names.eraseDups ∧
        (∀ name index, indexIn? scanned.names name = some index ↔
          scanned.names.toList[index]? = some name) ∧
        ∃ marks, List.Forall₂ (Mark.StandsFor scanned.names) marks rendering.tokens.body ∧
          scanned.marks = marks ++ [⟨.endOfText, 1 + source.toList.count '\n'⟩]) ∧
      (IsAscii source.toList → (∀ rendering : Rendering, rendering.chars ≠ source.toList) →
        ∃ pieces c after report, source.toList = pieceChars pieces ++ c :: after ∧
          CutBefore (c :: after) pieces ∧
          (∀ piece : Piece, piece.IsValid → ¬ piece.chars <+: c :: after) ∧
          report = ⟨.error, 1 + (pieceChars pieces).count '\n', "",
            "Unexpected token: '" ++ c.toString ++ "'."⟩ ∧
          (∃ error, ofSource source = .error error ∧ error.report = report) ∧
          scanned = ⟨[], .empty, [report]⟩) ∧
      (¬ IsAscii source.toList → ∃ report,
          report = ⟨.error, 1, "", "Only ASCII input is supported."⟩ ∧
          ofSource source = .error .notAscii ∧ TokenError.notAscii.report = report ∧
          scanned = ⟨[], .empty, [report]⟩) := by
  refine ⟨Scanned.ofTokens (ofSource source), fun _ => Scanner.scan_eq, fun _ => ofSource_eq_ok_iff,
    fun hascii rendering hchars => ?_, fun hascii hnone => ?_, fun hascii => ?_⟩
  · rw [ofSource_eq_ok_iff.mpr ⟨hascii, rendering, hchars, rfl⟩, ← hchars]
    refine ⟨rfl, rfl, toList_names rendering, fun _ _ => indexIn?_eq_some_iff, _, ?_, rfl⟩
    rw [List.forall₂_map_left_iff, List.forall₂_same]
    exact fun token htoken => Token.encode_standsFor (hasPlace htoken)
  · obtain ⟨pieces, c, after, hsplit, hcut, hstarts⟩ :=
      (exists_rendering_or_cut source.toList).resolve_left fun h => hnone h.choose h.choose_spec
    have herror : ofSource source = .error (.unexpected (1 + (pieceChars pieces).count '\n') c) := by
      rw [ofSource_of_isAscii hascii, hsplit, scan_of_cut hcut hstarts]
    refine ⟨pieces, c, after, _, hsplit, hcut, ?_, rfl, ⟨_, herror, rfl⟩, by rw [herror]; rfl⟩
    rintro piece hvalid ⟨rest, hpiece⟩
    exact hstarts (hpiece ▸ Piece.starts_append hvalid rest)
  · have herror := ofSource_of_not_isAscii hascii
    exact ⟨_, rfl, herror, rfl, by rw [herror]; rfl⟩

/-- A comment whose text is not ASCII. -/
def accentedComment : Rendering where
  pieces := [.comment .hash [' ', 'é']]
  valid := by simp [Piece.IsValid]
  separated := .singleton _

/-- A rendering with characters outside ASCII is not read, not even if they stand in a comment. -/
theorem ofSource_accentedComment :
    accentedComment.chars = "# é".toList ∧ accentedComment.tokens = ⟨[], 1⟩ ∧
      ofSource "# é" = .error .notAscii ∧
      ¬ ∀ rendering : Rendering, ofSource (String.ofList rendering.chars) = .ok rendering.tokens := by
  have hchars : accentedComment.chars = "# é".toList := by decide
  have herror : ofSource "# é" = .error .notAscii := by decide
  refine ⟨hchars, by decide, herror, fun hall => ?_⟩
  have hread := hall accentedComment
  rw [hchars, String.ofList_toList, herror] at hread
  cases hread

end Tokens

end MonotoneEquations
