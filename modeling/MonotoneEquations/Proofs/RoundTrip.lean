import Mathlib
import MonotoneEquations.Proofs.ReadableSum
import MonotoneEquations.Proofs.WrittenText
import MonotoneEquations.Source.Printer

/-!
# Printing and reading again

Printed equations are written statements: every definition is printed as the statement whose
alternatives are those of its right hand side. Definitions that were read off a text have valid names
and readable right hand sides, so reading the printed text gives them back, each on the line on which
it was printed, and printing them once more gives the same text.
-/

namespace MonotoneEquations

/-! ## Printed forms -/

/-- A key is written piece by piece. -/
theorem Key.toList_write (key : Key) : key.write.toList = pieceChars key.pieces := by
  cases hnegated : key.negated <;> cases hstable : key.stable <;>
    simp [write, pieces, lexemes, hnegated, hstable, pieceChars, Piece.chars, Lexeme.chars,
      Operator.char]

/-- Parts are printed with a spaced operator between them. -/
theorem toList_intercalate_eq {α : Type} {symbol : Operator} {separator : String}
    (hseparator : separator.toList = pieceChars (spaced symbol)) {print : α → String}
    {pieces : α → List Piece} (hprint : ∀ part, (print part).toList = pieceChars (pieces part))
    (parts : List α) :
    (separator.intercalate (parts.map print)).toList = pieceChars (piecesOf symbol pieces parts) := by
  rw [String.toList_intercalate, List.map_map, hseparator]
  induction parts with
  | nil => rfl
  | cons first others ih =>
    cases others with
    | nil => simp [piecesOf, hprint]
    | cons next others =>
      have hpieces : piecesOf symbol pieces (first :: next :: others) =
          pieces first ++ spaced symbol ++ piecesOf symbol pieces (next :: others) := by
        simp [piecesOf]
      rw [List.map_cons, List.map_cons, List.intercalate_cons_cons, ← List.map_cons, ih, hpieces]
      simp [pieceChars, hprint]

section Print

variable {D : Type} [Domain D] [DecidableEq D] [Spelling D]

omit [Domain D] [DecidableEq D] in
/-- An atom for a value is written like the value. -/
theorem write_constantAtom (value : D) : (constantAtom value).write = Spelling.write value := by
  simp [constantAtom, Key.write]

/-- A product is printed as its atoms. -/
theorem Product.toList_print (product : Product D) :
    product.print.toList = pieceChars (piecesOf .and Key.pieces product.atoms) := by
  have hatoms : product.print = " & ".intercalate (product.atoms.map Key.write) := by
    rw [print, atoms, List.map_append]
    split <;> simp [write_constantAtom]
  rw [hatoms]
  exact toList_intercalate_eq rfl Key.toList_write product.atoms

/-- A right hand side is printed as its alternatives. -/
theorem Rhs.toList_print (rhs : Rhs D) :
    rhs.print.toList = pieceChars (alternativesPieces rhs.alternatives) := by
  cases rhs with
  | final value =>
    rw [print, ← write_constantAtom value, Key.toList_write]
    simp [alternatives, alternativesPieces, piecesOf]
  | pending products =>
    have hseparator : " | ".toList = pieceChars (spaced .or) := rfl
    rw [print, toList_intercalate_eq hseparator Product.toList_print]
    cases hlist : products.toList <;>
      simp [alternatives, alternativesPieces, piecesOf, hlist, List.flatMap_map]

/-- The statement as which a definition is printed. -/
def Definition.statement (definition : Definition D) : Statement :=
  ⟨definition.line, definition.equation.key, definition.equation.rhs.alternatives⟩

/-- Definitions are printed as their statements. -/
theorem printEquations_eq (definitions : List (Definition D)) :
    printEquations definitions =
      String.ofList (Statement.chars (definitions.map Definition.statement)) := by
  have hprint (definition : Definition D) :
      definition.equation.print.toList = pieceChars definition.statement.pieces := by
    simp [Equation.print, Rhs.toList_print, Key.toList_write, Statement.pieces, Statement.inlinePieces,
      Definition.statement, pieceChars, spaced, Piece.chars, Lexeme.chars, Operator.char]
  rw [← String.toList_inj, String.toList_ofList, printEquations, String.toList_join, List.flatMap_map,
    Statement.chars, List.flatMap_map, pieceChars, List.flatMap_assoc]
  exact congrArg (fun f => definitions.flatMap f) (funext hprint)

end Print

/-! ## What is read off a text -/

/-- The names among the tokens of a text are valid. -/
theorem Tokens.isName_of_ofSource {source : String} {tokens : Tokens}
    (h : Tokens.ofSource source = .ok tokens) {text : String}
    (htext : .name text ∈ tokens.lexemes) : IsName text.toList := by
  obtain ⟨-, rendering, -, rfl⟩ := Tokens.ofSource_eq_ok_iff.mp h
  have hlexemes : rendering.tokens.lexemes = rendering.pieces.filterMap Piece.lexeme? :=
    map_lexeme_pieceTokens _ _
  rw [hlexemes] at htext
  obtain ⟨piece, hpiece, hname⟩ := List.mem_filterMap.mp htext
  have hvalid := rendering.valid piece hpiece
  cases piece with
  | lexeme word => cases hname; exact hvalid
  | blank | lineFeed | comment => cases hname

/-- A lexeme of one of some separated parts is a lexeme of all of them. -/
theorem mem_lexemesOf {α : Type} {symbol : Operator} {spell : α → List Lexeme} {parts : List α}
    {part : α} (hpart : part ∈ parts) {lexeme : Lexeme} (hlexeme : lexeme ∈ spell part) :
    lexeme ∈ lexemesOf symbol spell parts := by
  cases parts with
  | nil => cases hpart
  | cons first others =>
    rw [lexemesOf, List.mem_append]
    rcases List.mem_cons.mp hpart with rfl | hpart
    · exact .inl hlexeme
    · exact .inr (List.mem_flatMap.mpr ⟨part, hpart, List.mem_cons_of_mem _ hlexeme⟩)

/-- The name of a key is one of its lexemes. -/
theorem Key.name_mem_lexemes (key : Key) : .name key.base ∈ key.lexemes := by simp [lexemes]

/-- A statement has valid names if its lexemes do. -/
theorem Statement.hasNames_of_lexemes {statement : Statement}
    (h : ∀ text, .name text ∈ statement.lexemes → IsName text.toList) : statement.HasNames := by
  refine ⟨h _ ?_, fun atoms hatoms atom hatom => h _ ?_⟩
  · simp [lexemes, Key.name_mem_lexemes]
  · have hmem : .name atom.base ∈ alternativesLexemes statement.alternatives :=
      mem_lexemesOf hatoms (mem_lexemesOf hatom atom.name_mem_lexemes)
    simp [lexemes, hmem]

section Read

variable {D : Type} [Domain D] [DecidableEq D] [Spelling D] {limit : Nat}

/-- Whether a definition has valid names and a right hand side that can be read again. -/
structure Definition.IsReadable (limit : Nat) (definition : Definition D) : Prop where
  isName : IsName definition.equation.key.base.toList
  rhs : definition.equation.rhs.IsReadable limit

/-- Statements that are spelled with valid names are complete and have valid names. -/
theorem Statement.hasNames_of_isSpelledBy {statements : List Statement} {parts : List (List Token)}
    (hspelled : List.Forall₂ Statement.IsSpelledBy statements parts)
    (hnames : ∀ text, .name text ∈ parts.flatten.map Token.lexeme → IsName text.toList) :
    ∀ statement ∈ statements, statement.IsComplete ∧ statement.HasNames := by
  induction hspelled with
  | nil => exact fun _ hmem => nomatch hmem
  | cons hfirst _ ih =>
    simp only [List.flatten_cons, List.map_append, List.mem_append, hfirst.lexemes] at hnames
    refine List.forall_mem_cons.mpr ⟨⟨hfirst.complete, ?_⟩, ih fun text htext => hnames text (.inr htext)⟩
    exact hasNames_of_lexemes fun text htext => hnames text (.inl htext)

/-- The definitions of a text are readable. -/
theorem Reading.isReadable_of_ofSource [LegibleDomain D] {source : String}
    {definitions : List (Definition D)} {reports : List Report}
    (h : ofSource limit source = ⟨some definitions, reports⟩) :
    ∀ definition ∈ definitions, definition.IsReadable limit := by
  unfold ofSource at h
  split at h
  next tokens htokens =>
    by_cases htext : tokens.lexemes ∈ Grammar.text
    · obtain ⟨statements, parts, hspelled, hbody, hread⟩ := ofTokens_of_mem_text (D := D) limit htext
      rw [hread] at h
      cases h
      have hnames := Statement.hasNames_of_isSpelledBy hspelled fun text hmem =>
        Tokens.isName_of_ofSource htokens (by rwa [Tokens.lexemes, ← hbody])
      intro definition hdefinition
      obtain ⟨statement, hstatement, hdefine⟩ := List.mem_filterMap.mp hdefinition
      obtain ⟨hcomplete, hkey, hatoms⟩ := hnames statement hstatement
      unfold Statement.definition? at hdefine
      split at hdefine
      next rhs hrhs =>
        cases hdefine
        exact ⟨hkey, Rhs.isReadable_of_ofAlternatives hcomplete.1 hatoms hrhs⟩
      next => cases hdefine
    · obtain ⟨_, _, _, _, _, _, _, _, hread, _⟩ := ofTokens_of_not_mem_text (D := D) limit htext
      rw [hread] at h
      cases h
  next => cases h

/-- The atoms of a readable product have valid names. -/
theorem Product.IsReadable.isName_atoms {product : Product D} (h : product.IsReadable) :
    ∀ atom ∈ product.atoms, IsName atom.base.toList := by
  rw [atoms, List.forall_mem_append]
  refine ⟨?_, h.isName⟩
  split
  · exact List.forall_mem_singleton.mpr h.value.isName
  · exact List.forall_mem_nil _

/-- A product has atoms. -/
theorem Product.atoms_ne_nil (product : Product D) : product.atoms ≠ [] := by
  by_cases hempty : product.ids.isEmpty
  · rw [atoms, if_pos (.inr hempty)]
    exact List.cons_ne_nil _ _
  · have hids : product.ids.toList ≠ [] := fun hnil => hempty (List.isEmpty_iff.mpr hnil)
    exact List.append_ne_nil_of_right_ne_nil _ hids

/-- A readable right hand side has alternatives, and each of them has atoms. -/
theorem Rhs.IsReadable.ne_nil {rhs : Rhs D} (h : rhs.IsReadable limit) :
    rhs.alternatives ≠ [] ∧ ∀ atoms ∈ rhs.alternatives, atoms ≠ [] := by
  cases rhs with
  | final value => simp [alternatives]
  | pending products =>
    obtain ⟨first, rest, hlist, -⟩ := h.start
    simp [alternatives, hlist, Product.atoms_ne_nil]

/-- The alternatives of a readable right hand side have valid names. -/
theorem Rhs.IsReadable.isName_atoms {rhs : Rhs D} (h : rhs.IsReadable limit) :
    ∀ atoms ∈ rhs.alternatives, ∀ atom ∈ atoms, IsName atom.base.toList := by
  cases rhs with
  | final value => exact List.forall_mem_singleton.mpr (List.forall_mem_singleton.mpr h.isName)
  | pending products =>
    exact List.forall_mem_map.mpr fun product hproduct => (h.products product hproduct).isName_atoms

/-- A readable definition is printed as a complete statement with valid names. -/
theorem Definition.IsReadable.statement {definition : Definition D}
    (h : definition.IsReadable limit) :
    definition.statement.IsComplete ∧ definition.statement.HasNames :=
  ⟨h.rhs.ne_nil, h.isName, h.rhs.isName_atoms⟩

/-- The statements of readable definitions make these definitions, each on the line of its statement. -/
theorem Definition.filterMap_definition? [EquationalDomain D] {definitions : List (Definition D)}
    (hreadable : ∀ definition ∈ definitions, definition.IsReadable limit) (line : Nat → Nat) :
    ((definitions.map Definition.statement).mapIdx fun i statement =>
        { statement with line := line i }).filterMap (Statement.definition? D limit) =
      definitions.mapIdx fun i definition => { definition with line := line i } := by
  induction definitions generalizing line with
  | nil => rfl
  | cons definition definitions ih =>
    rw [List.forall_mem_cons] at hreadable
    have hread : Rhs.ofAlternatives limit definition.statement.alternatives =
        .ok definition.equation.rhs := Rhs.ofAlternatives_alternatives hreadable.1.rhs
    have hfirst : Statement.definition? D limit { definition.statement with line := line 0 } =
        some { definition with line := line 0 } := by
      simp only [Statement.definition?, hread]
      rfl
    rw [List.map_cons, List.mapIdx_cons, List.mapIdx_cons, List.filterMap_cons, hfirst]
    exact congrArg _ (ih hreadable.2 fun i => line (i + 1))

/-- The statements of readable definitions are not dropped. -/
theorem Definition.filterMap_drop? [EquationalDomain D] {definitions : List (Definition D)}
    (hreadable : ∀ definition ∈ definitions, definition.IsReadable limit) (line : Nat → Nat) :
    ((definitions.map Definition.statement).mapIdx fun i statement =>
        { statement with line := line i }).filterMap (Statement.drop? D limit) = [] := by
  rw [List.filterMap_eq_nil_iff]
  intro statement hstatement
  obtain ⟨i, hi, rfl⟩ := List.mem_mapIdx.mp hstatement
  rw [List.length_map] at hi
  have hread := Rhs.ofAlternatives_alternatives (hreadable _ (List.getElem_mem hi)).rhs
  rw [List.getElem_map]
  simp only [Statement.drop?, Definition.statement, hread]

namespace Reading

/-- Definitions that were read off a text are read off the text that they are printed as: nothing is
reported, and each definition keeps its key and its right hand side and stands on the line on which
it is printed. -/
theorem ofSource_printEquations [EquationalDomain D] [LegibleDomain D] {source : String}
    {definitions : List (Definition D)} {reports : List Report}
    (h : ofSource limit source = ⟨some definitions, reports⟩) :
    ofSource limit (printEquations definitions) =
      ⟨some (definitions.mapIdx fun i definition => { definition with line := i + 1 }), []⟩ := by
  have hreadable := isReadable_of_ofSource h
  obtain ⟨tokens, htokens, hscript⟩ := Statement.ofSource_chars
    (List.forall_mem_map.mpr fun definition hmem => (hreadable definition hmem).statement.1)
    (List.forall_mem_map.mpr fun definition hmem => (hreadable definition hmem).statement.2)
  rw [printEquations_eq, ofSource, htokens]
  simp only [ofTokens, hscript, Statement.defineAll_eq]
  rw [Definition.filterMap_definition? hreadable fun i => i + 1,
    Definition.filterMap_drop? hreadable fun i => i + 1]

end Reading

end Read

/-! ## The domains -/

/-- Whether the definitions over `D` of a text, if it has any, are read again off their printed form,
without a report and on the lines on which they are printed, and are printed in the same way again. -/
def ReadsBack (D : Type) [Domain D] [DecidableEq D] [Spelling D] (limit : Nat) (source : String) :
    Prop :=
  ∀ (definitions : List (Definition D)) (reports : List Report),
    Reading.ofSource limit source = ⟨some definitions, reports⟩ →
    ∃ again : List (Definition D),
      Reading.ofSource limit (printEquations definitions) = ⟨some again, []⟩ ∧
      again = definitions.mapIdx (fun i definition => { definition with line := i + 1 }) ∧
      printEquations again = printEquations definitions

/-- In a domain whose values stay legible, every text is read back. -/
theorem readsBack_of_legible {D : Type} [Domain D] [DecidableEq D] [Spelling D] [EquationalDomain D]
    [LegibleDomain D] (limit : Nat) (source : String) : ReadsBack D limit source := by
  intro definitions reports h
  refine ⟨_, Reading.ofSource_printEquations h, rfl, ?_⟩
  exact congrArg String.join (List.ext_getElem (by simp) (by simp))

/-- Printing and reading again changes nothing but the lines, in each of the domains. -/
theorem readsBack_domains (limit : Nat) (source : String) :
    ReadsBack Bool limit source ∧ ReadsBack Ternary limit source ∧
      ReadsBack (Flat Contract) limit source ∧ ReadsBack (Flat Bool) limit source ∧
      ReadsBack (Flat String) limit source :=
  ⟨readsBack_of_legible limit source, readsBack_of_legible limit source,
    readsBack_of_legible limit source, readsBack_of_legible limit source,
    readsBack_of_legible limit source⟩

/-- A text in which a constant leads, a top is written, a name ends in a slash, and a statement is
dropped. -/
def mixedText : String :=
  "Pure = NotNull | !Top & a/ & Top; // the next one is too large\nq = a & b | c & d;\nb = Top;"

/-- The statements of the mixed text. -/
def mixedStatements : List Statement :=
  [⟨1, ⟨"Pure", true, false⟩,
      [[⟨"NotNull", true, false⟩],
        [⟨"Top", true, true⟩, ⟨"a/", true, false⟩, ⟨"Top", true, false⟩]]⟩,
    ⟨2, ⟨"q", true, false⟩,
      [[⟨"a", true, false⟩, ⟨"b", true, false⟩], [⟨"c", true, false⟩, ⟨"d", true, false⟩]]⟩,
    ⟨3, ⟨"b", true, false⟩, [[⟨"Top", true, false⟩]]⟩]

/-- The definitions over contracts that the mixed text gives. -/
def mixedDefinitions : List (Definition (Flat Contract)) :=
  [⟨1, ⟨"Pure", true, false⟩, .ofProducts
      [.ofKeys .top [⟨"Top", true, true⟩, ⟨"a/", true, false⟩], .constant (.elem .notNull)]⟩,
    ⟨3, ⟨"b", true, false⟩, .final .top⟩]

/-- The mixed text gives two definitions over contracts and the report of the other statement. -/
theorem ofSource_mixedText : (Reading.ofSource 2 mixedText : Reading (Flat Contract)) =
    ⟨some mixedDefinitions,
      [⟨.error, 2, "at 'q'", "Equation dropped, equation size 4 exceeds the limit of 2."⟩]⟩ := by
  have htokens : Tokens.ofSource mixedText = .ok ⟨(mixedStatements.map fun statement =>
      statement.lexemes.map fun lexeme => ⟨lexeme, statement.line⟩).flatten, 3⟩ := by cbv
  have hspelled : List.Forall₂ Statement.IsSpelledBy mixedStatements (mixedStatements.map fun statement =>
      statement.lexemes.map fun lexeme => ⟨lexeme, statement.line⟩) :=
    .cons ⟨by simp [Statement.IsComplete], rfl, rfl⟩ (.cons ⟨by simp [Statement.IsComplete], rfl, rfl⟩
      (.cons ⟨by simp [Statement.IsComplete], rfl, rfl⟩ .nil))
  have hscript := Script.ofTokens_append hspelled []
  rw [List.append_nil, Script.ofTokens_nil, List.append_nil] at hscript
  rw [Reading.ofSource, htokens]
  simp only [Reading.ofTokens, hscript]
  rfl

/-- The printed form of the mixed text has the leading constant behind the keys and no second top. -/
theorem readsBack_mixedText :
    printEquations mixedDefinitions = "Pure = !Top & a/ | NotNull;\nb = Top;\n" ∧
      Reading.ofSource 2 "Pure = !Top & a/ | NotNull;\nb = Top;\n" =
        ⟨some (mixedDefinitions.mapIdx fun i definition => { definition with line := i + 1 }), []⟩ := by
  have hprint : printEquations mixedDefinitions = "Pure = !Top & a/ | NotNull;\nb = Top;\n" := by
    decide
  obtain ⟨again, hread, rfl, -⟩ := (readsBack_domains 2 mixedText).2.2.1 _ _ ofSource_mixedText
  rw [hprint] at hread
  exact ⟨hprint, hread⟩

end MonotoneEquations
