import Mathlib
import MonotoneEquations.Proofs.Alternatives
import MonotoneEquations.Proofs.PrintedSolution

/-!
# What printed equations mean

Definitions need not come from a text. Their sums may start with a constant, hold several constants or a
constant top, or say bottom. Such a sum is not read back as it was: constants are folded and top absorbs
what follows. But the printed alternatives say what the products say, so the sum that is read has the
same value whatever its references read.

Only an empty set of products has no written form. A statement without alternatives is no statement of
the grammar, although an empty sum means bottom: definitions are read off their printed form exactly if
none of them has an empty set of products.
-/

namespace MonotoneEquations

variable {D : Type} [Domain D] [DecidableEq D] [Spelling D]

/-! ## Definitions that can be printed -/

/-- Whether the names of a definition are valid and none of its references is taken for a value. -/
structure Definition.IsPrintable (definition : Definition D) : Prop where
  isName : IsName definition.equation.key.base.toList
  isKey : ∀ product ∈ definition.equation.rhs.sum, ∀ key ∈ product.ids.toList,
    IsName key.base.toList ∧ (key.constant? : Option D) = none

/-- Whether a definition has the key of another one and always the same value. -/
structure Definition.MeansSame (again original : Definition D) : Prop where
  key_eq : again.equation.key = original.equation.key
  eval_eq : ∀ reads : Key → D, again.equation.rhs.eval reads = original.equation.rhs.eval reads

omit [Domain D] [DecidableEq D] in
/-- If all values are legible, the products of a printable definition are readable. -/
theorem Definition.IsPrintable.isReadable (hlegible : ∀ value : D, IsLegible value)
    {definition : Definition D} (h : definition.IsPrintable) :
    ∀ product ∈ definition.equation.rhs.sum, product.IsReadable := fun product hproduct =>
  ⟨hlegible product.value, fun key hkey => (h.isKey product hproduct key hkey).1,
    fun key hkey => (h.isKey product hproduct key hkey).2⟩

/-! ## Reading alternatives again -/

/-- The alternatives of a right hand side are the atoms of its products. -/
theorem Rhs.alternatives_eq (rhs : Rhs D) : rhs.alternatives = rhs.sum.map Product.atoms := by
  cases rhs with
  | final value =>
    simp [alternatives, sum, Product.atoms, Product.constant, Ascending.isEmpty, Ascending.empty]
  | pending products => rfl

variable [EquationalDomain D]

/-- The atoms of a readable product say what the product says. -/
theorem Product.IsReadable.ofAlternative_atoms {product : Product D} (h : product.IsReadable) :
    Product.ofAlternative product.atoms = product := by
  rw [ofAlternative, h.meetAll_atoms, h.filter_atoms, ofKeys_toList]

/-- The alternatives of readable products are read, within the limit, and have the value of the
products. -/
theorem Rhs.exists_read {limit : Nat} {rhs : Rhs D} (hreadable : ∀ product ∈ rhs.sum, product.IsReadable)
    (hsize : rhs.size ≤ limit) :
    ∃ again, Rhs.ofAlternatives limit rhs.alternatives = .ok again ∧
      ∀ reads, again.eval reads = rhs.eval reads := by
  have hsum : rhs.alternatives.map Product.ofAlternative = rhs.sum := by
    rw [alternatives_eq, List.map_map]
    exact (List.map_congr_left fun product hproduct =>
      (hreadable product hproduct).ofAlternative_atoms).trans (List.map_id _)
  have hfits : Product.occurrences
      (Product.ofAlternatives rhs.alternatives : ArrivalSet (Product D)).toList ≤ limit := by
    rw [Product.ofAlternatives, hsum]
    rw [← occurrences_sum] at hsize
    exact (Product.occurrences_le (ArrivalSet.nodup _) fun product hproduct =>
      .inr (ArrivalSet.mem_ofList.mp hproduct)).trans hsize
  obtain ⟨again, hread, -⟩ := exists_ofAlternatives hfits
  refine ⟨again, hread, fun reads => ?_⟩
  have hsame := saysSame_of_ofAlternatives hread
  rw [hsum] at hsame
  rw [eval_eq_joinAll_sum, eval_eq_joinAll_sum, hsame.joinAll_map_eval_eq]

/-- Printable definitions within the limit are made again by the statements as which they are printed,
with the same keys and values, and none of these statements is dropped. -/
theorem Definition.exists_again {limit : Nat} (hlegible : ∀ value : D, IsLegible value)
    {definitions : List (Definition D)}
    (hprintable : ∀ definition ∈ definitions, definition.IsPrintable)
    (hsize : ∀ definition ∈ definitions, definition.equation.rhs.size ≤ limit) (line : Nat → Nat) :
    let statements := (definitions.map Definition.statement).mapIdx fun i statement =>
      { statement with line := line i }
    List.Forall₂ MeansSame (statements.filterMap (Statement.definition? D limit)) definitions ∧
      statements.filterMap (Statement.drop? D limit) = [] := by
  intro statements
  induction definitions generalizing line with
  | nil => exact ⟨.nil, rfl⟩
  | cons definition definitions ih =>
    rw [List.forall_mem_cons] at hprintable hsize
    obtain ⟨rhs, hread, heval⟩ := Rhs.exists_read (hprintable.1.isReadable hlegible) hsize.1
    have hdefinition : Statement.definition? D limit { definition.statement with line := line 0 } =
        some ⟨line 0, definition.equation.key, rhs⟩ := by
      simp only [Statement.definition?, Definition.statement, hread]
    have hdrop : Statement.drop? D limit { definition.statement with line := line 0 } = none := by
      simp only [Statement.drop?, Definition.statement, hread]
    obtain ⟨hsame, hdrops⟩ := ih hprintable.2 hsize.2 fun i => line (i + 1)
    have hsplit : statements = { definition.statement with line := line 0 } ::
        (definitions.map Definition.statement).mapIdx fun i statement =>
          { statement with line := line (i + 1) } := List.mapIdx_cons
    rw [hsplit, List.filterMap_cons, List.filterMap_cons, hdefinition, hdrop]
    exact ⟨.cons ⟨rfl, heval⟩ hsame, hdrops⟩

/-! ## Statements without alternatives -/

omit [Domain D] [DecidableEq D] [Spelling D] [EquationalDomain D] in
/-- A statement without alternatives is not read: a key is expected in the place of its end. -/
theorem Statement.reader_of_nil {statement : Statement} (hnil : statement.alternatives = [])
    {tokens : List Token} (htokens : tokens.map Token.lexeme = statement.lexemes) (rest : List Token) :
    reader (tokens ++ rest) = .error ⟨tokens.getLast?, .key⟩ := by
  have hlexemes : tokens.map Token.lexeme =
      statement.key.lexemes ++ [.operator .define, .operator .semicolon] := by
    rw [htokens, lexemes, hnil]
    simp [alternativesLexemes, lexemesOf]
  obtain ⟨front, back, rfl, hkey, hback⟩ := List.map_eq_append_iff.mp hlexemes
  obtain ⟨define, last, rfl, hdefine, hlast⟩ := List.map_eq_cons_iff.mp hback
  obtain ⟨semicolon, rfl, hsemicolon⟩ := List.map_eq_singleton_iff.mp hlast
  obtain ⟨line, hspelled⟩ := exists_isSpelledAt hkey
  have hplaced := placedKey_accepts (a := (line, statement.key)) hspelled
    (clearOf_cons hdefine (by decide) (semicolon :: rest))
  have hatom : atom (semicolon :: rest) = .error ⟨some semicolon, .key⟩ := by
    obtain ⟨lexeme, line⟩ := semicolon
    obtain rfl : lexeme = .operator .semicolon := hsemicolon
    rfl
  have halternative : alternative (semicolon :: rest) = .error ⟨some semicolon, .key⟩ :=
    (separated_eq atom_advances _).trans (by rw [hatom])
  have halternatives : readAlternatives (semicolon :: rest) = .error ⟨some semicolon, .key⟩ :=
    (separated_eq alternative_advances _).trans (by rw [halternative])
  have hsplit : front ++ [define, semicolon] ++ rest = front ++ define :: semicolon :: rest := by simp
  have hlast : (front ++ [define, semicolon]).getLast? = some semicolon := by simp
  rw [hsplit, hlast, reader_eq]
  simp only [Reader.andThen, hplaced, expect_cons hdefine, halternatives]

omit [Domain D] [DecidableEq D] [Spelling D] [EquationalDomain D] in
/-- A text of statements is not read to its end if one of them has no alternatives. -/
theorem Statement.exists_failure {statements : List Statement}
    (hatoms : ∀ statement ∈ statements, ∀ atoms ∈ statement.alternatives, atoms ≠ [])
    (hnil : ∃ statement ∈ statements, statement.alternatives = []) (before : List Char) :
    ∃ error, (Script.ofTokens (pieceTokens before (statements.flatMap pieces))).failure = some error := by
  induction statements generalizing before with
  | nil =>
    obtain ⟨_, hmem, -⟩ := hnil
    cases hmem
  | cons statement statements ih =>
    rw [List.forall_mem_cons] at hatoms
    rw [List.flatMap_cons, pieceTokens_append]
    by_cases hempty : statement.alternatives = []
    · have hlexemes : (pieceTokens before statement.pieces).map Token.lexeme = statement.lexemes := by
        rw [map_lexeme_pieceTokens, filterMap_lexeme?_pieces]
      have hne : pieceTokens before statement.pieces ≠ [] := by
        intro htokens
        rw [htokens] at hlexemes
        simp [lexemes] at hlexemes
      rw [Script.ofTokens_of_error (List.append_ne_nil_of_left_ne_nil hne _)
        (reader_of_nil hempty hlexemes _)]
      exact ⟨_, rfl⟩
    · have hcomplete : statement.IsComplete := ⟨hempty, hatoms.1⟩
      have hread := Script.ofTokens_append (.cons (hcomplete.isSpelledBy_pieceTokens before) .nil)
        (pieceTokens (before ++ pieceChars statement.pieces) (statements.flatMap pieces))
      rw [List.flatten_singleton] at hread
      rw [hread]
      have hrest : ∃ other ∈ statements, other.alternatives = [] := by
        simpa [hempty] using hnil
      exact ih hatoms.2 hrest _

/-! ## Reading printed definitions -/

omit [EquationalDomain D] in
/-- The alternatives of a printed definition have atoms, and there are some unless the definition has an
empty set of products. -/
theorem Definition.alternatives_statement (definition : Definition D) :
    (∀ atoms ∈ definition.statement.alternatives, atoms ≠ []) ∧
      (definition.statement.alternatives = [] ↔ definition.equation.rhs = .pending .empty) := by
  constructor
  · rw [statement, Rhs.alternatives_eq]
    exact List.forall_mem_map.mpr fun product _ => product.atoms_ne_nil
  · rw [statement, Rhs.alternatives_eq, List.map_eq_nil_iff]
    cases definition.equation.rhs with
    | final value => simp [Rhs.sum]
    | pending products =>
      refine ⟨fun hnil => congrArg Rhs.pending (ArrivalSet.ext hnil), fun hempty => ?_⟩
      cases hempty
      rfl

omit [EquationalDomain D] in
/-- If all values are legible, printable definitions are printed with valid names. -/
theorem Definition.IsPrintable.hasNames (hlegible : ∀ value : D, IsLegible value)
    {definition : Definition D} (h : definition.IsPrintable) : definition.statement.HasNames := by
  refine ⟨h.isName, ?_⟩
  rw [statement, Rhs.alternatives_eq]
  exact List.forall_mem_map.mpr fun product hproduct =>
    (h.isReadable hlegible product hproduct).isName_atoms

namespace Reading

variable {limit : Nat} {definitions : List (Definition D)}

/-- Printable definitions without an empty set of products are read again with the same keys and values,
and nothing is reported. -/
theorem exists_ofSource_printEquations (hlegible : ∀ value : D, IsLegible value)
    (hprintable : ∀ definition ∈ definitions, definition.IsPrintable)
    (hsize : ∀ definition ∈ definitions, definition.equation.rhs.size ≤ limit)
    (hnonempty : ∀ definition ∈ definitions, definition.equation.rhs ≠ .pending .empty) :
    ∃ again, ofSource limit (printEquations definitions) = ⟨some again, []⟩ ∧
      List.Forall₂ Definition.MeansSame again definitions := by
  have hcomplete : ∀ definition ∈ definitions, definition.statement.IsComplete := by
    intro definition hmem
    obtain ⟨hatoms, hnil⟩ := definition.alternatives_statement
    exact ⟨fun h => hnonempty definition hmem (hnil.mp h), hatoms⟩
  obtain ⟨tokens, htokens, hscript⟩ := Statement.ofSource_chars (List.forall_mem_map.mpr hcomplete)
    (List.forall_mem_map.mpr fun definition hmem => (hprintable definition hmem).hasNames hlegible)
  obtain ⟨hsame, hdrops⟩ := Definition.exists_again hlegible hprintable hsize fun i => i + 1
  refine ⟨_, ?_, hsame⟩
  rw [printEquations_eq, ofSource, htokens]
  simp only [ofTokens, hscript, Statement.defineAll_eq, hdrops]

omit [EquationalDomain D] in
/-- Printable definitions with an empty set of products are not read again. -/
theorem definitions?_printEquations_eq_none (limit : Nat) (hlegible : ∀ value : D, IsLegible value)
    (hprintable : ∀ definition ∈ definitions, definition.IsPrintable)
    (hempty : ∃ definition ∈ definitions, definition.equation.rhs = .pending .empty) :
    (ofSource limit (printEquations definitions) : Reading D).definitions? = none := by
  obtain ⟨tokens, htokens, hbody⟩ := Statement.exists_tokens_chars
    (List.forall_mem_map.mpr fun definition hmem => (hprintable definition hmem).hasNames hlegible)
  obtain ⟨definition, hmem, hrhs⟩ := hempty
  have hnil : ∃ statement ∈ definitions.map Definition.statement, statement.alternatives = [] :=
    ⟨_, List.mem_map_of_mem hmem, definition.alternatives_statement.2.mpr hrhs⟩
  obtain ⟨error, herror⟩ := Statement.exists_failure
    (List.forall_mem_map.mpr fun definition _ => definition.alternatives_statement.1) hnil []
  rw [printEquations_eq, ofSource, htokens]
  simp only [ofTokens, hbody, herror]

/-- Printed definitions keep their meaning: if they are printable and within the limit, they are read
again without a report, with the same keys and values, exactly if none of them has an empty set of
products. -/
def KeepsMeaning (limit : Nat) (definitions : List (Definition D)) : Prop :=
  (∀ definition ∈ definitions, definition.IsPrintable) →
    (∀ definition ∈ definitions, definition.equation.rhs.size ≤ limit) →
    ((∃ again, ofSource limit (printEquations definitions) = ⟨some again, []⟩ ∧
        List.Forall₂ Definition.MeansSame again definitions) ↔
      ∀ definition ∈ definitions, definition.equation.rhs ≠ .pending .empty)

/-- In a domain of legible values, printed definitions keep their meaning. -/
theorem keepsMeaning_of_isLegible (hlegible : ∀ value : D, IsLegible value) (limit : Nat)
    (definitions : List (Definition D)) : KeepsMeaning limit definitions := by
  intro hprintable hsize
  refine ⟨?_, exists_ofSource_printEquations hlegible hprintable hsize⟩
  rintro ⟨again, hread, -⟩ definition hmem hempty
  have hnone := definitions?_printEquations_eq_none limit hlegible hprintable
    ⟨definition, hmem, hempty⟩
  rw [hread] at hnone
  cases hnone

/-- Printed definitions keep their meaning over the chain and over contracts. -/
theorem keepsMeaning_domains (limit : Nat) :
    (∀ definitions : List (Definition Ternary), KeepsMeaning limit definitions) ∧
      ∀ definitions : List (Definition (Flat Contract)), KeepsMeaning limit definitions :=
  ⟨keepsMeaning_of_isLegible Ternary.isLegible limit,
    keepsMeaning_of_isLegible Flat.isLegible_of_contract limit⟩

/-- Definitions that no text gives: one has constants before its keys, one of them bottom with a key, and
one has a constant top beside a product. -/
def oddSums : List (Definition (Flat Contract)) :=
  [⟨7, ⟨"k", false, true⟩, .ofProducts [.constant (.elem .null), .constant .bottom,
      .ofKeys .bottom [⟨"a/", true, false⟩],
      .ofKeys (.elem .pure) [⟨"Top", true, true⟩, ⟨"k", false, false⟩]]⟩,
    ⟨2, ⟨"Null", true, false⟩, .ofProducts [.ofKeys .top [⟨"a/", true, false⟩], .constant .top]⟩]

/-- The odd sums are read again off their printed form, with the same values. -/
theorem keepsMeaning_oddSums :
    (∀ definition ∈ oddSums, definition.IsPrintable) ∧
      (∀ definition ∈ oddSums, definition.equation.rhs.size ≤ 3) ∧
      printEquations oddSums =
        "!k? = Null | Bot | Bot & a/ | Pure & !Top & k?;\nNull = a/ | Top;\n" ∧
      ∃ again, ofSource 3 (printEquations oddSums) = ⟨some again, []⟩ ∧
        List.Forall₂ Definition.MeansSame again oddSums := by
  have hprintable : ∀ definition ∈ oddSums, definition.IsPrintable := by
    have hall : ∀ definition ∈ oddSums, IsName definition.equation.key.base.toList ∧
        ∀ product ∈ definition.equation.rhs.sum, ∀ key ∈ product.ids.toList,
          IsName key.base.toList ∧ (key.constant? : Option (Flat Contract)) = none := by decide
    exact fun definition hmem => ⟨(hall definition hmem).1, (hall definition hmem).2⟩
  have hsize : ∀ definition ∈ oddSums, definition.equation.rhs.size ≤ 3 := by decide
  have hnonempty : ∀ definition ∈ oddSums, definition.equation.rhs ≠ .pending .empty := by decide
  exact ⟨hprintable, hsize, by decide,
    ((keepsMeaning_domains 3).2 oddSums hprintable hsize).mpr hnonempty⟩

/-- A definition that says bottom by an empty set of products. -/
def emptySum : Definition Ternary := ⟨1, ⟨"k", true, false⟩, .pending .empty⟩

/-- The empty sum means bottom, and it is printable and within every limit. But it is printed without a
right side, and reading that reports that a key is missing. -/
theorem printEquations_emptySum :
    emptySum.IsPrintable ∧ emptySum.equation.rhs.size = 0 ∧
      (∀ reads, emptySum.equation.rhs.eval reads = .no) ∧
      printEquations [emptySum] = "k = ;\n" ∧
      ofSource 30 (printEquations [emptySum]) =
        (⟨none, [⟨.error, 1, "at ';'", "Key expected."⟩]⟩ : Reading Ternary) ∧
      ¬ ∃ again : List (Definition Ternary),
        ofSource 30 (printEquations [emptySum]) = ⟨some again, []⟩ ∧
          List.Forall₂ Definition.MeansSame again [emptySum] := by
  have hprint : printEquations [emptySum] = "k = ;\n" := by decide
  have htokens : Tokens.ofSource "k = ;\n" = .ok
      ⟨[⟨.name "k", 1⟩, ⟨.operator .define, 1⟩, ⟨.operator .semicolon, 1⟩], 2⟩ := by cbv
  have hnil : emptySum.statement.alternatives = [] := rfl
  have hspelled : List.map Token.lexeme
      [⟨.name "k", 1⟩, ⟨.operator .define, 1⟩, ⟨.operator .semicolon, 1⟩] =
        emptySum.statement.lexemes := rfl
  have hreader := Statement.reader_of_nil hnil hspelled []
  rw [List.append_nil] at hreader
  have hread : ofSource 30 (printEquations [emptySum]) =
      (⟨none, [⟨.error, 1, "at ';'", "Key expected."⟩]⟩ : Reading Ternary) := by
    rw [hprint, ofSource, htokens]
    simp only [ofTokens, Script.ofTokens_of_error (List.cons_ne_nil _ _) hreader]
    rfl
  refine ⟨⟨by decide, by rintro _ ⟨⟩⟩, rfl, fun _ => rfl, hprint, hread, ?_⟩
  rintro ⟨again, hagain, -⟩
  rw [hread] at hagain
  cases hagain

end Reading

end MonotoneEquations
